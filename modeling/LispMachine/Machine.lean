import LispMachine.Error
import LispMachine.Heap.Collect
import LispMachine.Journal
import LispMachine.Machine.Frame
import LispMachine.Opcode.Listing
import LispMachine.Printer

/-!
# The machine

The store, the modules and the stack of frames, with the settings and the output
of a session. The stack is never empty: its top frame is a field of its own, and
the frames below it are kept bottom first. The bottom frame runs no code; the
top level parks forms on its work stack.
-/

namespace LispMachine

/-- The state of a session. -/
structure Machine where
  store : Store
  registry : Registry
  top : Frame
  callers : Array Frame
  config : Config
  user : ModuleId
  truth : Ref
  defined : Array (ModuleId × Ref)
  output : String
  journal : Journal

/-- A computation on the machine that may fail or run out of fuel. -/
abbrev Action (ε α : Type) := EStateM (Stop ε) Machine α

namespace Machine

/-- The heap of the machine. -/
abbrev heap (m : Machine) : Heap := m.store.heap

/-- Number of frames. -/
def depth (m : Machine) : Nat := m.callers.size + 1

/-- The text of a value. -/
def display (m : Machine) (r : Ref) : String := Printer.display m.heap m.registry r

/-- The name of a piece of code. -/
def codeName (m : Machine) (code : Code) : String := Printer.nameOr m.heap code.name

/-- The true value or the empty list. -/
def boolean (m : Machine) (value : Bool) : Ref := if value then m.truth else .null

/-- The module in which code looks its names up. -/
def homeOf (m : Machine) (code : Code) : ModuleId :=
  match m.heap.scalar? code.home with
  | some (.moduleCell id) => id
  | _ => m.user

/-- Failure with the text of the value that was found. -/
def typeError (m : Machine) (function expected : String) (found : Ref) : RuntimeError :=
  .typeError function expected (m.display found)

/-! ## Store, journal and output -/

/-- Carries out a store operation in the store of the machine. -/
@[inline] def onStore {ε ε' α : Type} (f : ε → ε') (action : EStateM ε Store α) :
    EStateM ε' Machine α := fun m =>
  match m with
  | ⟨store, registry, top, callers, config, user, truth, defined, output, journal⟩ =>
      match action store with
      | .ok value store =>
          .ok value ⟨store, registry, top, callers, config, user, truth, defined, output, journal⟩
      | .error e store =>
          .error (f e)
            ⟨store, registry, top, callers, config, user, truth, defined, output, journal⟩

/-- Carries out a heap operation in the heap of the machine. -/
@[inline] def onHeap {ε α : Type} (f : HeapError → ε) (action : EStateM HeapError Heap α) :
    EStateM ε Machine α :=
  onStore f (Store.onHeap action)

/-- Fails. -/
@[inline] def fail {ε α : Type} (error : ε) : Action ε α := throw (.failed error)

/-- Brings the journal up to date with the growth of the heap. -/
def catchUp (m : Machine) : Machine :=
  let arenas := m.heap.arenas
  let size := m.heap.arenaSize
  { m with journal := m.journal.catchUp arenas size }

/-- Adds a note to the journal. The text is made only if it is kept. -/
def note (m : Machine) (level : NoteLevel) (text : Machine → String) : Machine :=
  if m.journal.keeps level then
    let text := text m
    let m := m.catchUp
    { m with journal := m.journal.add level text }
  else m

/-- Takes note of every arena of a heap other than the machine's own, from its
    first arena on. -/
def noteGrowth (m : Machine) (other : Heap) : Machine :=
  let m := m.catchUp
  { m with journal := m.journal.noteOther other.arenas other.arenaSize }

/-- The notes taken so far, and the machine without them. -/
def takeNotes (m : Machine) : Array Note × Machine :=
  let m := m.catchUp
  (m.journal.notes, { m with journal := { m.journal with notes := #[] } })

/-- The text printed so far, and the machine without it. -/
def takeOutput (m : Machine) : String × Machine :=
  (m.output, { m with output := "" })

/-- Prints one line. -/
def printLine (m : Machine) (line : String) : Machine :=
  { m with output := (m.output ++ line).push '\n' }

/-! ## Frames -/

/-- Pushes a value on the work stack of the current frame. -/
def push (m : Machine) (r : Ref) : Machine :=
  { m with top := { m.top with stack := r :: m.top.stack } }

/-- Takes the top value of the current work stack. -/
def pop : Action RuntimeError Ref := fun m =>
  match m.top.stack with
  | [] => .error (.failed .stackUnderflow) m
  | r :: rest => .ok r { m with top := { m.top with stack := rest } }

/-- Enters a frame unless the frame limit is reached. -/
def enter (frame : Frame) : Action RuntimeError Unit := fun m =>
  if m.config.maxFrames ≤ m.depth then .error (.failed (.stackOverflow m.config.maxFrames)) m
  else .ok () { m with callers := m.callers.push m.top, top := frame }

/-- Keeps the given number of frames, counted from the bottom. The bottom frame
    always stays. -/
def truncate (m : Machine) (count : Nat) : Machine :=
  match m.callers[count - 1]? with
  | none => m
  | some frame => { m with top := frame, callers := m.callers.shrink (count - 1) }

/-- Changes the work stack of the bottom frame. -/
def modifyBottom (m : Machine) (f : List Ref → List Ref) : Machine :=
  if m.callers.size = 0 then { m with top := { m.top with stack := f m.top.stack } }
  else { m with callers := m.callers.modify 0 fun frame => { frame with stack := f frame.stack } }

/-- The bottom frame. -/
def bottom (m : Machine) : Frame :=
  match m.callers[0]? with
  | some frame => frame
  | none => m.top

/-- Every frame, bottom first. -/
def frames (m : Machine) : List Frame := m.callers.toList ++ [m.top]

/-- One line of a backtrace; `height` is the number of frames below. -/
def frameLine (m : Machine) (height : Nat) (frame : Frame) : String :=
  match frame.activity with
  | .running code pc => s!"#{height} {m.codeName code} at {Text.offset pc}"
  | .native name => s!"#{height} {name} (native)"
  | .waiting => s!"#{height} <driver>"

/-- One line per frame above the bottom one, innermost first. -/
def backtrace (m : Machine) : List String :=
  ((m.frames.mapIdx m.frameLine).drop 1).reverse

/-! ## Collection -/

/-- Everything that must survive a collection: what the frames, the symbol table
    and the modules hold. -/
def roots (m : Machine) : List Ref :=
  m.frames.flatMap Frame.roots ++ m.store.roots ++ m.registry.roots

/-- Runs a collection cycle over the roots of the machine. -/
def collectGarbage (m : Machine) : Cycle × Machine :=
  let m := m.catchUp
  let roots := m.roots
  match m with
  | ⟨⟨heap, symbols⟩, registry, top, callers, config, user, truth, defined, output, journal⟩ =>
      let (cycle, heap) := heap.collect roots
      let live := heap.live
      let m : Machine :=
        ⟨⟨heap, symbols⟩, registry, top, callers, config, user, truth, defined, output, journal⟩
      (cycle, m.note .debug fun _ =>
        s!"gc cycle {cycle.index}: {cycle.roots} roots, {cycle.marked} marked, " ++
          s!"{cycle.freed} freed, {live} live")

/-! ## Modules and definitions -/

/-- Interns a name. -/
def intern {ε : Type} (f : HeapError → ε) (name : String) : EStateM ε Machine Ref :=
  onStore f (Store.intern name)

/-- Binds a function in a module. -/
def bindFunction (m : Machine) (id : ModuleId) (symbol function : Ref) : Machine :=
  { m with registry := m.registry.bindFunction id symbol function }

/-- Binds a value in a module. -/
def bindValue (m : Machine) (id : ModuleId) (symbol value : Ref) : Machine :=
  { m with registry := m.registry.bindValue id symbol value }

/-- Allocates a native and binds it to its name in a module. -/
def installNative {ε : Type} (f : HeapError → ε) (id : ModuleId) (native : Native) :
    EStateM ε Machine Unit := do
  let name ← intern f native.name
  let cell ← onHeap f (Heap.allocScalar (.native native))
  modify fun m => m.bindFunction id name cell

/-- Installs natives one after the other. -/
def installNatives {ε : Type} (f : HeapError → ε) (id : ModuleId) :
    List Native → EStateM ε Machine Unit
  | [] => return ()
  | native :: rest => do
      installNative f id native
      installNatives f id rest

/-- Creates a module without bindings. -/
def createModule {ε : Type} (f : HeapError → ε) (name : Ref) : EStateM ε Machine ModuleId := do
  let (id, registry) ← onHeap f ((← get).registry.create name)
  modify fun m => { m with registry := registry }
  return id

/-- Finds the module of a name, or creates it with the library and the true
    value. -/
def ensureModule {ε : Type} (f : HeapError → ε) (name : Ref) : EStateM ε Machine ModuleId := do
  match (← get).registry.find? name with
  | some id => return id
  | none =>
      let id ← createModule f name
      installNatives f id (Builtin.all.map Native.builtin)
      modify fun m => m.bindValue id m.truth m.truth
      modify fun m => m.note .debug fun m => s!"created module {m.display name}"
      return id

/-- The function or macro cells of the names defined since the last call, in
    order of first definition. -/
def takeDefinitions (m : Machine) : List Ref × Machine :=
  (m.defined.toList.filterMap fun (id, name) => m.registry.function? id name,
    { m with defined := #[] })

/-- The function bound to a name in a module. -/
def function? (m : Machine) (id : ModuleId) (name : String) : Option Ref :=
  match m.store.lookup name with
  | some symbol => m.registry.function? id symbol
  | none => none

/-- The value bound to a name in a module. -/
def value? (m : Machine) (id : ModuleId) (name : String) : Option Ref :=
  match m.store.lookup name with
  | some symbol => m.registry.value? id symbol
  | none => none

/-- The listing of a function or macro cell. -/
def disassemble (m : Machine) (r : Ref) : Option String :=
  match m.heap.code? r with
  | none => none
  | some code =>
      let constants := Text.spaced (code.constants.toList.map m.display)
      let rest := if code.takesRest then "+rest" else ""
      some (s!"{m.display r} params={code.params}{rest} slots={code.slots}\n" ++
        s!"constants: [{constants}]\n" ++ listing code.words.toList)

/-! ## Settings -/

/-- Switches per-instruction notes. -/
def setTrace (m : Machine) (on : Bool) : Machine :=
  { m with config := { m.config with trace := on } }

/-- Switches collection. -/
def setCollects (m : Machine) (on : Bool) : Machine :=
  { m with
    config := { m.config with collects := on }
    store := { m.store with heap := { m.store.heap with enabled := on } } }

/-- Sets how many allocations make a collection due. -/
def setThreshold (m : Machine) (threshold : Nat) : Machine :=
  { m with
    config := { m.config with gcThreshold := threshold }
    store := { m.store with heap := { m.store.heap with threshold := threshold } } }

/-- Sets the arena limit of the heap. -/
def setMaxArenas (m : Machine) (limit : Option Nat) : Machine :=
  { m with store := { m.store with heap := { m.store.heap with maxArenas := limit } } }

/-! ## Start -/

/-- A machine before its first symbol. -/
def blank (config : Config) (level : Option NoteLevel) : Machine where
  store := .ofHeap (.ofConfig config)
  registry := .empty
  top := .waiting 0
  callers := #[]
  config := config
  user := 0
  truth := .null
  defined := #[]
  output := ""
  journal := .ofLevel level

/-- Sets up the true value and the module `user`. -/
def setUp : EStateM HeapError Machine Unit := do
  let truth ← intern id Keyword.t.name
  modify fun m => { m with truth := truth }
  let name ← intern id Keyword.user.name
  let user ← ensureModule id name
  modify fun m => { m with user := user, top := .waiting user }

/-- A machine that is ready to evaluate forms. -/
def boot (config : Config) (level : Option NoteLevel) : Except HeapError Machine :=
  match setUp (blank config level) with
  | .ok _ m => .ok m
  | .error e _ => .error e

end Machine

end LispMachine
