import LispMachine.Toplevel

/-!
# The watched machine

The watched machine takes the steps of the machine, but it traps where an access
would leave its bounds: an argument taken by position, arguments split off a list
or a work stack, a module looked up by its number, a frame taken from below the
call, a frame beyond the limit, and more variables than a frame has room for.
-/

namespace LispMachine

/-- The number of arguments that a library callable takes by position. -/
def Builtin.positions : Builtin → Nat
  | add | subtract | multiply | list => 0
  | less | equal | same | cons => 2
  | car | cdr | isNull | print => 1

/-- The number of arguments that a native takes by position. -/
def Native.positions : Native → Nat
  | builtin b => b.positions
  | probe .apply | probe .functionOf | probe .eval => 1
  | probe _ => 0

namespace Machine

/-- How the watched machine ends early: as the machine does, or in a trap. -/
inductive Halt where
  | stopped (reason : Stop RuntimeError)
  | trapped

/-- A computation of the watched machine. -/
abbrev Watched (α : Type) := EStateM Halt Machine α

/-- A result of the machine as one of the watched machine. -/
def lifted {α : Type} : EStateM.Result (Stop RuntimeError) Machine α → EStateM.Result Halt Machine α
  | .ok value m => .ok value m
  | .error e m => .error (.stopped e) m

/-- Carries out a computation of the machine. -/
def plainly {α : Type} (action : Action RuntimeError α) : Watched α := fun m => lifted (action m)

/-- Traps unless the machine is as it must be. -/
def demand (holds : Machine → Bool) : Watched Unit := fun m =>
  if holds m then .ok () m else .error .trapped m

/-- The largest number of variables for which a frame has room: a handle takes four bytes, and
    no block of memory has `2 ^ 63` bytes or more. -/
def maxVariables : Nat := (1 <<< 61) - 1

/-- Every module that a value may name in a text is registered. -/
def namesModules (m : Machine) : Bool :=
  m.heap.cells.all fun entry =>
    match entry.cell with
    | .scalar (.moduleCell id) => id < m.registry.size
    | _ => true

/-- What a call from outside must respect: `base` frames lie below it, and there may be at
    most `limit` frames. -/
structure Fence where
  base : Nat
  limit : Nat

namespace Fence

variable (fence : Fence) (host : Host)

/-- Enters a frame; it must not be one too many. -/
def enter (frame : Frame) : Watched Unit := do
  plainly (Machine.enter frame)
  demand fun m => m.depth ≤ fence.limit

/-- Leaves the current frame; it must lie above the one that waits for the result. -/
def giveBack : Watched Unit := do
  demand fun m => fence.base + 1 < m.depth
  plainly Machine.giveBack

/-- Calls a native; the arguments that it takes by position must be there. -/
def callNative (native : Native) (args : List Ref) : Watched Unit := do
  plainly (checkArity (fun _ => native.name) native.arity args.length)
  let home := (← get).top.home
  fence.enter (.ofNative native home args)
  demand fun _ => native.positions ≤ args.length
  match ← plainly (native.run host args) with
  | some value => modify fun m => m.push value
  | none => pure ()
  fence.giveBack

/-- Enters compiled code; the arguments beyond the parameters are split off, so there must
    be as many as parameters, and there must be room for the variables. -/
def callCode (code : Code) (args : List Ref) : Watched Unit := do
  plainly (checkArity (fun m => m.codeName code) code.arity args.length)
  demand fun _ => !code.takesRest || code.params ≤ args.length
  let args ← plainly (gatherRest code args)
  demand fun _ => code.slots ≤ maxVariables
  let home := (← get).homeOf code
  fence.enter (.ofCode code home (variablesOf code args))

/-- Calls a value; a text that a failure or a native makes must find the modules it names. -/
def invoke (callee : Ref) (args : List Ref) : Watched Unit := do
  demand namesModules
  let m ← get
  match m.heap.scalar? callee with
  | some (.native native) => fence.callNative host native args
  | some (.function code) => fence.callCode code args
  | some (.expander code) => plainly (fail (.macroCall (m.codeName code)))
  | _ => plainly (fail (.notCallable (m.display callee)))

/-- Calls the value below the topmost arguments, which are split off the work stack. -/
def callOnStack (count : Nat) : Watched Unit := do
  let stack := (← get).top.stack
  match takeArgs count stack [] with
  | some (args, callee :: rest) => do
      demand fun _ => count ≤ stack.length
      modify fun m => { m with top := { m.top with stack := rest } }
      fence.invoke host callee args
  | _ => plainly (fail .stackUnderflow)

/-- Carries out an instruction; to look a name up, the module of the frame must be
    registered. -/
def execute (code : Code) (pc : Nat) (op : Opcode) (operand : Nat) : Watched Unit :=
  match op with
  | .loadModuleValue | .loadModuleFunction => do
      demand fun m => m.top.home < m.registry.size
      plainly (Machine.execute host code pc op operand)
  | .call => fence.callOnStack host operand
  | .ret => fence.giveBack
  | _ => plainly (Machine.execute host code pc op operand)

/-- Takes one step; its note and its failure must find the modules they name. -/
def step : Watched Unit := do
  demand namesModules
  let m ← get
  match m.top.activity with
  | .running code pc =>
      match code.fetch pc with
      | .error e => plainly (fail e)
      | .ok (op, operand) => do
          modify fun m =>
            if m.config.trace then m.note .trace fun m => m.traceLine code pc op operand else m
          modify fun m => m.jump (pc + 1 + op.width)
          fence.execute host code pc op operand
  | _ => plainly (fail .returnFromTopLevel)

/-- Takes steps until the frame that waits for the result is on top. -/
def run : Nat → Watched Unit
  | 0 => plainly (throw .outOfFuel)
  | fuel + 1 => do
      if fence.base + 1 < (← get).depth then do
        fence.step host
        run fuel
      else return ()

end Fence

/-- Begins a call above a frame that waits for its result and runs it to its end. The frames
    from `base` on are dropped, so there must be so many at least. -/
def watchedCall (host : Host) (limit fuel : Nat) (enterCall : Fence → Watched Unit) :
    Watched Ref := fun m =>
  let fence : Fence := ⟨m.depth, limit⟩
  let outcome := (do
    fence.enter (.waiting m.top.home)
    enterCall fence
    fence.run host fuel : Watched Unit) m
  match outcome with
  | .error .trapped m' => .error .trapped m'
  | .error (.stopped e) m' =>
      if m.depth ≤ m'.depth then .error (.stopped e) (m'.truncate m.depth)
      else .error .trapped m'
  | .ok _ m' =>
      if m.depth ≤ m'.depth then
        match m'.frameAt? m.depth with
        | some ⟨value :: _, _, _, _⟩ => .ok value (m'.truncate m.depth)
        | _ => .error (.stopped (.failed (.emptyReturn "apply"))) (m'.truncate m.depth)
      else .error .trapped m'

/-- Calls a value with arguments in the watched machine. -/
def watchedApply (limit fuel : Nat) (callee : Ref) (args : List Ref) : Watched Ref :=
  watchedCall (serve fuel) limit fuel fun fence => fence.invoke (serve fuel) callee args

/-- Runs the code of a macro in the watched machine. -/
def watchedExpand (limit fuel : Nat) (code : Code) (args : List Ref) : Watched Ref :=
  watchedCall (serve fuel) limit fuel fun fence => fence.callCode code args

end Machine

end LispMachine
