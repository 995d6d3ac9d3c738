import LispMachine.Machine.Natives

/-!
# Execution

One step fetches and carries out one instruction of the current frame. A run
takes steps until the stack of frames is back at a given depth, with a bound on
their number.
-/

namespace LispMachine

namespace Code

/-- The instruction at an offset: its operation and its operand, zero for an
    operation that takes none. -/
def fetch (code : Code) (pc : Nat) : Except RuntimeError (Opcode × Nat) :=
  match code.words[pc]? with
  | none => .error (.truncatedInstruction pc)
  | some word =>
      match Opcode.ofWord? word with
      | none => .error (.unknownOpcode word pc)
      | some op =>
          if op.width = 1 then
            match code.words[pc + 1]? with
            | none => .error (.truncatedInstruction pc)
            | some operand => .ok (op, operand.toNat)
          else .ok (op, 0)

end Code

namespace Machine

/-- The note of one instruction: the depth, the code, the offset, the operation
    and the work stack, bottom first. -/
def traceLine (m : Machine) (code : Code) (pc : Nat) (op : Opcode) (operand : Nat) : String :=
  let stack := Text.spaced (m.top.stack.reverse.map m.display)
  let operandText := if op.width = 1 then s!" {operand}" else ""
  s!"[{m.depth - 1}] {m.codeName code} {Text.offset pc} {op.mnemonic}{operandText} | [{stack}]"

/-- Moves the current frame to an offset of its code. -/
def jump (m : Machine) (pc : Nat) : Machine :=
  match m.top.activity with
  | .running code _ => { m with top := { m.top with activity := .running code pc } }
  | _ => m

/-- Sets a variable of the current frame, if it has the slot. -/
def setVariable (slot : Nat) (value : Ref) (onMissing : RuntimeError) :
    Action RuntimeError Unit := fun m =>
  if slot < m.top.locals.size then
    .ok () { m with
      top := { m.top with locals := m.top.locals.setIfInBounds slot value } }
  else .error (.failed onMissing) m

/-- Takes a symbol from the work stack. -/
def popSymbol (op : Opcode) : Action RuntimeError Ref := do
  let symbol ← pop
  let m ← get
  if m.heap.isSymbol symbol then return symbol
  else fail (m.typeError op.mnemonic "symbol" symbol)

/-- Pushes a value if there is one and fails otherwise. -/
def pushOr (value : Option Ref) (onMissing : Machine → RuntimeError) :
    Action RuntimeError Unit := fun m =>
  match value with
  | some value => .ok () (m.push value)
  | none => .error (.failed (onMissing m)) m

/-- Calls the value below the topmost arguments. -/
def callOnStack (host : Host) (count : Nat) : Action RuntimeError Unit := fun m =>
  match takeArgs count m.top.stack [] with
  | some (args, callee :: rest) =>
      invoke host callee args { m with top := { m.top with stack := rest } }
  | _ => .error (.failed .stackUnderflow) m

/-- Carries out an instruction that was fetched at `pc`; the current frame has
    moved on to the next one already. -/
def execute (host : Host) (code : Code) (pc : Nat) (op : Opcode) (operand : Nat) :
    Action RuntimeError Unit :=
  match op with
  | .pushNull => modify fun m => m.push .null
  | .pushConstant => pushOr code.constants[operand]? fun _ => .invalidOperand op operand pc
  | .loadLocal => fun m =>
      pushOr m.top.locals[operand]? (fun _ => .invalidOperand op operand pc) m
  | .storeLocal => do
      let value ← pop
      setVariable operand value (.invalidOperand op operand pc)
  | .loadModuleValue => do
      let symbol ← popSymbol op
      let m ← get
      pushOr (m.registry.value? m.top.home symbol) fun m => .unboundValue (m.display symbol)
  | .loadModuleFunction => do
      let symbol ← popSymbol op
      let m ← get
      pushOr (m.registry.function? m.top.home symbol) fun m => .unboundFunction (m.display symbol)
  | .branch => modify fun m => m.jump operand
  | .branchIfNull => do
      let value ← pop
      if value.isNull then modify fun m => m.jump operand
  | .call => callOnStack host operand
  | .ret => giveBack
  | .pop => do
      let _ ← pop

/-- Takes one step in the current frame. -/
def step (host : Host) : Action RuntimeError Unit := fun m =>
  match m.top.activity with
  | .running code pc =>
      match code.fetch pc with
      | .error e => .error (.failed e) m
      | .ok (op, operand) =>
          let m :=
            if m.config.trace then m.note .trace fun m => m.traceLine code pc op operand else m
          execute host code pc op operand (m.jump (pc + 1 + op.width))
  | _ => .error (.failed .returnFromTopLevel) m

/-- Takes steps until at most `floor` frames are left. -/
def run (host : Host) (floor : Nat) : Nat → Action RuntimeError Unit
  | 0, m => .error .outOfFuel m
  | fuel + 1, m =>
      if floor < m.depth then
        match step host m with
        | .ok _ m => run host floor fuel m
        | .error e m => .error e m
      else .ok () m

/-- The frame with a number of frames below it. -/
def frameAt? (m : Machine) (height : Nat) : Option Frame :=
  if height = m.callers.size then some m.top else m.callers[height]?

/-- Begins a call above a frame that waits for its result, runs it to its end,
    and drops every frame that it left. -/
def callOut (host : Host) (fuel : Nat) (enterCall : Action RuntimeError Unit) :
    Action RuntimeError Ref := fun m =>
  let base := m.depth
  let home := m.top.home
  let outcome := (do
    enter (.waiting home)
    enterCall
    run host (base + 1) fuel : Action RuntimeError Unit) m
  match outcome with
  | .error e m => .error e (m.truncate base)
  | .ok _ m =>
      match m.frameAt? base with
      | some ⟨value :: _, _, _, _⟩ => .ok value (m.truncate base)
      | _ => .error (.failed (.emptyReturn "apply")) (m.truncate base)

/-- Calls a value with arguments and returns the result. -/
def applyWith (host : Host) (fuel : Nat) (callee : Ref) (args : List Ref) :
    Action RuntimeError Ref :=
  callOut host fuel (invoke host callee args)

/-- Runs the code of a macro on argument forms. -/
def expandWith (host : Host) (fuel : Nat) (code : Code) (args : List Ref) :
    Action RuntimeError Ref :=
  callOut host fuel (callCode code args)

end Machine

end LispMachine
