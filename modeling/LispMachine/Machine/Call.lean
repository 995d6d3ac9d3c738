import LispMachine.Machine

/-!
# Calling and returning

Arguments stand on the work stack of the caller, above the callee. Compiled code
receives them in its variables, a native on the work stack of a frame of its
own; both hand their result back by returning.
-/

namespace LispMachine

/-- What a native may ask of the machine around it. -/
inductive Request where
  | apply (callee : Ref) (args : List Ref)
  | eval (form : Ref)

/-- Answers the requests of natives. -/
abbrev Host := Request → Action RuntimeError Ref

namespace Machine

/-- Splits the topmost values off a work stack; they come out in the order in
    which they were pushed, in front of `args`. -/
def takeArgs : Nat → List Ref → List Ref → Option (List Ref × List Ref)
  | 0, stack, args => some (args, stack)
  | _ + 1, [], _ => none
  | count + 1, r :: stack, args => takeArgs count stack (r :: args)

/-- The variables of a call: the arguments, and the empty list in the slots that
    no argument fills. -/
def variablesOf (code : Code) (args : List Ref) : Array Ref :=
  args.toArray ++ Array.replicate (code.slots - args.length) .null

/-- Collects surplus arguments into the list of the rest parameter. -/
def gatherRest (code : Code) (args : List Ref) : Action RuntimeError (List Ref) := do
  if code.takesRest then
    let rest ← onHeap RuntimeError.ofHeap (Heap.list (args.drop code.params))
    return args.take code.params ++ [rest]
  else return args

/-- Fails unless the number of arguments is accepted. -/
def checkArity (name : Machine → String) (arity : Arity) (count : Nat) :
    Action RuntimeError Unit := fun m =>
  if arity.accepts count then .ok () m
  else .error (.failed (.wrongArity (name m) arity count)) m

/-- Enters compiled code with the given arguments. -/
def callCode (code : Code) (args : List Ref) : Action RuntimeError Unit := do
  checkArity (fun m => m.codeName code) code.arity args.length
  let args ← gatherRest code args
  let home := (← get).homeOf code
  enter (.ofCode code home (variablesOf code args))

/-- Leaves the current frame and hands the top of its work stack to the caller. -/
def giveBack : Action RuntimeError Unit := fun m =>
  match m.callers.back? with
  | none => .error (.failed .returnFromTopLevel) m
  | some caller =>
      match m.top.stack with
      | value :: _ =>
          .ok () { m with
            top := { caller with stack := value :: caller.stack }
            callers := m.callers.pop }
      | [] =>
          let name :=
            match m.top.activity with
            | .running code _ => m.codeName code
            | .native name => name
            | .waiting => "<driver>"
          .error (.failed (.emptyReturn name)) { m with top := caller, callers := m.callers.pop }

end Machine

end LispMachine
