import LispMachine.Cell

/-!
# Frames

One activation: a work stack, the variables and what the frame is doing.
-/

namespace LispMachine

/-- What a frame is doing: running code at an offset, carrying out a native, or
    waiting for the result of a call made from outside. -/
inductive Activity where
  | running (code : Code) (pc : Nat)
  | native (name : String)
  | waiting

/-- One activation. The work stack is kept with its top first; `home` is the
    module in which names are looked up. -/
structure Frame where
  stack : List Ref
  locals : Array Ref
  activity : Activity
  home : ModuleId

instance : Inhabited Frame := ⟨⟨[], #[], .waiting, 0⟩⟩

namespace Frame

/-- A frame that waits for a result. -/
def waiting (home : ModuleId) : Frame := ⟨[], #[], .waiting, home⟩

/-- The frame of a native; the arguments are its work stack, the last on top. -/
def ofNative (native : Native) (home : ModuleId) (args : List Ref) : Frame :=
  ⟨args.reverse, #[], .native native.name, home⟩

/-- The frame of compiled code before its first instruction. -/
def ofCode (code : Code) (home : ModuleId) (locals : Array Ref) : Frame :=
  ⟨[], locals, .running code 0, home⟩

/-- The cells that the code of a frame refers to. -/
def codeRoots (frame : Frame) : List Ref :=
  match frame.activity with
  | .running code _ => code.children
  | _ => []

/-- Every cell that the frame keeps alive. -/
def roots (frame : Frame) : List Ref :=
  frame.stack ++ frame.locals.toList ++ frame.codeRoots

end Frame

end LispMachine
