import LispMachine.Proofs.Compiler.Contract
import LispMachine.Proofs.Compiler.Expansion

/-!
# How compilation fails

A compilation, whether it succeeds or not, only adds to the machine, and a macro
that fails while it runs has no fault. Compiled code is sound on the heap that its
compilation leaves.
-/

namespace LispMachine

open Machine

/-- A failure that tells of broken code: the fault of a macro. -/
def CompileError.isFault : CompileError → Bool
  | .macroExpansion _ cause => cause.isFault
  | _ => false

/-- Macros that run on a sound heap only add to the machine and have no fault. -/
def Expand.Safe (expand : Expand) : Prop :=
  ∀ (code : Code) (args : List Ref) (m : Machine), m.heap.Safe → code.Sound m.heap →
    m.Grows (after (expand code args m)) ∧ Faultless RuntimeError.isFault (expand code args m)

theorem expandWith_safe (host : Host) (fuel : Nat) : Expand.Safe (expandWith host fuel) :=
  fun code args _ safe sound =>
    ⟨expandWith_grows host fuel code args safe.ready, expandWith_faultless host fuel args safe sound⟩

namespace Compile

theorem macroOf?_found {m : Machine} {home : ModuleId} {head : Ref} {code : Code}
    (found : macroOf? m home head = some code) : ∃ r, m.heap.scalar? r = some (.expander code) := by
  unfold macroOf? at found
  split at found
  · split at found
    · split at found
      · next held =>
          cases found
          exact ⟨_, held⟩
      · cases found
    · cases found
  · cases found

/-- A macro that is found during a compilation was there at its start. -/
theorem sound_of_macroOf? {m m' : Machine} (safe : m.heap.Safe) (grows : m.Grows m')
    {home : ModuleId} {head : Ref} {code : Code} (found : macroOf? m' home head = some code) :
    code.Sound m.heap := by
  obtain ⟨r, held⟩ := macroOf?_found found
  have before := grows.heap.scalar? safe.wellFormed (Heap.scalar?_eq_some.1 held) (by simp)
  exact safe.codes r _ code (Heap.scalar?_eq_some.2 before) rfl

/-- A compilation only adds to a machine whose heap is sound. -/
def growing {expand : Expand} (expands : expand.Safe) {m : Machine} (safe : m.heap.Safe) :
    Contract expand where
  holds := m.Grows
  covers code := code.Sound m.heap
  allows _ error := error.isFault = false
  own _ error own := by cases error <;> first | rfl | cases own
  noted _ journal grows := grows.withJournal journal
  found _ _ _ _ grows found := sound_of_macroOf? safe grows found
  runs code args m' _ sound grows := by
    have kept := (grows.heap.keeps safe.wellFormed).2
    have ran := expands code args m' (grows.heap.safe safe) (sound.later kept)
    exact ⟨grows.trans ran.1, ran.2⟩

theorem function_tame {m : Machine} {expand : Expand} (expands : expand.Safe) (safe : m.heap.Safe)
    (fuel : Nat) (home : ModuleId) (name params : Ref) (body : List Ref) :
    m.Grows (after (function expand fuel home name params body m)) ∧
      Faultless CompileError.isFault (function expand fuel home name params body m) :=
  function_upholds (growing expands safe) (.refl m) fuel home name params body

theorem toplevel_tame {m : Machine} {expand : Expand} (expands : expand.Safe) (safe : m.heap.Safe)
    (fuel : Nat) (home : ModuleId) (form : Ref) :
    m.Grows (after (toplevel expand fuel home form m)) ∧
      Faultless CompileError.isFault (toplevel expand fuel home form m) :=
  toplevel_upholds (growing expands safe) (.refl m) fuel home form

/-- Compiled functions are sound. -/
theorem function_sound {host : Host} {fuel : Nat} {home : ModuleId} {name params : Ref}
    {body : List Ref} {m m' : Machine} {code : Code} (safe : m.heap.Safe)
    (done : function (expandWith host fuel) fuel home name params body m = .ok code m') :
    code.Sound m'.heap := by
  obtain ⟨items, fixed, rest, tree, _, _, expands, impl, _⟩ := function_ok done
  exact impl.verified (expands.known (expandWith_steady host fuel) safe.ready).2

/-- Compiled expressions are sound. -/
theorem toplevel_sound {host : Host} {fuel : Nat} {home : ModuleId} {form : Ref} {m m' : Machine}
    {code : Code} (safe : m.heap.Safe)
    (done : toplevel (expandWith host fuel) fuel home form m = .ok code m') :
    code.Sound m'.heap := by
  obtain ⟨tree, expands, impl, _⟩ := toplevel_ok done
  exact impl.verified (expands.known (expandWith_steady host fuel) safe.ready).2

end Compile

end LispMachine
