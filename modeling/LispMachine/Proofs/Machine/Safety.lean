import LispMachine.Proofs.Compiler.Verified
import LispMachine.Proofs.Heap.Collect
import LispMachine.Proofs.Machine.Tandem

/-!
# Verified code does not go wrong

On a heap whose functions and macros all pass the verifier, a call fails for the
reasons that programs have only: never because an instruction is no instruction,
lacks its operands or finds no symbol where it counts on one.
-/

namespace LispMachine

/-! ## Faults -/

/-- A failure that tells of broken code. -/
def RuntimeError.isFault : RuntimeError → Bool
  | .stackUnderflow => true
  | .returnFromTopLevel => true
  | .emptyReturn _ => true
  | .unknownOpcode _ _ => true
  | .truncatedInstruction _ => true
  | .invalidOperand _ _ _ => true
  | .typeError function _ _ =>
      function == Opcode.loadModuleValue.mnemonic || function == Opcode.loadModuleFunction.mnemonic
  | _ => false

/-- If the computation fails, then without a fault. -/
def Faultless {ε σ α : Type} (isFault : ε → Bool) : EStateM.Result (Stop ε) σ α → Prop
  | .error (.failed error) _ => isFault error = false
  | _ => True

/-! ## Sound heaps -/

/-- The code passes, and the names that it looks up are symbols of the heap. -/
def Code.Sound (heap : Heap) (code : Code) : Prop :=
  code.Verified fun r => heap.isSymbol r = true

/-- A heap on which code may run: the free list is sound, no cell in use carries a
    mark, no callable re-enters the machine, and all code is sound. -/
structure Heap.Safe (h : Heap) : Prop where
  wellFormed : h.WellFormed
  unmarked : h.Unmarked
  plain : Machine.OnlyBuiltins h
  codes : ∀ r s code, h.scalar? r = some s → s.code? = some code → code.Sound h

/-- A cell that may join a sound heap. -/
structure Cell.Joins (h : Heap) (cell : Cell) : Prop where
  used : cell.isFree = false
  plain : ∀ probe, cell ≠ .scalar (.native (.probe probe))
  code : ∀ s code, cell = .scalar s → s.code? = some code → code.Sound h

theorem Cell.IsData.joins {cell : Cell} (data : cell.IsData) (h : Heap) : cell.Joins h where
  used := data.used
  plain := by
    rintro probe rfl
    exact data
  code := by
    rintro s code rfl coded
    cases s with
    | integer value => cases coded
    | symbol name => cases coded
    | native native => cases coded
    | function code => exact data.elim
    | expander code => exact data.elim
    | moduleCell id => cases coded

theorem Code.Sound.later {h h' : Heap} {code : Code} (sound : code.Sound h) (kept : h.Keeps h') :
    code.Sound h' :=
  sound.imp fun _ _ symbol => kept.isSymbol symbol

namespace Heap

theorem Safe.ready {m : Machine} (safe : m.heap.Safe) : m.Ready := ⟨safe.wellFormed, safe.plain⟩

theorem Safe.allocated {h h' : Heap} {cell : Cell} {r : Ref} (safe : h.Safe) (joins : cell.Joins h)
    (allocated : h.Allocated cell r h') : h'.Safe where
  wellFormed := allocated.wellFormed
  unmarked := allocated.unmarked safe.unmarked
  plain := by
    intro other probe found
    have held := scalar?_eq_some.1 found
    rcases (allocated.live_iff other).1 ⟨_, held, rfl⟩ with rfl | live
    · rw [allocated.found] at held
      cases held
      exact joins.plain probe rfl
    · rw [allocated.kept other live] at held
      exact safe.plain other probe (scalar?_eq_some.2 held)
  codes := by
    intro other s code found coded
    have held := scalar?_eq_some.1 found
    rcases (allocated.live_iff other).1 ⟨_, held, rfl⟩ with rfl | live
    · rw [allocated.found] at held
      cases held
      exact (joins.code s code rfl coded).later allocated.kept
    · rw [allocated.kept other live] at held
      exact (safe.codes other s code (scalar?_eq_some.2 held) coded).later allocated.kept

/-- Allocation keeps a heap sound, and what it keeps it keeps as it was. -/
theorem Safe.alloc {h : Heap} {cell : Cell} (safe : h.Safe) (joins : cell.Joins h) :
    (after (alloc cell h)).Safe ∧ h.Keeps (after (alloc cell h)) := by
  rcases alloc_cases safe.wellFormed joins.used with ⟨r, h', done, allocated⟩ | ⟨failed, _⟩
  · rw [done]
    exact ⟨safe.allocated joins allocated, allocated.kept⟩
  · rw [failed]
    exact ⟨safe, .refl h⟩

theorem Extends.safe {h h' : Heap} (extended : h.Extends h') (safe : h.Safe) : h'.Safe := by
  induction extended with
  | refl => exact safe
  | alloc _ data done ih =>
      have both := ih.alloc (data.joins _)
      rw [done] at both
      exact both.1

/-- A collection keeps a heap sound: the constants of code that survives survive. -/
theorem Safe.collect {h : Heap} (safe : h.Safe) (roots : List Ref) : (h.collect roots).2.Safe where
  wellFormed := wellFormed_collect safe.wellFormed
  unmarked := unmarked_collect safe.unmarked
  plain := by
    intro r probe found
    have held := scalar?_eq_some.1 found
    rw [cell?_collect safe.unmarked ⟨_, held, rfl⟩] at held
    exact safe.plain r probe (scalar?_eq_some.2 held)
  codes := by
    intro r s code found coded
    have held := scalar?_eq_some.1 found
    have survives : (h.collect roots).2.Live r := ⟨_, held, rfl⟩
    rw [cell?_collect safe.unmarked survives] at held
    refine (safe.codes r s code (scalar?_eq_some.2 held) coded).imp ?_
    intro symbol constant known
    obtain ⟨name, symbol_held⟩ := isSymbol_iff.1 known
    have reached := ((live_collect_iff safe.unmarked r).1 survives).2
    have lives : (h.collect roots).2.Live symbol := by
      refine (live_collect_iff safe.unmarked symbol).2 ⟨⟨_, symbol_held, rfl⟩, ?_⟩
      exact reached.child held (.constant coded constant) ⟨_, symbol_held, rfl⟩
    exact isSymbol_iff.2 ⟨name, (cell?_collect safe.unmarked lives).trans symbol_held⟩

end Heap

/-! ## Frames that run sound code -/

/-- A frame that runs sound code. Its next instruction stands in the code and finds the
    work stack as it expects it, once `missing` values have come back from calls. -/
def Frame.Fits (heap : Heap) (missing : Nat) (frame : Frame) : Prop :=
  ∃ code sites t, frame.activity = .running code t.offset ∧ code.Checked sites ∧
    (∀ s ∈ sites, ∀ r, s.top = some r → heap.isSymbol r = true) ∧ t ∈ sites ∧
    t.height = frame.stack.length + missing ∧
    (∀ r, t.top = some r → missing = 0 ∧ frame.stack.head? = some r) ∧
    code.slots ≤ frame.locals.size

namespace Frame

theorem Fits.later {heap heap' : Heap} {missing : Nat} {frame : Frame}
    (fits : frame.Fits heap missing) (kept : heap.Keeps heap') : frame.Fits heap' missing := by
  obtain ⟨code, sites, t, doing, checked, names, rest⟩ := fits
  exact ⟨code, sites, t, doing, checked,
    fun s member r top => kept.isSymbol (names s member r top), rest⟩

/-- The value that a frame waits for lets it go on. -/
theorem Fits.push {heap : Heap} {frame : Frame} (fits : frame.Fits heap 1) (value : Ref) :
    (frame.push value).Fits heap 0 := by
  obtain ⟨code, sites, t, doing, checked, names, member, height, top, room⟩ := fits
  refine ⟨code, sites, t, doing, checked, names, member, by simpa [Frame.push] using height, ?_, room⟩
  intro r counted
  cases (top r counted).1

theorem fits_ofCode {heap : Heap} {code : Code} (sound : code.Sound heap) (home : ModuleId)
    (args : List Ref) : (Frame.ofCode code home (Machine.variablesOf code args)).Fits heap 0 := by
  obtain ⟨sites, checked, names⟩ := sound
  obtain ⟨t, member, offset, height, top⟩ := checked.starts
  refine ⟨code, sites, t, ?_, checked, fun s inside r counted => (names s inside r counted).1,
    member, by simpa [Frame.ofCode] using height, ?_, ?_⟩
  · simp only [Frame.ofCode, offset]
  · intro r counted
    rw [top] at counted
    cases counted
  · simp only [Frame.ofCode, Machine.variablesOf, Array.size_append, List.size_toArray,
      Array.size_replicate]
    omega

end Frame

theorem Spans.fetch {code : Code} {pc pc' : Nat} {sites : List Site} (spans : Spans code pc sites pc')
    {s : Site} (member : s ∈ sites) : code.fetch s.offset = .ok (s.op, s.operand) := by
  induction spans with
  | nil => cases member
  | cons found _ ih =>
      rcases List.mem_cons.1 member with rfl | inside
      · exact found
      · exact ih inside

/-- Where an instruction leads, the frame fits again. -/
theorem Site.Reaches.fits {heap : Heap} {code : Code} {sites : List Site} {s : Site}
    {target missing : Nat} (reaches : s.Reaches code sites target) (checked : code.Checked sites)
    (names : ∀ s ∈ sites, ∀ r, s.top = some r → heap.isSymbol r = true) {frame : Frame}
    (doing : frame.activity = .running code target)
    (height : frame.stack.length + missing = s.heightAfter)
    (head : s.op = .pushConstant →
      missing = 0 ∧ frame.stack.head? = code.constants[s.operand]?)
    (room : code.slots ≤ frame.locals.size) : frame.Fits heap missing := by
  obtain ⟨t, member, rfl, same, top⟩ := reaches
  refine ⟨code, sites, t, doing, checked, names, member, same.trans height.symm, ?_, room⟩
  intro r counted
  rcases top with none | ⟨push, constant⟩
  · rw [none] at counted
    cases counted
  · obtain ⟨nothing, found⟩ := head push
    exact ⟨nothing, by rw [found, constant, counted]⟩

/-- An effect after which the frame fits, or which is no fault. -/
inductive Effect.Calm (heap : Heap) : Effect → Prop where
  | stay {frame : Frame} : frame.Fits heap 0 → Calm heap (.stay frame)
  | call {frame : Frame} {callee : Ref} {args : List Ref} : frame.Fits heap 1 →
      Calm heap (.call frame callee args)
  | back {frame : Frame} : frame.stack ≠ [] → Calm heap (.back frame)
  | fail {frame : Frame} {error : RuntimeError} : error.isFault = false →
      Calm heap (.fail frame error)

/-- A frame that fits finds a symbol where it counts on one. -/
theorem Frame.lookedUp_calm {m : Machine} {frame : Frame} {symbol : Ref} {rest : List Ref}
    (full : frame.stack = symbol :: rest) (known : m.heap.isSymbol symbol = true) (op : Opcode)
    (binding : Ref → Option Ref) {unbound : String → RuntimeError}
    (harmless : ∀ text, (unbound text).isFault = false)
    (fits : ∀ value, { frame with stack := value :: rest }.Fits m.heap 0) :
    (frame.lookedUp m op binding unbound).Calm m.heap := by
  simp only [Frame.lookedUp, Frame.popped, full, known, if_true, Frame.pushedOr]
  cases binding symbol with
  | none => exact .fail (harmless _)
  | some value => exact .stay (fits value)

/-- A work stack that is deep enough holds the arguments of a call, and the callee below
    them. -/
theorem Machine.takeArgs_of_lt {count : Nat} {stack : List Ref} (enough : count < stack.length) :
    ∃ args callee rest, Machine.takeArgs count stack [] = some (args, callee :: rest) ∧
      stack.length = rest.length + 1 + count := by
  have split : stack.take count ++ stack.drop count = stack := List.take_append_drop count stack
  have taken : (stack.take count).length = count := List.length_take_of_le (Nat.le_of_lt enough)
  have left : (stack.drop count).length = stack.length - count := List.length_drop
  cases below : stack.drop count with
  | nil =>
      rw [below, List.length_nil] at left
      omega
  | cons callee rest =>
      have args := Machine.takeArgs_append (stack.take count) (callee :: rest) []
      rw [taken, ← below, split, below] at args
      rw [below, List.length_cons] at left
      exact ⟨_, callee, rest, args, by omega⟩

/-- The next instruction of a frame that fits is no fault. -/
theorem Frame.Fits.effect {m : Machine} {frame : Frame} (fits : frame.Fits m.heap 0) :
    (frame.effect m).Calm m.heap := by
  obtain ⟨code, sites, t, doing, checked, names, member, height, top, room⟩ := fits
  have found := checked.spans.fetch member
  have admitted := checked.admitted t member
  have leads := checked.flows t member
  have known := names t member
  rw [Machine.effect_of_fetch doing found]
  obtain ⟨offset, op, operand, expected, counted⟩ := t
  obtain ⟨stack, locals, activity, home⟩ := frame
  obtain ⟨constant, slot, _, enough, name⟩ := admitted
  rw [Nat.add_zero] at height
  dsimp only at *
  subst height doing
  cases op with
  | pushNull => exact .stay ((leads _ List.mem_cons_self).fits checked names rfl rfl (by simp) room)
  | pushConstant =>
      obtain ⟨cell, held⟩ : ∃ cell, code.constants[operand]? = some cell :=
        ⟨_, Array.getElem?_eq_getElem (constant rfl)⟩
      simp only [Opcode.effect, Frame.pushedOr, held]
      refine .stay ((leads _ List.mem_cons_self).fits checked names rfl rfl ?_ room)
      exact fun _ => ⟨rfl, held.symm⟩
  | loadLocal =>
      obtain ⟨value, held⟩ : ∃ value, locals[operand]? = some value :=
        ⟨_, Array.getElem?_eq_getElem (Nat.lt_of_lt_of_le (slot (Or.inl rfl)) room)⟩
      simp only [Opcode.effect, Frame.pushedOr, held]
      exact .stay ((leads _ List.mem_cons_self).fits checked names rfl rfl (by simp) room)
  | storeLocal =>
      cases stack with
      | nil => cases enough
      | cons value rest =>
          have inside := Nat.lt_of_lt_of_le (slot (Or.inr rfl)) room
          simp only [Opcode.effect, Frame.popped, inside, if_true]
          refine .stay ((leads _ List.mem_cons_self).fits checked names rfl rfl (by simp) ?_)
          simpa using room
  | loadModuleValue =>
      obtain ⟨symbol, rfl⟩ := Option.isSome_iff_exists.1 (name (Or.inl rfl))
      obtain ⟨rest, rfl⟩ := List.head?_eq_some_iff.1 (top symbol rfl).2
      refine Frame.lookedUp_calm rfl (known symbol rfl) _ _ (fun _ => rfl) fun value => ?_
      exact (leads _ List.mem_cons_self).fits checked names rfl rfl (by simp) room
  | loadModuleFunction =>
      obtain ⟨symbol, rfl⟩ := Option.isSome_iff_exists.1 (name (Or.inr rfl))
      obtain ⟨rest, rfl⟩ := List.head?_eq_some_iff.1 (top symbol rfl).2
      refine Frame.lookedUp_calm rfl (known symbol rfl) _ _ (fun _ => rfl) fun value => ?_
      exact (leads _ List.mem_cons_self).fits checked names rfl rfl (by simp) room
  | branch => exact .stay ((leads operand List.mem_cons_self).fits checked names rfl rfl (by simp) room)
  | branchIfNull =>
      cases stack with
      | nil => cases enough
      | cons value rest =>
          simp only [Opcode.effect, Frame.popped]
          split
          · exact .stay ((leads operand (.tail _ (.head _))).fits checked names rfl rfl (by simp) room)
          · exact .stay ((leads _ List.mem_cons_self).fits checked names rfl rfl (by simp) room)
  | call =>
      obtain ⟨args, callee, rest, taken, left⟩ := Machine.takeArgs_of_lt (Nat.lt_of_succ_le enough)
      simp only [Opcode.effect, taken]
      refine .call ((leads _ List.mem_cons_self).fits checked names rfl ?_ (by simp) room)
      simp only [Site.heightAfter, Opcode.pops, Opcode.pushes]
      omega
  | ret =>
      refine .back ?_
      rintro rfl
      cases enough
  | pop =>
      cases stack with
      | nil => cases enough
      | cons value rest =>
          exact .stay ((leads _ List.mem_cons_self).fits checked names rfl rfl (by simp) room)

/-! ## Calls -/

namespace Builtin

theorem typeError_harmless (builtin : Builtin) (expected found : String) :
    (RuntimeError.typeError builtin.name expected found).isFault = false := by
  cases builtin <;> rfl

theorem integers_error {m : Machine} {function : String} {args : List Ref} {e : RuntimeError}
    (failed : integers m function args = .error e) :
    ∃ found, e = .typeError function "integer" found := by
  induction args with
  | nil => cases failed
  | cons r rest ih =>
      unfold integers at failed
      cases value : m.heap.integer? r with
      | none =>
          rw [value] at failed
          cases failed
          exact ⟨_, rfl⟩
      | some value =>
          rw [‹m.heap.integer? r = _›] at failed
          cases more : integers m function rest with
          | error e' =>
              rw [more] at failed
              cases failed
              exact ih more
          | ok values =>
              rw [more] at failed
              cases failed

theorem arithmeticPlan_harmless {m : Machine} {builtin : Builtin}
    {compute : List Int64 → Option Int64} {args : List Ref} {e : RuntimeError}
    (failed : arithmeticPlan m builtin compute args = .fail e) : e.isFault = false := by
  unfold arithmeticPlan at failed
  split at failed
  · next e' ints =>
      cases failed
      obtain ⟨found, rfl⟩ := integers_error ints
      exact builtin.typeError_harmless _ _
  · split at failed
    · cases failed
      rfl
    · cases failed

theorem comparisonPlan_harmless {m : Machine} {builtin : Builtin} {holds : Int64 → Int64 → Bool}
    {args : List Ref} {e : RuntimeError} (failed : comparisonPlan m builtin holds args = .fail e) :
    e.isFault = false := by
  unfold comparisonPlan at failed
  split at failed
  · next e' ints =>
      cases failed
      obtain ⟨found, rfl⟩ := integers_error ints
      exact builtin.typeError_harmless _ _
  · cases failed

theorem halfPlan_harmless {m : Machine} {builtin : Builtin} {part : Ref × Ref → Ref} {list : Ref}
    {e : RuntimeError} (failed : halfPlan m builtin part list = .fail e) : e.isFault = false := by
  unfold halfPlan at failed
  split at failed
  · cases failed
  · split at failed
    · cases failed
    · cases failed
      exact builtin.typeError_harmless _ _

theorem plan_harmless {builtin : Builtin} {m : Machine} {args : List Ref} {e : RuntimeError}
    (failed : builtin.plan m args = .fail e) : e.isFault = false := by
  cases builtin with
  | add => exact arithmeticPlan_harmless failed
  | subtract => exact arithmeticPlan_harmless failed
  | multiply => exact arithmeticPlan_harmless failed
  | less =>
      simp only [plan] at failed
      exact comparisonPlan_harmless failed
  | equal => exact comparisonPlan_harmless failed
  | car => exact halfPlan_harmless failed
  | cdr => exact halfPlan_harmless failed
  | same => cases failed
  | cons => cases failed
  | list => cases failed
  | isNull => cases failed
  | print => cases failed

theorem orHeapError_harmless {action : EStateM HeapError Heap Ref} {h h' : Heap} {e : RuntimeError}
    (failed : orHeapError action h = .error e h') : e.isFault = false := by
  unfold orHeapError at failed
  split at failed
  · cases failed
  · cases failed
    rfl

/-- A library callable fails without a fault. -/
theorem onHeap_harmless {builtin : Builtin} {m : Machine} {args : List Ref} {h h' : Heap}
    {e : RuntimeError} (failed : (builtin.plan m args).onHeap h = .error e h') :
    e.isFault = false := by
  cases plan : builtin.plan m args with
  | fail error =>
      rw [plan] at failed
      cases failed
      exact plan_harmless plan
  | give value =>
      rw [plan] at failed
      cases failed
  | makeInteger value =>
      rw [plan] at failed
      exact orHeapError_harmless failed
  | makePair first second =>
      rw [plan] at failed
      exact orHeapError_harmless failed
  | makeList items =>
      rw [plan] at failed
      exact orHeapError_harmless failed
  | print text value =>
      rw [plan] at failed
      cases failed

end Builtin

/-- A call that leaves a sound heap and a frame that fits, or fails without a fault. -/
inductive CallEffect.Calm : CallEffect → Prop where
  | returned {heap : Heap} {output : String} {value : Ref} : Calm (.returned heap output value)
  | entered {heap : Heap} {frame : Frame} : frame.Fits heap 0 → Calm (.entered heap frame)
  | failed {error : RuntimeError} {heap : Heap} {frame : Option Frame} : error.isFault = false →
      Calm (.failed error heap frame)

namespace Machine

theorem codeEffect_calm {m : Machine} {code : Code} (wf : m.heap.WellFormed)
    (sound : code.Sound m.heap) (depth : Nat) (args : List Ref) :
    (m.codeEffect depth code args).Calm := by
  unfold codeEffect
  split
  · have extended := gathered_extends code args wf
    cases done : gathered code args m.heap with
    | error e heap => exact .failed rfl
    | ok values heap =>
        rw [done] at extended
        dsimp only
        split
        · exact .failed rfl
        · exact .entered (Frame.fits_ofCode (sound.later (extended.keeps wf).2) _ _)
  · exact .failed rfl

theorem callEffect_calm {m : Machine} (safe : m.heap.Safe) (depth : Nat) (home : ModuleId)
    (callee : Ref) (args : List Ref) : (m.callEffect depth home callee args).Calm := by
  unfold callEffect
  split
  · unfold nativeEffect
    split
    · split
      · exact .failed rfl
      · split
        · exact .returned
        · next failed => exact .failed (Builtin.onHeap_harmless failed)
    · exact .failed rfl
  · next code found => exact codeEffect_calm safe.wellFormed (safe.codes _ _ code found rfl) depth args
  · exact .failed rfl
  · exact .failed rfl

/-! ## Runs -/

/-- The machine runs sound code above the frame `caller`, which is the last of the
    frames that it has been called from. -/
structure Active (below : Array Frame) (caller : Frame) (m : Machine) : Prop where
  safe : m.heap.Safe
  top : m.top.Fits m.heap 0
  callers : ∃ upper : Array Frame, m.callers = below.push caller ++ upper ∧
    ∀ frame ∈ upper, frame.Fits m.heap 1

/-- What a step of sound code does: it goes on, returns a value to the frame below, or
    fails without a fault. -/
inductive Goes (below : Array Frame) (caller : Frame) :
    EStateM.Result (Stop RuntimeError) Machine Unit → Prop where
  | on {m : Machine} : Active below caller m → Goes below caller (.ok () m)
  | back {m : Machine} (value : Ref) : m.callers = below → m.top = caller.push value →
      Goes below caller (.ok () m)
  | failed {m : Machine} {error : RuntimeError} : error.isFault = false →
      Goes below caller (.error (.failed error) m)

/-- What a run of sound code comes to: it returns a value to the frame below, fails
    without a fault, or has not ended yet. -/
inductive Ends (below : Array Frame) (caller : Frame) :
    EStateM.Result (Stop RuntimeError) Machine Unit → Prop where
  | back {m : Machine} (value : Ref) : m.callers = below → m.top = caller.push value →
      Ends below caller (.ok () m)
  | failed {m : Machine} {error : RuntimeError} : error.isFault = false →
      Ends below caller (.error (.failed error) m)
  | outOfFuel {m : Machine} : Ends below caller (.error .outOfFuel m)

section

variable {below : Array Frame} {caller : Frame} {m : Machine}

/-- The first call above a frame. -/
theorem Goes.begin {effect : CallEffect} (calm : effect.Calm) (safe : m.heap.Safe)
    (extended : m.heap.Extends effect.heap) : Goes m.callers m.top (effect.perform m) := by
  cases calm with
  | returned => exact .back _ rfl rfl
  | entered fits => exact .on ⟨extended.safe safe, fits, #[], by simp [withFrame, withHeap], by simp⟩
  | @failed error heap frame harmless => cases frame <;> exact .failed harmless

/-- A call from code. -/
theorem Goes.call {effect : CallEffect} (calm : effect.Calm) (safe : m.heap.Safe)
    (extended : m.heap.Extends effect.heap) (top : m.top.Fits m.heap 1)
    (callers : ∃ upper : Array Frame, m.callers = below.push caller ++ upper ∧
      ∀ frame ∈ upper, frame.Fits m.heap 1) : Goes below caller (effect.perform m) := by
  obtain ⟨upper, split, fitting⟩ := callers
  have kept := (extended.keeps safe.wellFormed).2
  cases calm with
  | @returned heap output value =>
      refine .on ⟨extended.safe safe, (top.later kept).push value, upper, split, ?_⟩
      exact fun frame member => (fitting frame member).later kept
  | @entered heap frame fits =>
      refine .on ⟨extended.safe safe, fits, upper.push m.top, ?_, ?_⟩
      · simp [withFrame, withHeap, split]
      · intro frame member
        rcases Array.mem_push.1 member with inside | rfl
        · exact (fitting frame inside).later kept
        · exact top.later kept
  | @failed error heap frame harmless => cases frame <;> exact .failed harmless

/-- A return. -/
theorem Goes.giveBack (safe : m.heap.Safe) (full : m.top.stack ≠ [])
    (callers : ∃ upper : Array Frame, m.callers = below.push caller ++ upper ∧
      ∀ frame ∈ upper, frame.Fits m.heap 1) : Goes below caller (giveBack m) := by
  obtain ⟨upper, split, fitting⟩ := callers
  obtain ⟨value, rest, stack⟩ := List.exists_cons_of_ne_nil full
  by_cases none : upper.size = 0
  · obtain rfl := Array.eq_empty_of_size_eq_zero none
    rw [Array.append_empty] at split
    rw [giveBack_push split, stack]
    exact .back value rfl rfl
  · obtain ⟨above, frame, rfl⟩ := Array.eq_push_of_size_ne_zero none
    rw [Array.append_push] at split
    rw [giveBack_push split, stack]
    refine .on ⟨safe, (fitting frame Array.mem_push_self).push value, above, rfl, ?_⟩
    exact fun other member => fitting other (Array.mem_push.2 (Or.inl member))

theorem Active.step (active : m.Active below caller) (host : Host) :
    Goes below caller (step host m) := by
  obtain ⟨safe, top, callers⟩ := active
  obtain ⟨journal, eq⟩ := step_apply host m
  have calm := top.effect
  rw [eq]
  cases effect : m.top.effect m with
  | stay frame =>
      rw [effect] at calm
      cases calm with
      | stay fits => exact .on ⟨safe, fits, callers⟩
  | call frame callee args =>
      rw [effect] at calm
      cases calm with
      | call fits =>
          rw [Effect.perform,
            invoke_apply host callee args ((m.withJournal journal).withTop frame) safe.plain]
          have calm' := @callEffect_calm ((m.withJournal journal).withTop frame) safe
          refine Goes.call (calm' _ _ _ _) safe ?_ fits callers
          exact callEffect_extends ((m.withJournal journal).withTop frame) safe.wellFormed _ _ _ _
  | back frame =>
      rw [effect] at calm
      cases calm with
      | back full =>
          rw [Effect.perform]
          exact @Goes.giveBack below caller ((m.withJournal journal).withTop frame) safe full callers
  | fail frame error =>
      rw [effect] at calm
      cases calm with
      | fail harmless => exact .failed harmless

theorem ends_back {value : Ref} (callers : m.callers = below) (top : m.top = caller.push value)
    (host : Host) (fuel : Nat) : Ends below caller (run host (below.size + 1) fuel m) := by
  have shallow : ¬ below.size + 1 < m.depth := by simp [depth, callers]
  cases fuel with
  | zero => exact .outOfFuel
  | succ fuel =>
      rw [Machine.run, if_neg shallow]
      exact .back value callers top

theorem Active.run (active : m.Active below caller) (host : Host) (fuel : Nat) :
    Ends below caller (run host (below.size + 1) fuel m) := by
  induction fuel generalizing m with
  | zero => exact .outOfFuel
  | succ fuel ih =>
      have deep : below.size + 1 < m.depth := by
        obtain ⟨upper, split, _⟩ := active.callers
        simp only [depth, split, Array.size_append, Array.size_push]
        omega
      have goes := active.step host
      rw [Machine.run, if_pos deep]
      cases done : Machine.step host m with
      | ok value m' =>
          rw [done] at goes
          cases goes with
          | on active' => exact ih active'
          | back value callers top => exact ends_back callers top host fuel
      | error e m' =>
          rw [done] at goes
          cases goes with
          | failed harmless => exact .failed harmless

/-- A call from outside that begins well has no fault. -/
theorem callOut_faultless (host : Host) (fuel : Nat) {enterCall : Action RuntimeError Unit}
    (begins : Goes (m.callers.push m.top) (.waiting m.top.home)
      (enterCall (m.withFrame (.waiting m.top.home)))) :
    Faultless RuntimeError.isFault (callOut host fuel enterCall m) := by
  simp only [callOut, bind_apply, enter_apply]
  by_cases full : m.config.maxFrames ≤ m.depth
  · simp only [full, if_true]
    rfl
  · simp only [full, if_false]
    cases entered : enterCall (m.withFrame (.waiting m.top.home)) with
    | error e m₁ =>
        rw [entered] at begins
        cases begins with
        | failed harmless => exact harmless
    | ok value m₁ =>
        rw [entered] at begins
        have ends : Ends (m.callers.push m.top) (.waiting m.top.home)
            (run host (m.depth + 1) fuel m₁) := by
          have floor : m.depth = (m.callers.push m.top).size := by simp [depth]
          rw [floor]
          cases begins with
          | on active => exact active.run host fuel
          | back value callers top => exact ends_back callers top host fuel
        dsimp only
        cases ran : run host (m.depth + 1) fuel m₁ with
        | error e m₂ =>
            rw [ran] at ends
            cases ends with
            | failed harmless => exact harmless
            | outOfFuel => trivial
        | ok value m₂ =>
            rw [ran] at ends
            cases ends with
            | back value callers top =>
                have found : m₂.frameAt? m.depth = some ((Frame.waiting m.top.home).push value) := by
                  simp [frameAt?, callers, top, depth]
                simp only [found, Frame.push, Frame.waiting]
                trivial

theorem applyWith_faultless (host : Host) (fuel : Nat) (callee : Ref) (args : List Ref)
    (safe : m.heap.Safe) : Faultless RuntimeError.isFault (applyWith host fuel callee args m) := by
  refine callOut_faultless host fuel ?_
  rw [invoke_apply host callee args (m.withFrame (.waiting m.top.home)) safe.plain]
  have calm := @callEffect_calm (m.withFrame (.waiting m.top.home)) safe
  refine @Goes.begin (m.withFrame (.waiting m.top.home)) _ (calm _ _ _ _) safe ?_
  exact callEffect_extends (m.withFrame (.waiting m.top.home)) safe.wellFormed _ _ _ _

theorem expandWith_faultless (host : Host) (fuel : Nat) {code : Code} (args : List Ref)
    (safe : m.heap.Safe) (sound : code.Sound m.heap) :
    Faultless RuntimeError.isFault (expandWith host fuel code args m) := by
  refine callOut_faultless host fuel ?_
  rw [callCode_apply]
  have calm := @codeEffect_calm (m.withFrame (.waiting m.top.home)) code safe.wellFormed sound
  refine @Goes.begin (m.withFrame (.waiting m.top.home)) _ (calm _ _) safe ?_
  exact codeEffect_extends (m.withFrame (.waiting m.top.home)) safe.wellFormed _ _ _

end

end Machine

end LispMachine
