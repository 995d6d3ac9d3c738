import LispMachine.Proofs.Heap.Founded
import LispMachine.Proofs.Machine.Frames
import LispMachine.Proofs.Reader.Words
import LispMachine.Toplevel
import Mathlib.Algebra.Ring.Int.Defs

/-!
# Arithmetic is exact or refused

The natives `+`, `-` and `*` work from left to right and check each partial result. What they
come to is told here by the integers alone: the partial results that the mathematics has, and
whether all of them are integers of the machine. An argument that is no integer is named by its
text, so it must have one.
-/

namespace LispMachine

/-! ## Checked results -/

/-- The integers that the machine has. -/
def InRange (n : Int) : Prop := Int64.minValue.toInt ≤ n ∧ n ≤ Int64.maxValue.toInt

instance (n : Int) : Decidable (InRange n) := inferInstanceAs (Decidable (_ ∧ _))

theorem inRange_toInt (value : Int64) : InRange value.toInt :=
  ⟨value.le_toInt, Int.le_of_lt_add_one value.toInt_lt⟩

/-- A check keeps the value or finds it out of range. -/
theorem machineInt?_cases (n : Int) :
    (InRange n ∧ ∃ value, machineInt? n = some value ∧ value.toInt = n) ∨
      (¬ InRange n ∧ machineInt? n = none) := by
  by_cases inside : -9223372036854775808 ≤ n ∧ n < 9223372036854775808
  · left
    refine ⟨⟨inside.1, Int.le_of_lt_add_one inside.2⟩, Int64.ofInt n, ?_, ?_⟩
    · rw [machineInt?, if_pos inside]
    · exact Int64.toInt_ofInt_of_le inside.1 inside.2
  · right
    refine ⟨fun range => inside ⟨range.1, Int.lt_add_one_of_le range.2⟩, ?_⟩
    rw [machineInt?, if_neg inside]

/-- Checked operations from left to right: all partial results are in range and the last is the
    result, or one is not and there is no result. -/
theorem foldlM_checked (op : Int → Int → Int) (values : List Int64) (start : Int64) :
    ((∀ n ∈ (values.map Int64.toInt).scanl op start.toInt, InRange n) ∧
      ∃ result, values.foldlM (fun total value => machineInt? (op total.toInt value.toInt)) start =
        some result ∧ result.toInt = (values.map Int64.toInt).foldl op start.toInt) ∨
    ((∃ n ∈ (values.map Int64.toInt).scanl op start.toInt, ¬ InRange n) ∧
      values.foldlM (fun total value => machineInt? (op total.toInt value.toInt)) start = none) := by
  induction values generalizing start with
  | nil => exact .inl ⟨by simpa using inRange_toInt start, start, rfl, rfl⟩
  | cons value rest ih =>
      simp only [List.map_cons, List.scanl_cons, List.foldlM_cons, List.foldl_cons,
        List.forall_mem_cons, List.exists_mem_cons_iff]
      rcases machineInt?_cases (op start.toInt value.toInt) with
        ⟨inside, next, checked, exact_⟩ | ⟨outside, checked⟩
      · rw [checked, ← exact_]
        rcases ih next with ⟨all, result, done, last⟩ | ⟨some, refused⟩
        · exact .inl ⟨⟨inRange_toInt start, all⟩, result, done, last⟩
        · exact .inr ⟨.inr some, refused⟩
      · rw [checked]
        right
        refine ⟨.inr ⟨op start.toInt value.toInt, ?_, outside⟩, rfl⟩
        cases rest <;> simp

/-! ## What arithmetic comes to -/

namespace Builtin

/-- The natives that compute with integers. -/
inductive Computes : Builtin → Prop where
  | add : Computes add
  | subtract : Computes subtract
  | multiply : Computes multiply

/-- The partial results from left to right: sums from zero, products from one, and differences
    from the first integer; a single integer is negated. -/
def partialResults : Builtin → List Int → List Int
  | add, ns => ns.scanl (· + ·) 0
  | multiply, ns => ns.scanl (· * ·) 1
  | subtract, [n] => [-n]
  | subtract, n :: ns => ns.scanl (· - ·) n
  | _, _ => []

/-- The mathematical value. -/
def exactValue : Builtin → List Int → Int
  | add, ns => ns.sum
  | multiply, ns => ns.prod
  | subtract, [n] => -n
  | subtract, n :: ns => n - ns.sum
  | _, _ => 0

/-- What the machine computes. -/
def compute : Builtin → List Int64 → Option Int64
  | add => sum
  | subtract => difference
  | multiply => product
  | _ => fun _ => none

theorem foldl_sub (ns : List Int) (start : Int) : ns.foldl (· - ·) start = start - ns.sum := by
  induction ns generalizing start with
  | nil => simp
  | cons n ns ih =>
      rw [List.foldl_cons, ih, List.sum_cons]
      omega

section

variable {b : Builtin}

/-- The machine computes the mathematical value, if all partial results are in range. -/
theorem Computes.compute_cases (computes : b.Computes) {values : List Int64}
    (accepted : b.arity.accepts values.length) :
    ((∀ n ∈ b.partialResults (values.map Int64.toInt), InRange n) ∧
      ∃ result, b.compute values = some result ∧
        result.toInt = b.exactValue (values.map Int64.toInt)) ∨
    ((∃ n ∈ b.partialResults (values.map Int64.toInt), ¬ InRange n) ∧ b.compute values = none) := by
  cases computes with
  | add =>
      rcases foldlM_checked (· + ·) values 0 with ⟨all, result, done, last⟩ | refused
      · refine .inl ⟨all, result, done, last.trans ?_⟩
        exact (List.sum_eq_foldl ..).symm
      · exact .inr refused
  | multiply =>
      rcases foldlM_checked (· * ·) values 1 with ⟨all, result, done, last⟩ | refused
      · refine .inl ⟨all, result, done, last.trans ?_⟩
        exact (List.prod_eq_foldl ..).symm
      · exact .inr refused
  | subtract =>
      cases values with
      | nil => cases accepted
      | cons first rest =>
          cases rest with
          | nil =>
              rcases machineInt?_cases (-first.toInt) with ⟨inside, made⟩ | ⟨outside, refused⟩
              · exact .inl ⟨by simpa [partialResults] using inside, made⟩
              · exact .inr ⟨⟨_, List.mem_singleton_self _, outside⟩, refused⟩
          | cons second rest =>
              rcases foldlM_checked (· - ·) (second :: rest) first with
                ⟨all, result, done, last⟩ | refused
              · exact .inl ⟨all, result, done, last.trans (foldl_sub _ _)⟩
              · exact .inr refused

/-- The plan of an arithmetic native. -/
theorem Computes.plan_eq (computes : b.Computes) (m : Machine) (args : List Ref) :
    b.plan m args = arithmeticPlan m b b.compute args := by
  cases computes <;> rfl

end

/-- Integer arguments are taken as they are. -/
theorem integers_of_all {m : Machine} {function : String} {args : List Ref} {values : List Int64}
    (all : args.map m.heap.integer? = values.map some) :
    integers m function args = .ok values := by
  induction args generalizing values with
  | nil =>
      cases values with
      | nil => rfl
      | cons value values => cases all
  | cons r args ih =>
      cases values with
      | nil => cases all
      | cons value values =>
          obtain ⟨first, others⟩ := List.cons.inj all
          simp only [integers, first, ih others]

/-- The first argument that is no integer is refused. -/
theorem integers_of_first {m : Machine} {function : String} {before after : List Ref} {r : Ref}
    (integral : ∀ other ∈ before, m.heap.integer? other ≠ none) (bad : m.heap.integer? r = none) :
    integers m function (before ++ r :: after) = .error (m.typeError function "integer" r) := by
  induction before with
  | nil => simp only [List.nil_append, integers, bad]
  | cons other before ih =>
      obtain ⟨first, others⟩ := List.forall_mem_cons.1 integral
      obtain ⟨value, held⟩ := Option.ne_none_iff_exists'.1 first
      simp only [List.cons_append, integers, held, ih others]

/-- Arguments are integers one and all, or one of them is the first that is none. -/
theorem integers_split (m : Machine) (args : List Ref) :
    (∃ values : List Int64, args.map m.heap.integer? = values.map some) ∨
      ∃ before bad after, args = before ++ bad :: after ∧
        (∀ r ∈ before, m.heap.integer? r ≠ none) ∧ m.heap.integer? bad = none := by
  induction args with
  | nil => exact .inl ⟨[], rfl⟩
  | cons r args ih =>
      cases held : m.heap.integer? r with
      | none => exact .inr ⟨[], r, args, rfl, nofun, held⟩
      | some value =>
          rcases ih with ⟨values, all⟩ | ⟨before, bad, after, rfl, integral, refused⟩
          · exact .inl ⟨value :: values, by simp [held, all]⟩
          · refine .inr ⟨r :: before, bad, after, rfl, ?_, refused⟩
            exact List.forall_mem_cons.2 ⟨by simp [held], integral⟩

end Builtin

/-! ## Arguments that have a text -/

namespace Machine

/-- The value can be written: it lies on no cycle and above none, and each module that it names
    is registered. -/
structure Legible (m : Machine) (r : Ref) : Prop where
  acyclic : m.heap.Acyclic r
  registered : ∀ s id, Relation.ReflTransGen m.heap.HasHalf r s →
    m.heap.scalar? s = some (.moduleCell id) → id < m.registry.size

/-- The printer comes to an end with this text, and it finds the modules on its way. -/
structure HasText (m : Machine) (r : Ref) (text : String) : Prop where
  written : ∃ bound, Printer.write m.heap m.registry bound "" r = some text
  found : ∀ s id, Relation.ReflTransGen m.heap.HasHalf r s →
    m.heap.scalar? s = some (.moduleCell id) → ∃ entry, m.registry.modules[id]? = some entry

theorem Legible.hasText {m : Machine} {r : Ref} (legible : m.Legible r) :
    m.HasText r (m.display r) where
  written := by
    obtain ⟨text, steady⟩ := (Printer.write_of_within legible.acyclic.bounded "").1
    refine ⟨m.heap.cells.size + 2, ?_⟩
    rw [display, Printer.display, steady _ (Nat.le_refl _), Option.getD_some]
  found := fun s id below held =>
    ⟨_, Array.getElem?_eq_getElem (legible.registered s id below held)⟩

/-- What lies above a cycle has no text: the printer never comes to an end. -/
theorem write_of_not_acyclic {m : Machine} {r : Ref} (cyclic : ¬ m.heap.Acyclic r)
    (bound : Nat) (out : String) : Printer.write m.heap m.registry bound out r = none := by
  cases done : Printer.write m.heap m.registry bound out r with
  | none => rfl
  | some text => exact absurd (Heap.acyclic_of_bounded (Printer.within_of_write.1 done)) cyclic

/-- The first argument that is no integer, if there is one, can be written. -/
def NamesLegibly (m : Machine) (args : List Ref) : Prop :=
  ∀ bad, args.find? (fun r => (m.heap.integer? r).isNone) = some bad → m.Legible bad

theorem NamesLegibly.legible {m : Machine} {before after : List Ref} {bad : Ref}
    (names : m.NamesLegibly (before ++ bad :: after))
    (integral : ∀ r ∈ before, m.heap.integer? r ≠ none) (refused : m.heap.integer? bad = none) :
    m.Legible bad := by
  refine names bad (List.find?_eq_some_iff_append.2 ⟨?_, before, after, rfl, fun r member => ?_⟩)
  · rw [refused]
    rfl
  · simpa [Option.isSome_iff_ne_none] using integral r member

end Machine

namespace Builtin

/-- What an arithmetic native makes of its arguments: it names the first that is no integer by
    its text, it allocates one cell with the mathematical value if all partial results are in
    range, and it reports an overflow otherwise. No value wraps, and a failure changes nothing. -/
structure ExactOrRefused (b : Builtin) (m : Machine) (args : List Ref)
    (result : EStateM.Result (Stop RuntimeError) Machine Ref) : Prop where
  names : ∀ before bad after, args = before ++ bad :: after →
    (∀ r ∈ before, m.heap.integer? r ≠ none) → m.heap.integer? bad = none →
      ∃ text, m.HasText bad text ∧
        result = .error (.failed (.typeError b.name "integer" text)) m
  computes : ∀ values : List Int64, args.map m.heap.integer? = values.map some →
    (∀ n ∈ b.partialResults (values.map Int64.toInt), InRange n) →
      (∃ cell heap value, result = .ok cell (m.withHeap heap) ∧
        m.heap.Allocated (.scalar (.integer value)) cell heap ∧
        value.toInt = b.exactValue (values.map Int64.toInt)) ∨
      (result = .error (.failed (.heap (.exhausted m.heap.arenas))) m ∧
        m.heap.freeHead = .null ∧ m.heap.mayGrow = false)
  overflows : ∀ values : List Int64, args.map m.heap.integer? = values.map some →
    (∃ n ∈ b.partialResults (values.map Int64.toInt), ¬ InRange n) →
      result = .error (.failed (.integerOverflow b.name)) m
  unwrapped : ∀ cell m', result = .ok cell m' →
    ∃ values : List Int64, args.map m.heap.integer? = values.map some ∧
      ∃ value, m'.heap.integer? cell = some value ∧
        value.toInt = b.exactValue (values.map Int64.toInt)
  unchanged : ∀ e m', result = .error e m' → m' = m

section

variable {b : Builtin} {m : Machine} {args : List Ref}

theorem Computes.perform_of_first (computes : b.Computes) {before after : List Ref} {bad : Ref}
    (integral : ∀ r ∈ before, m.heap.integer? r ≠ none) (refused : m.heap.integer? bad = none) :
    (b.plan m (before ++ bad :: after)).perform m =
      .error (.failed (.typeError b.name "integer" (m.display bad))) m := by
  rw [computes.plan_eq, arithmeticPlan, integers_of_first integral refused]
  rfl

/-- Integers have their value computed and put into one cell, or the computation is refused. -/
theorem Computes.perform_of_all (computes : b.Computes) (wf : m.heap.WellFormed)
    (accepted : b.arity.accepts args.length) {values : List Int64}
    (all : args.map m.heap.integer? = values.map some) :
    ((∀ n ∈ b.partialResults (values.map Int64.toInt), InRange n) ∧
      ((∃ cell heap value, (b.plan m args).perform m = .ok cell (m.withHeap heap) ∧
        m.heap.Allocated (.scalar (.integer value)) cell heap ∧
        value.toInt = b.exactValue (values.map Int64.toInt)) ∨
      ((b.plan m args).perform m = .error (.failed (.heap (.exhausted m.heap.arenas))) m ∧
        m.heap.freeHead = .null ∧ m.heap.mayGrow = false))) ∨
    ((∃ n ∈ b.partialResults (values.map Int64.toInt), ¬ InRange n) ∧
      (b.plan m args).perform m = .error (.failed (.integerOverflow b.name)) m) := by
  have length : args.length = values.length := by simpa using congrArg List.length all
  rw [length] at accepted
  rw [computes.plan_eq, arithmeticPlan, integers_of_all all]
  dsimp only
  rcases computes.compute_cases accepted with ⟨inside, value, computed, exact_⟩ | ⟨outside, refused⟩
  · left
    refine ⟨inside, ?_⟩
    simp only [computed, Plan.perform, Plan.onHeap, orHeapError, Heap.integer, Heap.allocScalar]
    rcases @Heap.alloc_cases m.heap (.scalar (.integer value)) wf rfl with
      ⟨cell, heap, made, allocated⟩ | ⟨full, none, limit⟩
    · left
      rw [made]
      exact ⟨cell, heap, value, rfl, allocated, exact_⟩
    · right
      rw [full]
      exact ⟨rfl, none, limit⟩
  · right
    rw [refused]
    exact ⟨outside, rfl⟩

/-- There is a value for integers only, and a failure leaves the machine as it was. -/
theorem Computes.perform_cases (computes : b.Computes) (wf : m.heap.WellFormed)
    (accepted : b.arity.accepts args.length) :
    (∃ values : List Int64, args.map m.heap.integer? = values.map some ∧
      ∃ cell heap value, (b.plan m args).perform m = .ok cell (m.withHeap heap) ∧
        m.heap.Allocated (.scalar (.integer value)) cell heap ∧
        value.toInt = b.exactValue (values.map Int64.toInt)) ∨
    ∃ e, (b.plan m args).perform m = .error e m := by
  rcases integers_split m args with ⟨values, all⟩ | ⟨before, bad, after, rfl, integral, refused⟩
  · rcases computes.perform_of_all wf accepted all with ⟨_, made | ⟨full, _⟩⟩ | ⟨_, overflow⟩
    · exact .inl ⟨values, all, made⟩
    · exact .inr ⟨_, full⟩
    · exact .inr ⟨_, overflow⟩
  · exact .inr ⟨_, computes.perform_of_first integral refused⟩

theorem Computes.exactOrRefused (computes : b.Computes) (wf : m.heap.WellFormed)
    (accepted : b.arity.accepts args.length) (names : m.NamesLegibly args) :
    b.ExactOrRefused m args ((b.plan m args).perform m) where
  names := by
    rintro before bad after rfl integral refused
    exact ⟨m.display bad, (names.legible integral refused).hasText,
      computes.perform_of_first integral refused⟩
  computes := by
    intro values all inside
    rcases computes.perform_of_all wf accepted all with ⟨_, outcome⟩ | ⟨⟨n, member, outside⟩, _⟩
    · exact outcome
    · exact absurd (inside n member) outside
  overflows := by
    rintro values all ⟨n, member, outside⟩
    rcases computes.perform_of_all wf accepted all with ⟨inside, _⟩ | ⟨_, outcome⟩
    · exact absurd (inside n member) outside
    · exact outcome
  unwrapped := by
    intro cell m' done
    rcases computes.perform_cases wf accepted with ⟨values, all, made⟩ | ⟨e, failed⟩
    · obtain ⟨cell', heap, value, performed, allocated, exact_⟩ := made
      rw [performed] at done
      cases done
      have held : heap.scalar? cell = some (.integer value) :=
        Heap.scalar?_eq_some.2 allocated.found
      refine ⟨values, all, value, ?_, exact_⟩
      simp only [Machine.withHeap_heap, Heap.integer?, held]
    · rw [failed] at done
      cases done
  unchanged := by
    intro e m' failed
    rcases computes.perform_cases wf accepted with ⟨values, all, made⟩ | ⟨e', refused⟩
    · obtain ⟨cell, heap, value, performed, _⟩ := made
      rw [performed] at failed
      cases failed
    · rw [refused] at failed
      cases failed
      rfl

end

end Builtin

/-! ## Calls from outside -/

namespace Machine

section

variable {m m' : Machine} {enterCall : Action RuntimeError Unit}

/-- A call from outside that fails at once leaves the frames as they were. -/
theorem callOut_refused (host : Host) (fuel : Nat) {e : Stop RuntimeError}
    (room : m.depth < m.config.maxFrames)
    (refused : enterCall (m.withFrame (.waiting m.top.home)) = .error e m')
    (above : m'.Above (m.callers.push m.top)) :
    callOut host fuel enterCall m = .error e { m' with top := m.top, callers := m.callers } := by
  have failed : driven host fuel enterCall m = .error e m' := by
    simp only [driven, bind_apply, enter_apply]
    rw [if_neg (Nat.not_le.2 room)]
    simp only [refused]
  rw [callOut_apply, failed]
  simp only [above.truncate_eq]

/-- A call from outside that returns at once has the value that it has pushed. -/
theorem callOut_returned (host : Host) (fuel : Nat) {value : Ref}
    (room : m.depth < m.config.maxFrames)
    (returned : enterCall (m.withFrame (.waiting m.top.home)) = .ok () m')
    (top : m'.top = (Frame.waiting m.top.home).push value)
    (callers : m'.callers = m.callers.push m.top) :
    callOut host (fuel + 1) enterCall m =
      .ok value { m' with top := m.top, callers := m.callers } := by
  have level : m'.depth = m.depth + 1 := by
    simp only [depth, callers, Array.size_push]
  have ran : run host (m.depth + 1) (fuel + 1) m' = .ok () m' := by
    unfold run
    rw [if_neg (by omega)]
  have driven_eq : driven host (fuel + 1) enterCall m = .ok () m' := by
    simp only [driven, bind_apply, enter_apply]
    rw [if_neg (Nat.not_le.2 room)]
    simp only [returned, ran]
  have above : m'.Above (m.callers.push m.top) := ⟨#[], callers.trans Array.append_empty.symm⟩
  have found : m'.frameAt? m.depth = some ⟨[value], #[], .waiting, m.top.home⟩ := by
    unfold frameAt?
    rw [if_pos (by simp only [callers, depth, Array.size_push]), top]
    rfl
  rw [callOut_apply, driven_eq]
  simp only [found, above.truncate_eq]

end

theorem invoke_builtin (host : Host) {m : Machine} {callee : Ref} {b : Builtin} (args : List Ref)
    (found : m.heap.scalar? callee = some (.native (.builtin b))) :
    invoke host callee args m = (m.nativeEffect m.depth m.top.home b args).perform m := by
  simp only [invoke, bind_apply, get_apply, found]
  exact callNative_apply host b args m

/-- A call of a library callable needs two frames. In these it carries out the plan of the
    callable, and it leaves the frames as they were. -/
theorem applyWith_builtin (host : Host) (fuel : Nat) {m : Machine} {callee : Ref} {b : Builtin}
    {args : List Ref} (found : m.heap.scalar? callee = some (.native (.builtin b)))
    (accepted : b.arity.accepts args.length) :
    applyWith host (fuel + 1) callee args m =
      if m.config.maxFrames < m.depth + 2 then
        .error (.failed (.stackOverflow m.config.maxFrames)) m
      else (b.plan m args).perform m := by
  by_cases full : m.config.maxFrames ≤ m.depth
  · rw [if_pos (by omega), applyWith, callOut_apply]
    simp only [driven, bind_apply, enter_apply, if_pos full, truncate_depth]
  · have room : m.depth < m.config.maxFrames := Nat.lt_of_not_le full
    have level : (m.withFrame (.waiting m.top.home)).depth = m.depth + 1 := by
      simp [withFrame, depth]
    have plan_eq : b.plan (m.withFrame (.waiting m.top.home)) args = b.plan m args := by
      rw [← Builtin.plan_bare, ← Builtin.plan_bare b m]
      rfl
    have called : invoke host callee args (m.withFrame (.waiting m.top.home)) =
        (m.nativeEffect (m.depth + 1) m.top.home b args).perform
          (m.withFrame (.waiting m.top.home)) := by
      rw [@invoke_builtin host (m.withFrame (.waiting m.top.home)) callee b args found, level]
      unfold nativeEffect
      rw [plan_eq]
      rfl
    by_cases next : m.config.maxFrames ≤ m.depth + 1
    · rw [if_pos (by omega)]
      rw [nativeEffect, if_pos accepted, if_pos next] at called
      have refused := callOut_refused host (fuel + 1) room called ⟨#[], Array.append_empty.symm⟩
      exact refused
    · rw [if_neg (by omega), Builtin.Plan.perform]
      rw [nativeEffect, if_pos accepted, if_neg next] at called
      cases performed : (b.plan m args).onHeap m.heap with
      | error e heap =>
          rw [performed] at called
          have refused := callOut_refused host (fuel + 1) room called ⟨#[.waiting m.top.home], rfl⟩
          exact refused
      | ok value heap =>
          rw [performed] at called
          have returned := callOut_returned host fuel room called rfl rfl
          exact returned

/-- Arithmetic is exact or refused. In every machine whose heap is in order, and for every list
    of arguments that the arity accepts and of which the first that is no integer can be written,
    `+`, `-` and `*` do what `Builtin.ExactOrRefused` says, be it in their own frame or in a call
    from outside for which two frames can be pushed. A call from outside that finds no room for
    two frames is refused and changes nothing. -/
theorem arithmetic_exact_or_refused (host : Host) (fuel : Nat) {m : Machine} {b : Builtin}
    {callee : Ref} {args : List Ref} (wf : m.heap.WellFormed) (computes : b.Computes)
    (found : m.heap.scalar? callee = some (.native (.builtin b)))
    (accepted : b.arity.accepts args.length) (names : m.NamesLegibly args) :
    b.ExactOrRefused m args (b.run args m) ∧
    (m.depth + 2 ≤ m.config.maxFrames →
      b.ExactOrRefused m args (applyWith host (fuel + 1) callee args m)) ∧
    (m.config.maxFrames < m.depth + 2 →
      applyWith host (fuel + 1) callee args m =
        .error (.failed (.stackOverflow m.config.maxFrames)) m) := by
  have performed := computes.exactOrRefused wf accepted names
  refine ⟨?_, fun room => ?_, fun full => ?_⟩
  · rw [Builtin.run_apply]
    exact performed
  · rw [applyWith_builtin host fuel found accepted, if_neg (by omega)]
    exact performed
  · rw [applyWith_builtin host fuel found accepted, if_pos full]

/-- A machine with two cells, the native `+` and the largest integer, and a limit on frames. -/
def adder (maxFrames : Nat) : Machine :=
  { blank { maxFrames := maxFrames } none with
    store := .ofHeap
      { Heap.ofArenaSize 1 with
        cells := #[⟨.scalar (.native (.builtin .add)), false⟩,
          ⟨.scalar (.integer Int64.maxValue), false⟩] } }

theorem adder_wellFormed (maxFrames : Nat) : (adder maxFrames).heap.WellFormed where
  arenas := by simp [adder, Store.ofHeap, Heap.ofArenaSize]
  free := by
    refine ⟨[], .nil, List.nodup_nil, ?_, rfl⟩
    intro slot
    rcases slot with _ | _ | slot
    · simp [Heap.FreeAt, adder, Store.ofHeap, Cell.isFree]
    · simp [Heap.FreeAt, adder, Store.ofHeap, Cell.isFree]
    · simp [Heap.FreeAt, adder, Store.ofHeap]

/-- The empty list can be written in every machine. -/
theorem legible_null (m : Machine) : m.Legible .null where
  acyclic := (Heap.whole_null m.heap).acyclic
  registered := by
    intro s id below held
    rcases Relation.ReflTransGen.cases_head below with rfl | ⟨_, ⟨_, _, halves, _⟩, _⟩
    · cases held
    · cases halves

/-- The largest integer added to itself: the overflow is reported, and the native alone reports
    the argument that is no integer though the sum has left the range before. -/
theorem arithmetic_exact_or_refused_sample :
    (adder 3).heap.WellFormed ∧ Builtin.Computes .add ∧
    (adder 3).heap.scalar? ⟨1⟩ = some (.native (.builtin .add)) ∧
    Builtin.add.arity.accepts 2 ∧ (adder 3).NamesLegibly [⟨2⟩, ⟨2⟩] ∧
    (adder 3).NamesLegibly [⟨2⟩, ⟨2⟩, .null] ∧ (adder 3).depth + 2 ≤ (adder 3).config.maxFrames ∧
    applyWith (serve 1) 1 ⟨1⟩ [⟨2⟩, ⟨2⟩] (adder 3) =
      .error (.failed (.integerOverflow "+")) (adder 3) ∧
    (∃ text, (adder 3).HasText .null text ∧
      Builtin.add.run [⟨2⟩, ⟨2⟩, .null] (adder 3) =
        .error (.failed (.typeError "+" "integer" text)) (adder 3)) ∧
    (adder 2).NamesLegibly [⟨2⟩] ∧ (adder 2).config.maxFrames < (adder 2).depth + 2 ∧
    applyWith (serve 1) 1 ⟨1⟩ [⟨2⟩] (adder 2) = .error (.failed (.stackOverflow 2)) (adder 2) := by
  have outside : ∃ n ∈ Builtin.add.partialResults
      ([Int64.maxValue, Int64.maxValue].map Int64.toInt), ¬ InRange n := by decide
  have integers : (adder 3).NamesLegibly [⟨2⟩, ⟨2⟩] := fun bad first => by cases first
  have single : (adder 2).NamesLegibly [⟨2⟩] := fun bad first => by cases first
  have null : (adder 3).NamesLegibly [⟨2⟩, ⟨2⟩, .null] := fun bad first => by
    cases first
    exact legible_null _
  obtain ⟨_, called, _⟩ := @arithmetic_exact_or_refused (serve 1) 0 (adder 3) .add ⟨1⟩
    [⟨2⟩, ⟨2⟩] (adder_wellFormed 3) .add rfl rfl integers
  obtain ⟨alone, _, _⟩ := @arithmetic_exact_or_refused (serve 1) 0 (adder 3) .add ⟨1⟩
    [⟨2⟩, ⟨2⟩, .null] (adder_wellFormed 3) .add rfl rfl null
  obtain ⟨_, _, full⟩ := @arithmetic_exact_or_refused (serve 1) 0 (adder 2) .add ⟨1⟩
    [⟨2⟩] (adder_wellFormed 2) .add rfl rfl single
  refine ⟨adder_wellFormed 3, .add, rfl, rfl, integers, null, by decide, ?_, ?_, single, by decide,
    full (by decide)⟩
  · exact (called (by decide)).overflows [Int64.maxValue, Int64.maxValue] rfl outside
  · exact alone.names [⟨2⟩, ⟨2⟩] .null [] rfl (by decide) rfl

/-- A machine with two cells, the native `+` and a list that holds itself. -/
def knotted : Machine :=
  { blank {} none with
    store := .ofHeap
      { Heap.ofArenaSize 1 with
        cells := #[⟨.scalar (.native (.builtin .add)), false⟩, ⟨.pair ⟨2⟩ ⟨2⟩, false⟩] } }

/-- Where a single frame can be pushed, a call from outside does not come to name the argument
    that is no integer; and an argument that holds itself has no text by which it could be
    named. -/
theorem arithmetic_refusal_needs_two_frames :
    (adder 2).heap.WellFormed ∧
    (adder 2).heap.scalar? ⟨1⟩ = some (.native (.builtin .add)) ∧
    Builtin.add.arity.accepts 1 ∧ (adder 2).heap.integer? .null = none ∧
    apply 1 ⟨1⟩ [.null] (adder 2) = .error (.failed (.stackOverflow 2)) (adder 2) ∧
    ¬ Builtin.add.ExactOrRefused (adder 2) [.null] (apply 1 ⟨1⟩ [.null] (adder 2)) ∧
    knotted.heap.integer? ⟨2⟩ = none ∧ (∀ text, ¬ knotted.HasText ⟨2⟩ text) ∧
    ∀ result, ¬ Builtin.add.ExactOrRefused knotted [⟨2⟩] result := by
  have refused : apply 1 ⟨1⟩ [.null] (adder 2) = .error (.failed (.stackOverflow 2)) (adder 2) := rfl
  have silent : ∀ text, ¬ knotted.HasText ⟨2⟩ text := by
    rintro text ⟨⟨bound, written⟩, _⟩
    have round : knotted.heap.HasHalf ⟨2⟩ ⟨2⟩ := ⟨⟨2⟩, ⟨2⟩, rfl, .inl rfl⟩
    rw [write_of_not_acyclic fun acyclic => acyclic ⟨2⟩ .refl (.single round)] at written
    cases written
  refine ⟨adder_wellFormed 2, rfl, rfl, rfl, refused, fun outcome => ?_, rfl, silent,
    fun result outcome => ?_⟩
  · obtain ⟨text, _, named⟩ := outcome.names [] .null [] rfl nofun rfl
    rw [refused] at named
    cases named
  · obtain ⟨text, found, _⟩ := outcome.names [] ⟨2⟩ [] rfl nofun rfl
    exact silent text found

end Machine

end LispMachine
