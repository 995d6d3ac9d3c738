import LispMachine.Printer
import LispMachine.Proofs.Heap.FreeList
import Mathlib.Data.Finset.Card
import Mathlib.Logic.Relation

/-!
# Heights of lists and values

Walks through a list and through a value stop at a bound that is read off the size of
the heap. In a structure without a cycle a walk never comes to that bound: a way that
passes no cell twice is no longer than the heap is large. So all bounds of at least that
size give the same answer.
-/

namespace LispMachine

/-! ## Ways without repetition -/

/-- No way along the edges takes more than this many steps. -/
def Bounded {α : Type} (edge : α → α → Prop) : Nat → α → Prop
  | 0, a => ∀ next, ¬ edge a next
  | n + 1, a => ∀ next, edge a next → Bounded edge n next

section

variable {α : Type} {edge : α → α → Prop} {a b : α} {n m : Nat}

theorem Bounded.succ (within : Bounded edge n a) : Bounded edge (n + 1) a := by
  induction n generalizing a with
  | zero => exact fun next step => absurd step (within next)
  | succ n ih => exact fun next step => ih (within next step)

theorem Bounded.mono (within : Bounded edge n a) (le : n ≤ m) : Bounded edge m a := by
  induction le with
  | refl => exact within
  | step _ ih => exact ih.succ

theorem Bounded.next (within : Bounded edge n a) (step : edge a b) : ∃ k < n, Bounded edge k b := by
  cases n with
  | zero => exact absurd step (within b)
  | succ n => exact ⟨n, Nat.lt_succ_self n, within b step⟩

theorem Bounded.descend (within : Bounded edge n a) (way : Relation.TransGen edge a b) :
    ∃ k < n, Bounded edge k b := by
  induction way with
  | single step => exact within.next step
  | tail _ step ih =>
      obtain ⟨k, less, within⟩ := ih
      obtain ⟨l, less', within'⟩ := within.next step
      exact ⟨l, less'.trans less, within'⟩

/-- Bounded ways lead to no cycle. -/
theorem Bounded.acyclic (within : Bounded edge n a) : ¬ Relation.TransGen edge a a := by
  intro way
  induction n using Nat.strong_induction_on with
  | _ n ih =>
      obtain ⟨k, less, within'⟩ := within.descend way
      exact ih k less within'

/-- Without a cycle, no way takes more steps than there are places from which it can go
    on. -/
theorem bounded_of_acyclic [DecidableEq α] {places : Finset α}
    (inside : ∀ s t, Relation.ReflTransGen edge a s → edge s t → s ∈ places)
    (acyclic : ∀ s, Relation.ReflTransGen edge a s → ¬ Relation.TransGen edge s s) :
    Bounded edge places.card a := by
  induction size : places.card generalizing a places with
  | zero =>
      intro next step
      have here := inside a next .refl step
      rw [Finset.card_eq_zero.1 size] at here
      cases here
  | succ n ih =>
      intro next step
      have here : a ∈ places := inside a next .refl step
      refine ih (fun s t way onward => ?_) (fun s way => acyclic s (.head step way))
        (show (places.erase a).card = n by rw [Finset.card_erase_of_mem here, size]; rfl)
      refine Finset.mem_erase.2 ⟨?_, inside s t (.head step way) onward⟩
      rintro rfl
      exact acyclic s .refl (.head' step way)

/-- A bounded way takes no more steps than there are places from which it can go on. -/
theorem Bounded.card [DecidableEq α] (within : Bounded edge n a) {places : Finset α}
    (inside : ∀ s t, Relation.ReflTransGen edge a s → edge s t → s ∈ places) :
    Bounded edge places.card a := by
  refine bounded_of_acyclic inside fun s way => ?_
  rcases Relation.reflTransGen_iff_eq_or_transGen.1 way with rfl | way
  · exact within.acyclic
  · obtain ⟨k, _, within'⟩ := within.descend way
    exact within'.acyclic

end

/-! ## Ways through the heap -/

namespace Heap

/-- The handle names a pair, and the list goes on there. -/
def GoesOn (h : Heap) (r next : Ref) : Prop := ∃ car, h.pair? r = some (car, next)

/-- The handle names a pair with this half. -/
def HasHalf (h : Heap) (r half : Ref) : Prop :=
  ∃ car cdr, h.pair? r = some (car, cdr) ∧ (half = car ∨ half = cdr)

theorem lt_size_of_pair? {h : Heap} {r : Ref} {halves : Ref × Ref}
    (found : h.pair? r = some halves) : ∃ slot < h.cells.size, Ref.ofSlot slot = r := by
  rcases r.null_or_ofSlot with rfl | ⟨slot, rfl⟩
  · cases found
  · refine ⟨slot, ?_, rfl⟩
    rw [← not_le]
    intro beyond
    simp [pair?, Array.getElem?_eq_none beyond] at found

/-- A bounded way through pairs is no longer than the heap is large. -/
theorem within_size {h : Heap} {edge : Ref → Ref → Prop} {n : Nat} {r : Ref}
    (pairs : ∀ s t, edge s t → ∃ halves, h.pair? s = some halves) (within : Bounded edge n r) :
    Bounded edge h.cells.size r := by
  have held : Bounded edge ((Finset.range h.cells.size).image Ref.ofSlot).card r := by
    refine within.card fun s t _ step => ?_
    obtain ⟨halves, found⟩ := pairs s t step
    obtain ⟨slot, small, rfl⟩ := lt_size_of_pair? found
    exact Finset.mem_image_of_mem _ (Finset.mem_range.2 small)
  refine held.mono (le_trans Finset.card_image_le ?_)
  rw [Finset.card_range]

theorem within_halves {h : Heap} {n : Nat} {r : Ref} (within : Bounded h.HasHalf n r) :
    Bounded h.HasHalf h.cells.size r :=
  within_size (fun _ _ ⟨car, cdr, found, _⟩ => ⟨(car, cdr), found⟩) within

theorem ne_null_of_pair? {h : Heap} {r : Ref} {halves : Ref × Ref}
    (found : h.pair? r = some halves) : r.isNull = false := by
  rw [← Bool.not_eq_true, Ref.isNull_iff]
  rintro rfl
  cases found

/-! ## Lists -/

section

variable {h : Heap} {bound : Nat} {r : Ref} {found : List Ref}

theorem walk_null : h.walk (bound + 1) .null found = some found.reverse := by
  rw [walk, Ref.isNull_null, if_pos rfl]

theorem walk_pair {car cdr : Ref} (halves : h.pair? r = some (car, cdr)) :
    h.walk (bound + 1) r found = h.walk bound cdr (car :: found) := by
  rw [walk, ne_null_of_pair? halves, halves]
  rfl

theorem walk_cases {items : List Ref} (done : h.walk bound r found = some items) :
    (r = .null ∧ items = found.reverse) ∨
      ∃ car cdr rest, h.pair? r = some (car, cdr) ∧ h.walk rest cdr (car :: found) = some items := by
  cases bound with
  | zero => cases done
  | succ bound =>
      rw [walk] at done
      split at done
      · next null =>
          cases done
          exact Or.inl ⟨(Ref.isNull_iff r).1 null, rfl⟩
      · split at done
        · next car cdr halves => exact Or.inr ⟨car, cdr, bound, halves, done⟩
        · cases done

/-- A walk that comes to an end passes each pair of the list once. -/
theorem within_of_walk {items : List Ref} (done : h.walk bound r found = some items) :
    Bounded h.GoesOn bound r := by
  induction bound generalizing r found with
  | zero => cases done
  | succ bound ih =>
      rintro next ⟨car, halves⟩
      rw [walk_pair halves] at done
      exact ih done

theorem walk_of_within {items : List Ref} {height bound' : Nat} (within : Bounded h.GoesOn height r)
    (done : h.walk bound r found = some items) (enough : height < bound') :
    h.walk bound' r found = some items := by
  induction height generalizing r found bound bound' with
  | zero =>
      obtain ⟨n, rfl⟩ : ∃ n, bound' = n + 1 := ⟨bound' - 1, by omega⟩
      rcases walk_cases done with ⟨rfl, rfl⟩ | ⟨car, cdr, _, halves, _⟩
      · exact walk_null
      · exact absurd ⟨car, halves⟩ (within cdr)
  | succ height ih =>
      obtain ⟨n, rfl⟩ : ∃ n, bound' = n + 1 := ⟨bound' - 1, by omega⟩
      rcases walk_cases done with ⟨rfl, rfl⟩ | ⟨car, cdr, _, halves, rest⟩
      · exact walk_null
      · rw [walk_pair halves]
        exact ih (within cdr ⟨car, halves⟩) rest (by omega)

/-- Every bound of at least that of `items?` finds the same items. -/
theorem items?_eq_walk (enough : h.cells.size < bound) (r : Ref) :
    h.items? r = h.walk bound r [] := by
  have edges : ∀ s t, h.GoesOn s t → ∃ halves, h.pair? s = some halves :=
    fun _ t ⟨car, halves⟩ => ⟨(car, t), halves⟩
  cases done : h.walk bound r [] with
  | some items =>
      exact walk_of_within (within_size edges (within_of_walk done)) done (Nat.lt_succ_self _)
  | none =>
      cases shorter : h.items? r with
      | none => rfl
      | some items =>
          rw [walk_of_within (within_size edges (within_of_walk shorter)) shorter enough] at done
          cases done

end

/-! ## Lists that have no end -/

section

variable {h : Heap} {r : Ref} {n : Nat}

theorem passes_succ_eq_false : h.passes (n + 1) r = false ↔ Bounded h.GoesOn n r := by
  induction n generalizing r with
  | zero =>
      rw [passes]
      cases found : h.pair? r with
      | none => simp [Bounded, GoesOn, found]
      | some halves =>
          refine ⟨nofun, fun within => absurd ⟨halves.1, found⟩ (within halves.2)⟩
  | succ n ih =>
      rw [passes]
      cases found : h.pair? r with
      | none => simp [Bounded, GoesOn, found]
      | some halves =>
          dsimp only
          rw [ih]
          refine ⟨fun within next ⟨car, there⟩ => ?_, fun within => within _ ⟨halves.1, found⟩⟩
          cases found.symm.trans there
          exact within

/-- A list has an end if some number of pairs is more than it passes. -/
theorem isEndless_eq_false : h.isEndless r = false ↔ ∃ n, h.passes n r = false := by
  refine ⟨fun ends => ⟨_, ends⟩, fun ⟨n, short⟩ => ?_⟩
  cases n with
  | zero => cases short
  | succ n =>
      rw [isEndless, passes_succ_eq_false]
      exact within_size (fun _ t ⟨car, found⟩ => ⟨(car, t), found⟩) (passes_succ_eq_false.1 short)

/-- A list that has been read has an end. -/
theorem isEndless_of_items? {items : List Ref} (found : h.items? r = some items) :
    h.isEndless r = false :=
  isEndless_eq_false.2 ⟨_, passes_succ_eq_false.2 (within_of_walk found)⟩

/-- A list with bounded ways has an end. -/
theorem isEndless_of_within (within : Bounded h.HasHalf n r) : h.isEndless r = false := by
  refine isEndless_eq_false.2 ⟨n + 1, passes_succ_eq_false.2 ?_⟩
  induction n generalizing r with
  | zero => exact fun next ⟨car, found⟩ => within next ⟨car, next, found, .inr rfl⟩
  | succ n ih => exact fun next ⟨car, found⟩ => ih (within next ⟨car, next, found, .inr rfl⟩)

end

end Heap

/-! ## Texts -/

namespace Printer

open Heap

section

variable {h : Heap} {modules : Registry} {bound : Nat} {r : Ref} {out : String}

theorem write_null : write h modules (bound + 1) out .null = some (out ++ "()") := by
  rw [write, Ref.isNull_null, if_pos rfl]

theorem writeRest_null : writeRest h modules (bound + 1) out .null = some (out.push ')') := by
  rw [writeRest, show h.pair? .null = none from rfl, Ref.isNull_null]
  rfl

theorem write_pair {car cdr : Ref} (halves : h.pair? r = some (car, cdr)) :
    write h modules (bound + 1) out r =
      (write h modules bound (out.push '(') car).bind fun out => writeRest h modules bound out cdr := by
  rw [write, ne_null_of_pair? halves, pair?_eq_some.1 halves]
  dsimp only
  cases write h modules bound (out.push '(') car <;> rfl

theorem writeRest_pair {car cdr : Ref} (halves : h.pair? r = some (car, cdr)) :
    writeRest h modules (bound + 1) out r =
      (write h modules bound (out.push ' ') car).bind fun out => writeRest h modules bound out cdr := by
  rw [writeRest, halves]
  dsimp only
  cases write h modules bound (out.push ' ') car <;> rfl

/-- The text of what is not a pair. -/
def leaf (h : Heap) (modules : Registry) (r : Ref) : String :=
  if r.isNull then "()"
  else
    match h.cell? r with
    | none => "#<invalid>"
    | some (.scalar s) => scalar h modules s
    | some _ => "#<free>"

theorem write_leaf (plain : h.pair? r = none) :
    write h modules (bound + 1) out r = some (out ++ leaf h modules r) := by
  unfold Heap.pair? at plain
  rw [write, leaf]
  split
  · rfl
  · cases held : h.cell? r with
    | none => rfl
    | some cell =>
        rw [held] at plain
        cases cell with
        | pair car cdr => cases plain
        | scalar s => rfl
        | free next => rfl

theorem writeRest_leaf (other : r ≠ .null) (plain : h.pair? r = none) :
    writeRest h modules (bound + 1) out r =
      (write h modules bound (out ++ " . ") r).map fun out => out.push ')' := by
  rw [writeRest, plain]
  dsimp only
  rw [if_neg (mt (Ref.isNull_iff r).1 other)]
  cases write h modules bound (out ++ " . ") r <;> rfl

end

section

variable {h : Heap} {modules : Registry}

/-- Writing that comes to an end passes every pair on the way. -/
theorem within_of_write {bound : Nat} {r : Ref} {out text : String} :
    (write h modules bound out r = some text → Bounded h.HasHalf bound r) ∧
      (writeRest h modules bound out r = some text → Bounded h.HasHalf bound r) := by
  induction bound generalizing r out text with
  | zero =>
      constructor
      · intro done
        simp [write] at done
      · intro done
        simp [writeRest] at done
  | succ bound ih =>
      constructor
      · rintro done half ⟨car, cdr, halves, which⟩
        rw [write_pair halves] at done
        obtain ⟨begun, item, rest⟩ := Option.bind_eq_some_iff.1 done
        rcases which with rfl | rfl
        · exact ih.1 item
        · exact ih.2 rest
      · rintro done half ⟨car, cdr, halves, which⟩
        rw [writeRest_pair halves] at done
        obtain ⟨begun, item, rest⟩ := Option.bind_eq_some_iff.1 done
        rcases which with rfl | rfl
        · exact ih.1 item
        · exact ih.2 rest

theorem write_plain {r : Ref} (plain : h.pair? r = none) (out : String) :
    (∃ text, ∀ bound, 2 ≤ bound → write h modules bound out r = some text) ∧
      ∃ text, ∀ bound, 2 ≤ bound → writeRest h modules bound out r = some text := by
  constructor
  · refine ⟨out ++ leaf h modules r, fun bound enough => ?_⟩
    obtain ⟨n, rfl⟩ : ∃ n, bound = n + 1 := ⟨bound - 1, by omega⟩
    exact write_leaf plain
  · by_cases null : r = .null
    · subst null
      refine ⟨out.push ')', fun bound enough => ?_⟩
      obtain ⟨n, rfl⟩ : ∃ n, bound = n + 1 := ⟨bound - 1, by omega⟩
      exact writeRest_null
    · refine ⟨(out ++ " . " ++ leaf h modules r).push ')', fun bound enough => ?_⟩
      obtain ⟨n, rfl⟩ : ∃ n, bound = n + 2 := ⟨bound - 2, by omega⟩
      rw [writeRest_leaf null plain, write_leaf plain, Option.map_some]

/-- The text of a value does not depend on the bound once it exceeds the height of the
    value. The dotted tail of a list takes two steps without passing a pair. -/
theorem write_of_within {height : Nat} {r : Ref} (within : Bounded h.HasHalf height r)
    (out : String) :
    (∃ text, ∀ bound, height + 2 ≤ bound → write h modules bound out r = some text) ∧
      ∃ text, ∀ bound, height + 2 ≤ bound → writeRest h modules bound out r = some text := by
  induction height generalizing r out with
  | zero =>
      cases halves : h.pair? r with
      | none => exact write_plain halves out
      | some pair => exact absurd ⟨pair.1, pair.2, halves, Or.inl rfl⟩ (within pair.1)
  | succ height ih =>
      cases halves : h.pair? r with
      | none =>
          obtain ⟨⟨text, same⟩, text', same'⟩ := @write_plain h modules r halves out
          exact ⟨⟨text, fun bound enough => same bound (by omega)⟩,
            text', fun bound enough => same' bound (by omega)⟩
      | some pair =>
          rcases pair with ⟨car, cdr⟩
          have low := within car ⟨car, cdr, halves, Or.inl rfl⟩
          have low' := within cdr ⟨car, cdr, halves, Or.inr rfl⟩
          constructor
          · obtain ⟨begun, item⟩ := (ih low (out.push '(')).1
            obtain ⟨text, rest⟩ := (ih low' begun).2
            refine ⟨text, fun bound enough => ?_⟩
            obtain ⟨n, rfl⟩ : ∃ n, bound = n + 1 := ⟨bound - 1, by omega⟩
            rw [write_pair halves, item n (by omega), Option.bind_some, rest n (by omega)]
          · obtain ⟨begun, item⟩ := (ih low (out.push ' ')).1
            obtain ⟨text, rest⟩ := (ih low' begun).2
            refine ⟨text, fun bound enough => ?_⟩
            obtain ⟨n, rfl⟩ : ∃ n, bound = n + 1 := ⟨bound - 1, by omega⟩
            rw [writeRest_pair halves, item n (by omega), Option.bind_some, rest n (by omega)]

/-- Every bound of at least that of `display` gives the same text, or none. -/
theorem write_eq {bound : Nat} (enough : h.cells.size + 2 ≤ bound) (out : String) (r : Ref) :
    write h modules bound out r = write h modules (h.cells.size + 2) out r := by
  have same : ∀ {n text}, write h modules n out r = some text →
      write h modules bound out r = write h modules (h.cells.size + 2) out r := by
    intro n text done
    obtain ⟨text, steady⟩ := (@write_of_within h modules _ r (within_halves (within_of_write.1 done)) out).1
    rw [steady bound enough, steady _ (Nat.le_refl _)]
  cases longer : write h modules bound out r with
  | some text => rw [← same longer, longer]
  | none =>
      cases shorter : write h modules (h.cells.size + 2) out r with
      | none => rfl
      | some text => rw [← shorter, ← same shorter, longer]

end

end Printer

end LispMachine
