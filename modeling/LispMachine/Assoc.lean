/-!
# Association lists

Finite maps as lists of key and value in order of first insertion. A key occurs
at most once in a list built by `insert`.
-/

namespace LispMachine

namespace Assoc

variable {κ ν : Type} [DecidableEq κ]

/-- The value of a key. -/
def lookup (key : κ) : List (κ × ν) → Option ν
  | [] => none
  | (other, value) :: rest => if other = key then some value else lookup key rest

/-- Sets the value of a key; a new key joins at the end. -/
def insert (key : κ) (value : ν) : List (κ × ν) → List (κ × ν)
  | [] => [(key, value)]
  | (other, old) :: rest =>
      if other = key then (other, value) :: rest else (other, old) :: insert key value rest

@[simp] theorem lookup_nil (key : κ) : lookup key ([] : List (κ × ν)) = none := rfl

theorem lookup_insert (key other : κ) (value : ν) (entries : List (κ × ν)) :
    lookup other (insert key value entries) =
      if key = other then some value else lookup other entries := by
  induction entries with
  | nil => simp [insert, lookup]
  | cons head rest ih =>
      rcases head with ⟨name, old⟩
      by_cases same : name = key
      · subst same
        by_cases hit : name = other <;> simp [insert, lookup, hit]
      · by_cases hit : name = other
        · subst hit
          simp [insert, lookup, same, Ne.symm same]
        · simp [insert, lookup, same, hit, ih]

theorem mem_of_lookup {key : κ} {value : ν} {entries : List (κ × ν)}
    (found : lookup key entries = some value) : (key, value) ∈ entries := by
  induction entries with
  | nil => cases found
  | cons entry rest ih =>
      rcases entry with ⟨other, held⟩
      unfold lookup at found
      split at found
      · next same =>
          cases found
          rw [same]
          exact List.mem_cons_self
      · exact List.mem_cons_of_mem _ (ih found)

theorem mem_insert {key : κ} {value : ν} {entries : List (κ × ν)} {p : κ × ν}
    (member : p ∈ insert key value entries) : p = (key, value) ∨ p ∈ entries := by
  induction entries with
  | nil => exact Or.inl (List.mem_singleton.1 member)
  | cons entry rest ih =>
      rcases entry with ⟨other, old⟩
      unfold insert at member
      split at member
      · next hit =>
          rcases List.mem_cons.1 member with rfl | inside
          · exact Or.inl (by rw [hit])
          · exact Or.inr (List.mem_cons_of_mem _ inside)
      · rcases List.mem_cons.1 member with rfl | inside
        · exact Or.inr List.mem_cons_self
        · exact (ih inside).imp id (List.mem_cons_of_mem _)

/-- A new key joins at the end. -/
theorem insert_of_unknown {key : κ} {value : ν} {entries : List (κ × ν)}
    (unknown : lookup key entries = none) :
    insert key value entries = entries ++ [(key, value)] := by
  induction entries with
  | nil => rfl
  | cons entry rest ih =>
      unfold lookup at unknown
      split at unknown
      · cases unknown
      · next other => simp [insert, other, ih unknown]

end Assoc

end LispMachine
