import LispMachine.CommandLine.Arguments
import Mathlib.Data.String.Basic

/-!
# Options among the arguments

A scan from left to right cuts the arguments into pieces: an argument that does not mention
the option, the option with its value in the next argument, and the option with its value
behind an equals sign. Taking the option out gives the value of the last piece that has
one, and leaves the arguments of the first kind where they are. A cursor that takes the
pieces out of the arguments one by one, where they stand, comes to the same.
-/

namespace LispMachine.CommandLine

/-- The argument is the option, or it begins with the option and an equals sign. -/
def Mentions (name arg : String) : Prop := arg = name ∨ ∃ value, arg = name ++ "=" ++ value

/-- What a scan for an option finds. -/
inductive Piece where
  | other (arg : String)
  | apart (value : String)
  | joined (value : String)

namespace Piece

/-- The value that the piece gives to the option. -/
def value? : Piece → Option String
  | other _ => none
  | apart value => some value
  | joined value => some value

/-- The argument that the piece leaves. -/
def left? : Piece → Option String
  | other arg => some arg
  | _ => none

/-- What the piece adds to what is taken from the arguments after it. -/
def add : Piece → Option String × List String → Option String × List String
  | other arg, (later, left) => (later, arg :: left)
  | apart value, (later, left) => (some (later.getD value), left)
  | joined value, (later, left) => (some (later.getD value), left)

end Piece

/-- The scan for an option cuts the arguments into these pieces. The option alone is
    followed by its value, whatever that is. -/
inductive Scan (name : String) : List String → List Piece → Prop where
  | nil : Scan name [] []
  | other {arg : String} {rest : List String} {pieces : List Piece} : ¬ Mentions name arg →
      Scan name rest pieces → Scan name (arg :: rest) (.other arg :: pieces)
  | apart {value : String} {rest : List String} {pieces : List Piece} :
      Scan name rest pieces → Scan name (name :: value :: rest) (.apart value :: pieces)
  | joined {value : String} {rest : List String} {pieces : List Piece} :
      Scan name rest pieces → Scan name ((name ++ "=" ++ value) :: rest) (.joined value :: pieces)

section

variable {name : String}

/-! ## One piece -/

theorem inlineValue?_eq_some {arg value : String} :
    inlineValue? name arg = some value ↔ arg = name ++ "=" ++ value := by
  simp only [inlineValue?, Option.map_eq_some_iff, List.isPrefixOf?_eq_some_iff_append_eq]
  constructor
  · rintro ⟨rest, whole, rfl⟩
    apply String.toList_injective
    simpa using whole.symm
  · rintro rfl
    exact ⟨value.toList, by simp, by simp⟩

theorem mentions_iff {arg : String} :
    Mentions name arg ↔ arg = name ∨ (inlineValue? name arg).isSome = true := by
  simp only [Mentions, Option.isSome_iff_exists, inlineValue?_eq_some]

instance (name arg : String) : Decidable (Mentions name arg) :=
  decidable_of_iff _ mentions_iff.symm

theorem joined_ne (value : String) : name ++ "=" ++ value ≠ name := by
  intro same
  have length := congrArg String.length same
  simp only [String.length_append] at length
  have sign : "=".length = 1 := rfl
  omega

theorem takeValue_apart (value : String) (rest : List String) :
    takeValue name (name :: value :: rest) =
      (takeValue name rest).map (Piece.apart value).add := by
  rw [takeValue, if_pos rfl]
  cases takeValue name rest <;> rfl

theorem takeValue_joined (value : String) (rest : List String) :
    takeValue name ((name ++ "=" ++ value) :: rest) =
      (takeValue name rest).map (Piece.joined value).add := by
  have found : inlineValue? name (name ++ "=" ++ value) = some value :=
    inlineValue?_eq_some.2 rfl
  cases rest with
  | nil =>
      simp only [takeValue, if_neg (joined_ne value), found]
      rfl
  | cons following rest =>
      rw [takeValue, if_neg (joined_ne value), found]
      cases takeValue name (following :: rest) <;> rfl

theorem takeValue_other {arg : String} (apart : ¬ Mentions name arg) (rest : List String) :
    takeValue name (arg :: rest) = (takeValue name rest).map (Piece.other arg).add := by
  rw [mentions_iff, not_or] at apart
  obtain ⟨different, plain⟩ := apart
  rw [Option.not_isSome_iff_eq_none] at plain
  cases rest with
  | nil =>
      simp only [takeValue, if_neg different, plain]
      rfl
  | cons following rest =>
      rw [takeValue, if_neg different, plain]
      cases takeValue name (following :: rest) <;> rfl

theorem takeValue_missing : takeValue name [name] = none := by
  rw [takeValue, if_pos rfl]

/-! ## All pieces -/

/-- A scan goes through all arguments, or it comes to the option without a value. -/
theorem scan_cases : ∀ args : List String,
    (∃ pieces, Scan name args pieces) ∨
      ∃ front pieces, args = front ++ [name] ∧ Scan name front pieces
  | [] => .inl ⟨[], .nil⟩
  | [arg] => by
      by_cases bare : arg = name
      · rw [bare]
        exact .inr ⟨[], [], rfl, .nil⟩
      · by_cases mentions : Mentions name arg
        · obtain ⟨value, rfl⟩ := mentions.resolve_left bare
          exact .inl ⟨_, .joined .nil⟩
        · exact .inl ⟨_, .other mentions .nil⟩
  | arg :: following :: rest => by
      by_cases bare : arg = name
      · rw [bare]
        rcases scan_cases rest with ⟨pieces, scan⟩ | ⟨front, pieces, rfl, scan⟩
        · exact .inl ⟨_, .apart scan⟩
        · exact .inr ⟨_, _, rfl, .apart scan⟩
      · have ih := scan_cases (following :: rest)
        by_cases mentions : Mentions name arg
        · obtain ⟨value, rfl⟩ := mentions.resolve_left bare
          rcases ih with ⟨pieces, scan⟩ | ⟨front, pieces, same, scan⟩
          · exact .inl ⟨_, .joined scan⟩
          · rw [same]
            exact .inr ⟨_, _, rfl, .joined scan⟩
        · rcases ih with ⟨pieces, scan⟩ | ⟨front, pieces, same, scan⟩
          · exact .inl ⟨_, .other mentions scan⟩
          · rw [same]
            exact .inr ⟨_, _, rfl, .other mentions scan⟩

/-- Taking an option out goes through the pieces that a scan has found first. -/
theorem takeValue_append {front : List String} {pieces : List Piece}
    (scan : Scan name front pieces) (rest : List String) :
    takeValue name (front ++ rest) =
      (takeValue name rest).map fun taken => pieces.foldr Piece.add taken := by
  induction scan with
  | nil => simp
  | other apart _ ih =>
      rw [List.cons_append, takeValue_other apart, ih, Option.map_map]
      rfl
  | apart _ ih =>
      rw [List.cons_append, List.cons_append, takeValue_apart, ih, Option.map_map]
      rfl
  | joined _ ih =>
      rw [List.cons_append, takeValue_joined, ih, Option.map_map]
      rfl

/-- Together the pieces give the last value, and leave the arguments that are left. -/
theorem foldr_add (pieces : List Piece) :
    pieces.foldr Piece.add (none, []) =
      ((pieces.filterMap Piece.value?).getLast?, pieces.filterMap Piece.left?) := by
  induction pieces with
  | nil => rfl
  | cons piece pieces ih =>
      rw [List.foldr_cons, ih]
      cases piece with
      | other arg => rfl
      | apart value =>
          simp [Piece.add, Piece.value?, Piece.left?, List.filterMap_cons, List.getLast?_cons]
      | joined value =>
          simp [Piece.add, Piece.value?, Piece.left?, List.filterMap_cons, List.getLast?_cons]

theorem takeValue_of_scan {args : List String} {pieces : List Piece}
    (scan : Scan name args pieces) : takeValue name args =
      some ((pieces.filterMap Piece.value?).getLast?, pieces.filterMap Piece.left?) := by
  have whole := takeValue_append scan []
  rw [List.append_nil] at whole
  rw [whole, takeValue, Option.map_some, foldr_add]

theorem takeValue_of_missing {front : List String} {pieces : List Piece}
    (scan : Scan name front pieces) : takeValue name (front ++ [name]) = none := by
  rw [takeValue_append scan, takeValue_missing, Option.map_none]

theorem takeValue_eq_none {args : List String} :
    takeValue name args = none ↔
      ∃ front pieces, args = front ++ [name] ∧ Scan name front pieces := by
  constructor
  · intro missing
    rcases @scan_cases name args with ⟨pieces, scan⟩ | found
    · rw [takeValue_of_scan scan] at missing
      cases missing
    · exact found
  · rintro ⟨front, pieces, rfl, scan⟩
    exact takeValue_of_missing scan

/-! ## What is left -/

theorem Scan.left_sublist {args : List String} {pieces : List Piece}
    (scan : Scan name args pieces) : (pieces.filterMap Piece.left?).Sublist args := by
  induction scan with
  | nil => exact .slnil
  | other _ _ ih => exact ih.cons_cons _
  | apart _ ih => exact (ih.cons _).cons _
  | joined _ ih => exact ih.cons _

theorem Scan.left_plain {args : List String} {pieces : List Piece} (scan : Scan name args pieces) :
    ∀ arg ∈ pieces.filterMap Piece.left?, ¬ Mentions name arg := by
  induction scan with
  | nil => exact fun _ member => nomatch member
  | other apart _ ih => exact List.forall_mem_cons.2 ⟨apart, ih⟩
  | apart _ ih => exact ih
  | joined _ ih => exact ih

/-- Arguments that do not mention the option stay as they are. -/
theorem takeValue_of_plain {args : List String} (plain : ∀ arg ∈ args, ¬ Mentions name arg) :
    takeValue name args = some (none, args) := by
  induction args with
  | nil => rfl
  | cons arg rest ih =>
      have later := ih fun other member => plain other (List.mem_cons_of_mem _ member)
      rw [takeValue_other (plain arg List.mem_cons_self), later]
      rfl

/-! ## In place -/

/-- The arguments while an option is taken out of them where they stand: a position among
    them, and the value found last. What is before the position is left. -/
structure Cursor where
  args : List String
  position : Nat
  value : Option String

namespace Cursor

/-- Looks at the argument at the position, or comes to a result at the end. The position goes
    on only past an argument that is left, for what is taken out makes room for the next. -/
def step (name : String) (c : Cursor) : Cursor ⊕ Option (Option String × List String) :=
  match c.args[c.position]? with
  | none => .inr (some (c.value, c.args))
  | some arg =>
      if arg = name then
        match c.args[c.position + 1]? with
        | none => .inr none
        | some value =>
            .inl ⟨(c.args.eraseIdx (c.position + 1)).eraseIdx c.position, c.position, some value⟩
      else
        match inlineValue? name arg with
        | some value => .inl ⟨c.args.eraseIdx c.position, c.position, some value⟩
        | none => .inl { c with position := c.position + 1 }

/-- Step after step the cursor comes to an end with this result. -/
inductive Ends (name : String) : Cursor → Option (Option String × List String) → Prop where
  | here {c : Cursor} {result : Option (Option String × List String)} :
      c.step name = .inr result → Ends name c result
  | later {c c' : Cursor} {result : Option (Option String × List String)} :
      c.step name = .inl c' → Ends name c' result → Ends name c result

variable (left rest : List String) (value : Option String)

theorem step_nil : step name ⟨left ++ [], left.length, value⟩ = .inr (some (value, left)) := by
  simp [step]

theorem step_missing : step name ⟨left ++ [name], left.length, value⟩ = .inr none := by
  simp [step]

theorem eraseIdx_here (arg : String) :
    (left ++ arg :: rest).eraseIdx left.length = left ++ rest := by
  rw [List.eraseIdx_append_of_length_le (Nat.le_refl _)]
  simp

theorem step_apart (found : String) :
    step name ⟨left ++ name :: found :: rest, left.length, value⟩ =
      .inl ⟨left ++ rest, left.length, some found⟩ := by
  have erased :
      (left ++ name :: found :: rest).eraseIdx (left.length + 1) = left ++ name :: rest := by
    rw [List.eraseIdx_append_of_length_le (Nat.le_add_right _ _)]
    simp
  simp [step, erased, eraseIdx_here]

theorem step_joined (found : String) :
    step name ⟨left ++ (name ++ "=" ++ found) :: rest, left.length, value⟩ =
      .inl ⟨left ++ rest, left.length, some found⟩ := by
  have inline : inlineValue? name (name ++ "=" ++ found) = some found := inlineValue?_eq_some.2 rfl
  have different := @joined_ne name found
  simp only [step, List.getElem?_append_right (Nat.le_refl _), Nat.sub_self,
    List.getElem?_cons_zero, if_neg different, inline, eraseIdx_here]

theorem step_other {arg : String} (apart : ¬ Mentions name arg) :
    step name ⟨left ++ arg :: rest, left.length, value⟩ =
      .inl ⟨left ++ [arg] ++ rest, (left ++ [arg]).length, value⟩ := by
  rw [mentions_iff, not_or, Option.not_isSome_iff_eq_none] at apart
  obtain ⟨different, plain⟩ := apart
  simp [step, different, plain]

theorem getLast?_cons_or (found : String) (values : List String) :
    (found :: values).getLast?.or value = values.getLast?.or (some found) := by
  rw [List.getLast?_cons]
  cases values.getLast? <;> rfl

/-- The cursor passes the pieces that a scan has found. -/
theorem Ends.scan {front : List String} {pieces : List Piece} (scan : Scan name front pieces)
    {left rest : List String} {value : Option String}
    {result : Option (Option String × List String)}
    (after : Ends name ⟨left ++ pieces.filterMap Piece.left? ++ rest,
      (left ++ pieces.filterMap Piece.left?).length,
      (pieces.filterMap Piece.value?).getLast?.or value⟩ result) :
    Ends name ⟨left ++ (front ++ rest), left.length, value⟩ result := by
  induction scan generalizing left value with
  | nil => simpa using after
  | @other arg _ _ apart _ ih =>
      apply Ends.later (step_other left _ value apart)
      apply ih
      simpa [Piece.left?, Piece.value?] using after
  | @apart found _ _ _ ih =>
      apply Ends.later (step_apart left _ value found)
      apply ih
      simp only [List.filterMap_cons, Piece.left?, Piece.value?, getLast?_cons_or] at after
      exact after
  | @joined found _ _ _ ih =>
      apply Ends.later (step_joined left _ value found)
      apply ih
      simp only [List.filterMap_cons, Piece.left?, Piece.value?, getLast?_cons_or] at after
      exact after

/-- From the first argument on the cursor comes to an end with what is taken out. -/
theorem ends_takeValue (args : List String) : Ends name ⟨args, 0, none⟩ (takeValue name args) := by
  rcases @scan_cases name args with ⟨pieces, scan⟩ | ⟨front, pieces, rfl, scan⟩
  · rw [takeValue_of_scan scan, ← List.nil_append args, ← List.append_nil args]
    apply @Ends.scan name _ pieces scan []
    apply Ends.here
    rw [step_nil]
    simp
  · rw [takeValue_of_missing scan]
    apply @Ends.scan name _ pieces scan []
    exact .here (step_missing _ _)

end Cursor

end

/-- Taking an option out of any arguments. Done in place, with a cursor, it comes to an end.
    A scan from left to right goes through all of the arguments or comes to the option as the
    last one, and only then there is no result. Otherwise the result is the value of the last
    piece that has one, and the arguments of the pieces that have none, in order. None of these
    mentions the option, so that taking it again finds nothing and changes nothing. And
    wherever the scan comes to the option with its value in the next argument, the two can be
    joined by an equals sign. -/
theorem options_are_taken_without_loss (name : String) (args : List String) :
    Cursor.Ends name ⟨args, 0, none⟩ (takeValue name args) ∧
    ((∃ pieces, Scan name args pieces) ∨
      ∃ front pieces, args = front ++ [name] ∧ Scan name front pieces) ∧
    (takeValue name args = none ↔
      ∃ front pieces, args = front ++ [name] ∧ Scan name front pieces) ∧
    (∀ pieces, Scan name args pieces → takeValue name args =
      some ((pieces.filterMap Piece.value?).getLast?, pieces.filterMap Piece.left?)) ∧
    (∀ value left, takeValue name args = some (value, left) →
      left.Sublist args ∧ (∀ arg ∈ left, ¬ Mentions name arg) ∧
        takeValue name left = some (none, left)) ∧
    ∀ front pieces value rest, args = front ++ name :: value :: rest → Scan name front pieces →
      takeValue name (front ++ (name ++ "=" ++ value) :: rest) = takeValue name args := by
  refine ⟨Cursor.ends_takeValue args, scan_cases args, takeValue_eq_none,
    fun pieces => takeValue_of_scan, ?_, ?_⟩
  · intro value left taken
    rcases @scan_cases name args with ⟨pieces, scan⟩ | missing
    · rw [takeValue_of_scan scan] at taken
      cases taken
      exact ⟨scan.left_sublist, scan.left_plain, takeValue_of_plain scan.left_plain⟩
    · rw [takeValue_eq_none.2 missing] at taken
      cases taken
  · rintro front pieces value rest rfl scan
    rw [takeValue_append scan, takeValue_append scan, takeValue_apart, takeValue_joined]
    rfl

/-- The option with itself as its value, among arguments that resemble it, and once more
    with a value that mentions it; and the option at the end. -/
theorem options_are_taken_without_loss_sample :
    Scan "-n" ["-n", "-n", "-n=", "a", "-nn", "-n", "-n=4", "b"]
        [.apart "-n", .joined "", .other "a", .other "-nn", .apart "-n=4", .other "b"] ∧
      takeValue "-n" ["-n", "-n", "-n=", "a", "-nn", "-n", "-n=4", "b"] =
        some (some "-n=4", ["a", "-nn", "b"]) ∧
      takeValue "-n" ["-n", "-n", "-n"] = none := by
  have plain : ¬ Mentions "-n" "a" ∧ ¬ Mentions "-n" "-nn" ∧ ¬ Mentions "-n" "b" := by
    decide +kernel
  have scan : Scan "-n" ["-n", "-n", "-n=", "a", "-nn", "-n", "-n=4", "b"]
      [.apart "-n", .joined "", .other "a", .other "-nn", .apart "-n=4", .other "b"] := by
    rw [show "-n=" = "-n" ++ "=" ++ "" by decide]
    exact .apart (.joined (.other plain.1 (.other plain.2.1 (.apart (.other plain.2.2 .nil)))))
  obtain ⟨_, _, _, taken, _⟩ :=
    options_are_taken_without_loss "-n" ["-n", "-n", "-n=", "a", "-nn", "-n", "-n=4", "b"]
  obtain ⟨_, _, missing, _⟩ := options_are_taken_without_loss "-n" ["-n", "-n", "-n"]
  exact ⟨scan, taken _ scan, missing.2 ⟨["-n", "-n"], _, rfl, .apart .nil⟩⟩

end LispMachine.CommandLine
