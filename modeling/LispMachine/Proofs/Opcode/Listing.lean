import LispMachine.Opcode.Listing
import LispMachine.Proofs.Reader.Words

/-!
# Reading a listing back

A listing is text for people, but it tells every word of the code: the parser below finds the
lines, the parts of each line and the words that the line stands for. The code of a sequence
of instructions has one line for each of them, at the offset where the instruction begins.
-/

namespace LispMachine

/-- The operation of a name. -/
def Opcode.ofMnemonic? (name : String) : Option Opcode :=
  all.find? fun op => op.mnemonic == name

@[simp] theorem Opcode.ofMnemonic?_mnemonic (op : Opcode) : ofMnemonic? op.mnemonic = some op := by
  cases op <;> rfl

theorem Opcode.mnemonic_ne_unknown (op : Opcode) : op.mnemonic ≠ "???" := by
  cases op <;> decide

/-- Only its own word encodes an operation. -/
theorem Opcode.word_of_ofWord? {w : UInt16} {op : Opcode} (known : ofWord? w = some op) :
    op.word = w := by
  apply UInt16.toNat_inj.1
  unfold ofWord? at known
  split at known <;> cases known <;> next value => exact value.symm

/-! ## Numbers -/

namespace Text

/-- The number that a text of decimal digits spells. -/
def number? (text : String) : Option Nat :=
  let digits := text.toList
  if digits ≠ [] ∧ digits.all isDigit then some (decimal digits) else none

/-- The word that a text of decimal digits spells. -/
def word? (text : String) : Option UInt16 := do
  let n ← number? text
  if n ≤ maxOperand then return UInt16.ofNat n else none

theorem decimal_zeros (count : Nat) (digits : List Char) :
    decimal (List.replicate count '0' ++ digits) = decimal digits := by
  induction count with
  | zero => rfl
  | succ count ih => exact ih

theorem toList_offset (n : Nat) :
    ∃ count, (offset n).toList = List.replicate count '0' ++ Nat.toDigits 10 n := by
  refine ⟨4 - (toString n).length, ?_⟩
  simp only [offset, String.toList_append, String.toList_ofList]
  exact congrArg _ Nat.toList_repr

theorem isDigit_offset (n : Nat) : (offset n).toList.all isDigit = true := by
  obtain ⟨count, text⟩ := toList_offset n
  rw [text, List.all_append, isDigit_toDigits, Bool.and_true, List.all_replicate]
  split
  · rfl
  · decide

theorem number?_offset (n : Nat) : number? (offset n) = some n := by
  obtain ⟨count, text⟩ := toList_offset n
  unfold number?
  dsimp only
  have some : (offset n).toList ≠ [] := by
    rw [text]
    exact List.append_ne_nil_of_right_ne_nil _ Nat.toDigits_ne_nil
  rw [if_pos ⟨some, isDigit_offset n⟩, text, decimal_zeros, decimal_toDigits]

theorem word?_repr (word : UInt16) : word? word.toNat.repr = some word := by
  have number : number? word.toNat.repr = some word.toNat := by
    unfold number?
    dsimp only
    rw [Nat.toList_repr, if_pos ⟨Nat.toDigits_ne_nil, isDigit_toDigits _⟩, decimal_toDigits]
  have fits : word.toNat ≤ maxOperand := Nat.le_of_lt_succ word.toNat_lt
  simp only [word?, number, Option.bind_eq_bind, Option.bind_some, if_pos fits]
  exact congrArg some UInt16.ofNat_toNat

end Text

/-! ## Lines -/

namespace ListingLine

/-- The parts of a line, which spaces separate. -/
def parts : ListingLine → List String
  | unknown pos word => [Text.offset pos, "???", word.toNat.repr]
  | plain pos op => [Text.offset pos, op.mnemonic]
  | operand pos op value => [Text.offset pos, op.mnemonic, value.toNat.repr]
  | missing pos op => [Text.offset pos, op.mnemonic, "<missing>"]

/-- Finds the line that has the given parts. -/
def ofParts? : List String → Option ListingLine
  | [pos, name] => do
      return plain (← Text.number? pos) (← Opcode.ofMnemonic? name)
  | [pos, name, value] => do
      let pos ← Text.number? pos
      if name = "???" then return unknown pos (← Text.word? value)
      else
        let op ← Opcode.ofMnemonic? name
        match Text.word? value with
        | some value => return operand pos op value
        | none => if value = "<missing>" then return missing pos op else none
  | _ => none

/-- The text of a line without its line end. -/
def text (line : ListingLine) : String := Text.spaced line.parts

theorem render_eq (line : ListingLine) : line.render = line.text ++ "\n" := by
  apply String.toList_inj.1
  cases line <;> simp [render, text, parts, Text.spaced, toString]

/-- A text without a space and without a line end. -/
def Unbroken (part : String) : Prop := ∀ c ∈ part.toList, c ≠ ' ' ∧ c ≠ '\n'

theorem unbroken_of_all {part : String}
    (all : (part.toList.all fun c => c != ' ' && c != '\n') = true) : Unbroken part := by
  intro c member
  have both := List.all_eq_true.1 all c member
  rw [Bool.and_eq_true, bne_iff_ne, bne_iff_ne] at both
  exact both

theorem unbroken_of_digits {part : String} (digits : part.toList.all Text.isDigit = true) :
    Unbroken part := by
  intro c member
  have digit := List.all_eq_true.1 digits c member
  constructor
  · rintro rfl
    cases digit
  · rintro rfl
    cases digit

theorem unbroken_word (word : UInt16) : Unbroken word.toNat.repr := by
  apply unbroken_of_digits
  rw [Nat.toList_repr]
  exact isDigit_toDigits _

theorem unbroken_mnemonic (op : Opcode) : Unbroken op.mnemonic := by
  cases op <;> exact unbroken_of_all rfl

theorem unbroken_parts (line : ListingLine) : ∀ part ∈ line.parts, Unbroken part := by
  have offset (pos : Nat) : Unbroken (Text.offset pos) :=
    unbroken_of_digits (Text.isDigit_offset pos)
  cases line with
  | unknown pos word =>
      have marks : Unbroken "???" := unbroken_of_all rfl
      simp only [parts, List.forall_mem_cons]
      exact ⟨offset pos, marks, unbroken_word word, nofun⟩
  | plain pos op =>
      simp only [parts, List.forall_mem_cons]
      exact ⟨offset pos, unbroken_mnemonic op, nofun⟩
  | operand pos op value =>
      simp only [parts, List.forall_mem_cons]
      exact ⟨offset pos, unbroken_mnemonic op, unbroken_word value, nofun⟩
  | missing pos op =>
      have marks : Unbroken "<missing>" := unbroken_of_all rfl
      simp only [parts, List.forall_mem_cons]
      exact ⟨offset pos, unbroken_mnemonic op, marks, nofun⟩

/-- Splitting at spaces. -/
def splitSpaces (text : String) : List String :=
  (text.toList.splitOn ' ').map String.ofList

theorem splitSpaces_spaced {parts : List String} (unbroken : ∀ part ∈ parts, Unbroken part)
    (some : parts ≠ []) : splitSpaces (Text.spaced parts) = parts := by
  have apart : ∀ part ∈ parts.map String.toList, ' ' ∉ part := by
    intro letters member inside
    obtain ⟨part, found, rfl⟩ := List.mem_map.1 member
    exact (unbroken part found ' ' inside).1 rfl
  unfold splitSpaces Text.spaced
  rw [String.toList_intercalate]
  change ((List.intercalate [' '] (parts.map String.toList)).splitOn ' ').map String.ofList = parts
  rw [List.splitOn_intercalate ' ' apart (by simpa using some), List.map_map]
  simp [Function.comp_def]

theorem lineEnd_not_mem_spaced {parts : List String} (unbroken : ∀ part ∈ parts, Unbroken part) :
    '\n' ∉ (Text.spaced parts).toList := by
  induction parts with
  | nil => simp [Text.spaced]
  | cons part rest ih =>
      obtain ⟨first, others⟩ := List.forall_mem_cons.1 unbroken
      have one : '\n' ∉ part.toList := fun inside => (first '\n' inside).2 rfl
      cases rest with
      | nil => simpa [Text.spaced] using one
      | cons next rest => simpa [Text.spaced, one] using ih others

/-- Finds the line of a text. -/
def ofText? (text : String) : Option ListingLine := ofParts? (splitSpaces text)

/-- A line is read back from its text: no operation is called by the marks of an unknown word,
    and no operand looks like the note of a missing one. -/
theorem ofText?_text (line : ListingLine) : ofText? line.text = some line := by
  have some_ : line.parts ≠ [] := by cases line <;> exact List.cons_ne_nil _ _
  unfold ofText? text
  rw [splitSpaces_spaced line.unbroken_parts some_]
  cases line with
  | unknown pos word => simp [parts, ofParts?, Text.number?_offset, Text.word?_repr]
  | plain pos op => simp [parts, ofParts?, Text.number?_offset]
  | operand pos op value =>
      simp [parts, ofParts?, Text.number?_offset, op.mnemonic_ne_unknown, Text.word?_repr]
  | missing pos op =>
      have none : Text.word? "<missing>" = none := rfl
      simp [parts, ofParts?, Text.number?_offset, op.mnemonic_ne_unknown, none]

theorem lineEnd_not_mem_text (line : ListingLine) : '\n' ∉ line.text.toList :=
  lineEnd_not_mem_spaced line.unbroken_parts

end ListingLine

/-! ## Whole listings -/

namespace Listing

/-- The lines of a text in which every line has its line end. -/
def lines? (text : String) : Option (List String) :=
  let pieces := text.toList.splitOn '\n'
  if pieces.getLast? = some [] then some (pieces.dropLast.map String.ofList) else none

theorem splitOn_lineEnds {lines : List (List Char)} (whole : ∀ line ∈ lines, '\n' ∉ line) :
    (lines.flatMap fun line => line ++ ['\n']).splitOn '\n' = lines ++ [[]] := by
  induction lines with
  | nil => rfl
  | cons line rest ih =>
      obtain ⟨first, others⟩ := List.forall_mem_cons.1 whole
      rw [List.flatMap_cons, List.append_assoc, List.singleton_append,
        List.splitOn_append_cons_self_of_not_mem first, ih others, List.cons_append]

/-- The lines of a text are found again in what they make. -/
theorem lines?_join {lines : List String} (whole : ∀ line ∈ lines, '\n' ∉ line.toList) :
    lines? (String.join (lines.map fun line => line ++ "\n")) = some lines := by
  have apart : ∀ line ∈ lines.map String.toList, '\n' ∉ line := by
    intro letters member
    obtain ⟨line, found, rfl⟩ := List.mem_map.1 member
    exact whole line found
  have letters : (String.join (lines.map fun line => line ++ "\n")).toList =
      (lines.map String.toList).flatMap fun line => line ++ ['\n'] := by
    rw [String.toList_join, List.flatMap_map, List.flatMap_map]
    simp [String.toList_append]
  unfold lines?
  dsimp only
  rw [letters, splitOn_lineEnds apart]
  simp [Function.comp_def]

/-- Finds the listing lines of a text. -/
def parse? (text : String) : Option (List ListingLine) := do
  (← lines? text).mapM ListingLine.ofText?

/-- Finds the words of a listing. -/
def words? (text : String) : Option (List UInt16) := do
  return (← parse? text).flatMap ListingLine.words

theorem lines?_listing (words : List UInt16) :
    lines? (listing words) = some ((listingFrom 0 words).map ListingLine.text) := by
  have texts : (listingFrom 0 words).map ListingLine.render =
      ((listingFrom 0 words).map ListingLine.text).map fun line => line ++ "\n" := by
    rw [List.map_map]
    exact List.map_congr_left fun line _ => line.render_eq
  unfold listing
  rw [texts]
  apply lines?_join
  intro text member
  obtain ⟨line, _, rfl⟩ := List.mem_map.1 member
  exact line.lineEnd_not_mem_text

theorem parse?_listing (words : List UInt16) :
    parse? (listing words) = some (listingFrom 0 words) := by
  have each : ∀ lines : List ListingLine,
      (lines.map ListingLine.text).mapM ListingLine.ofText? = some lines := by
    intro lines
    induction lines with
    | nil => rfl
    | cons line rest ih => simp [ListingLine.ofText?_text, ih]
  unfold parse?
  rw [lines?_listing]
  exact each _

/-- The words of the lines are the words of the code, one after the other. -/
theorem words_listingFrom (pos : Nat) (words : List UInt16) :
    (listingFrom pos words).flatMap ListingLine.words = words := by
  fun_induction listingFrom pos words with
  | case1 => rfl
  | case2 pos w unknown => rfl
  | case3 pos w op known wide => simp [ListingLine.words, Opcode.word_of_ofWord? known]
  | case4 pos w op known narrow => simp [ListingLine.words, Opcode.word_of_ofWord? known]
  | case5 pos w x rest unknown ih => simp [ListingLine.words, ih]
  | case6 pos w x rest op known wide ih => simp [ListingLine.words, Opcode.word_of_ofWord? known, ih]
  | case7 pos w x rest op known narrow ih => simp [ListingLine.words, Opcode.word_of_ofWord? known, ih]

/-- A listing is lossless. -/
theorem words?_listing (words : List UInt16) : words? (listing words) = some words := by
  unfold words?
  rw [parse?_listing]
  exact congrArg some (words_listingFrom 0 words)

theorem listing_injective : Function.Injective listing := by
  intro words words' same
  have read := words?_listing words
  rw [same, words?_listing words'] at read
  exact (Option.some.inj read).symm

end Listing

end LispMachine
