import LispMachine.Proofs.Reader.Lexing
import Mathlib.Tactic.Tauto

/-!
# Words of a text

A word is read as an integer or as a symbol. Which names are those of symbols is said here
without the lexer, and so is which texts the scanner takes for which tokens.
-/

namespace LispMachine

/-! ## Words -/

/-- The name is that of a word: it is not empty, and it has no blanks and none of the
    characters with a meaning of their own. It does not look like an integer. -/
structure Wordlike (name : String) : Prop where
  nonempty : name ≠ ""
  plain : ∀ c ∈ name.toList, Text.isBlank c = false ∧ c ∉ ['(', ')', '\x27', ';', '\x22']
  noInteger : ∀ digits, digits ≠ [] → digits.all Text.isDigit = true →
    name.toList ≠ digits ∧ name.toList ≠ '-' :: digits

theorem isWordChar_iff {c : Char} :
    isWordChar c = true ↔ Text.isBlank c = false ∧ c ∉ ['(', ')', '\x27', ';', '\x22'] := by
  simp [isWordChar]
  tauto

theorem Text.isDigit_iff {c : Char} : isDigit c = true ↔ 48 ≤ c.toNat ∧ c.toNat ≤ 57 := by
  simp [isDigit, Char.le_def, UInt32.le_iff_toNat_le]

theorem isWordChar_of_isDigit {c : Char} (digit : Text.isDigit c = true) : isWordChar c = true := by
  obtain ⟨low, high⟩ := Text.isDigit_iff.1 digit
  rw [isWordChar_iff]
  constructor
  · simp only [Text.isBlank, Bool.or_eq_false_iff, Bool.and_eq_false_iff, decide_eq_false_iff_not, beq_eq_false_iff_ne]
    omega
  · simp only [List.mem_cons, List.not_mem_nil, or_false]
    rintro (rfl | rfl | rfl | rfl | rfl) <;> simp at low high

theorem integerLiteral?_digits {digits : List Char} (some_ : digits ≠ [])
    (all : digits.all Text.isDigit = true) :
    integerLiteral? digits = some (Text.decimal digits : Int) ∧
      integerLiteral? ('-' :: digits) = some (-(Text.decimal digits : Int)) := by
  constructor
  · unfold integerLiteral?
    split
    · simp at all
      cases all.1
    · rw [if_pos ⟨some_, all⟩]
  · rw [integerLiteral?, if_pos ⟨some_, all⟩]

theorem integerLiteral?_eq_none {word : List Char} :
    integerLiteral? word = none ↔ ∀ digits, digits ≠ [] → digits.all Text.isDigit = true →
      word ≠ digits ∧ word ≠ '-' :: digits := by
  constructor
  · intro none digits some_ all
    obtain ⟨plain, negative⟩ := integerLiteral?_digits some_ all
    constructor
    · rintro rfl
      rw [plain] at none
      cases none
    · rintro rfl
      rw [negative] at none
      cases none
  · intro other
    unfold integerLiteral?
    split
    · next digits =>
        rw [if_neg]
        rintro ⟨some_, all⟩
        exact (other digits some_ all).2 rfl
    · rw [if_neg]
      rintro ⟨some_, all⟩
      exact (other word some_ all).1 rfl

theorem decimal_toDigits (n : Nat) : Text.decimal (Nat.toDigits 10 n) = n := by
  have same : ∀ digits : List Char, Text.decimal digits = Nat.ofDigitChars 10 digits 0 := by
    intro digits
    simp only [Text.decimal, Nat.ofDigitChars, Nat.mul_comm]
  rw [same, Nat.ofDigitChars_toDigits (by omega) (by omega)]

theorem isDigit_toDigits (n : Nat) : (Nat.toDigits 10 n).all Text.isDigit = true := by
  rw [List.all_eq_true]
  intro c member
  have digit := Nat.isDigit_of_mem_toDigits (by omega) (by omega) member
  simpa [Char.isDigit, Text.isDigit, Char.le_def] using digit

theorem toList_toString_int (value : Int) :
    (0 ≤ value ∧ (toString value).toList = Nat.toDigits 10 value.natAbs) ∨
      (value < 0 ∧ (toString value).toList = '-' :: Nat.toDigits 10 value.natAbs) := by
  cases value with
  | ofNat n => exact Or.inl ⟨Int.natCast_nonneg n, Nat.toList_repr⟩
  | negSucc n =>
      refine Or.inr ⟨Int.negSucc_lt_zero n, ?_⟩
      have text : toString (Int.negSucc n) = "-" ++ (n + 1).repr := rfl
      rw [text, String.toList_append, Nat.toList_repr]
      rfl

theorem machineInt?_toInt (value : Int64) : machineInt? value.toInt = some value := by
  rw [machineInt?, if_pos ⟨Int64.le_toInt value, Int64.toInt_lt value⟩, Int64.ofInt_toInt]

/-- The text of an integer is a word that spells it. -/
theorem classify_integer (value : Int64) :
    classify (toString value.toInt).toList = .ok (.integer value) ∧
      (toString value.toInt).toList ≠ [] ∧
      ∀ c ∈ (toString value.toInt).toList, isWordChar c = true := by
  have digits := isDigit_toDigits value.toInt.natAbs
  have both := integerLiteral?_digits Nat.toDigits_ne_nil digits
  have words : ∀ c ∈ Nat.toDigits 10 value.toInt.natAbs, isWordChar c = true := fun c member =>
    isWordChar_of_isDigit (List.all_eq_true.1 digits c member)
  rw [decimal_toDigits] at both
  rcases toList_toString_int value.toInt with ⟨sign, text⟩ | ⟨sign, text⟩
  · have literal : integerLiteral? (Nat.toDigits 10 value.toInt.natAbs) = some value.toInt := by
      rw [both.1, Int.natAbs_of_nonneg sign]
    rw [text]
    refine ⟨?_, Nat.toDigits_ne_nil, words⟩
    rw [classify, literal]
    dsimp only
    rw [machineInt?_toInt]
  · have literal : integerLiteral? ('-' :: Nat.toDigits 10 value.toInt.natAbs) = some value.toInt := by
      rw [both.2, Int.ofNat_natAbs_of_nonpos (le_of_lt sign), Int.neg_neg]
    rw [text]
    refine ⟨?_, List.cons_ne_nil _ _, List.forall_mem_cons.2 ⟨by decide, words⟩⟩
    rw [classify, literal]
    dsimp only
    rw [machineInt?_toInt]

/-- A name of a word spells its symbol. -/
theorem Wordlike.classify {name : String} (word : Wordlike name) :
    classify name.toList = .ok (.symbol name) := by
  rw [LispMachine.classify, integerLiteral?_eq_none.2 word.noInteger]
  dsimp only
  rw [String.ofList_toList]

theorem Wordlike.of_classify {letters : List Char} {name : String} (some_ : letters ≠ [])
    (words : ∀ c ∈ letters, isWordChar c = true)
    (spelled : LispMachine.classify letters = .ok (.symbol name)) : Wordlike name := by
  unfold LispMachine.classify at spelled
  split at spelled
  · split at spelled <;> cases spelled
  · next none =>
      cases spelled
      refine ⟨?_, ?_, ?_⟩
      · simpa [← String.toList_inj] using some_
      · rw [String.toList_ofList]
        exact fun c member => isWordChar_iff.1 (words c member)
      · rw [String.toList_ofList]
        exact integerLiteral?_eq_none.1 none

/-! ## Texts of tokens -/

/-- From between two tokens the text is scanned as these tokens, and nothing of it is left
    unfinished but a word. -/
def Scans (text : List Char) (ts : List Token) : Prop :=
  ∀ s : Scanner, s.mode = .between → (text.foldl Scanner.feed s).settle.mode = .between ∧
    (text.foldl Scanner.feed s).settle.lexemes.toList.map Lexeme.token =
      s.lexemes.toList.map Lexeme.token ++ ts.map .ok

section

open Scanner

variable {text rest word : List Char} {ts us : List Token} {token : Token}

theorem scans_nil : Scans [] [] := by
  rintro ⟨offset, mode, lexemes⟩ rfl
  exact ⟨rfl, (List.append_nil _).symm⟩

/-- A character that ends what is before and leaves nothing unfinished. -/
theorem Scans.cons (c : Char) (ts : List Token) (scans : Scans rest us)
    (step : ∀ offset lexemes, (feed ⟨offset, .between, lexemes⟩ c).mode = .between ∧
      (feed ⟨offset, .between, lexemes⟩ c).lexemes.toList.map Lexeme.token =
        lexemes.toList.map Lexeme.token ++ ts.map .ok) : Scans (c :: rest) (ts ++ us) := by
  rintro ⟨offset, mode, lexemes⟩ rfl
  obtain ⟨idle, here⟩ := step offset lexemes
  obtain ⟨between, found⟩ := scans _ idle
  refine ⟨between, found.trans ?_⟩
  rw [here, List.map_append, List.append_assoc]

theorem Scans.open_ (scans : Scans rest us) : Scans ('(' :: rest) (.openParen :: us) :=
  scans.cons '(' [.openParen] fun _ _ => ⟨rfl, by simp [feed, feedBetween]⟩

theorem Scans.close (scans : Scans rest us) : Scans (')' :: rest) (.closeParen :: us) :=
  scans.cons ')' [.closeParen] fun _ _ => ⟨rfl, by simp [feed, feedBetween]⟩

theorem Scans.space (scans : Scans rest us) : Scans (' ' :: rest) us :=
  scans.cons ' ' [] fun _ _ => ⟨rfl, by simp [feed, feedBetween, isSkipped]⟩

theorem foldl_word (words : ∀ c ∈ word, isWordChar c = true) (first offset : Nat)
    (letters : List Char) (lexemes : Array Lexeme) :
    ∃ offset', word.foldl feed ⟨offset, .word first letters, lexemes⟩ =
      ⟨offset', .word first (word.reverse ++ letters), lexemes⟩ := by
  induction word generalizing offset letters with
  | nil => exact ⟨offset, rfl⟩
  | cons c word ih =>
      obtain ⟨here, others⟩ := List.forall_mem_cons.1 words
      obtain ⟨offset', rest⟩ := ih others (offset + c.utf8Size) (c :: letters)
      refine ⟨offset', ?_⟩
      rw [List.foldl_cons, feed, if_pos here, rest]
      simp

theorem feedBetween_word {c : Char} (letter : isWordChar c = true) (offset : Nat) (mode : ScanMode)
    (lexemes : Array Lexeme) :
    feedBetween ⟨offset, mode, lexemes⟩ c = ⟨offset + c.utf8Size, .word offset [c], lexemes⟩ := by
  obtain ⟨blank, special⟩ := isWordChar_iff.1 letter
  have skipped : isSkipped c = false := by
    rw [← Bool.not_eq_true]
    intro skipped
    simp only [isSkipped, Bool.or_eq_true, beq_iff_eq] at skipped
    rcases skipped with (((rfl | rfl) | rfl) | rfl) | rfl <;> exact absurd blank (by decide)
  simp only [List.mem_cons, List.not_mem_nil, or_false, not_or] at special
  simp [feedBetween, special, skipped, letter]

theorem scans_word (some_ : word ≠ []) (words : ∀ c ∈ word, isWordChar c = true)
    (spelled : classify word = .ok token) : Scans word [token] := by
  rintro ⟨offset, mode, lexemes⟩ rfl
  obtain ⟨c, rest, rfl⟩ := List.exists_cons_of_ne_nil some_
  obtain ⟨here, others⟩ := List.forall_mem_cons.1 words
  obtain ⟨offset', scanned⟩ := foldl_word others offset (offset + c.utf8Size) [c] lexemes
  have begun : feed ⟨offset, .between, lexemes⟩ c =
      ⟨offset + c.utf8Size, .word offset [c], lexemes⟩ :=
    feedBetween_word here offset .between lexemes
  rw [List.foldl_cons, begun, scanned]
  refine ⟨rfl, ?_⟩
  simp [settle, spelled]

/-- A text may follow that begins with a character that ends a word. -/
theorem Scans.append {c : Char} (first : Scans text ts) (ends : isWordChar c = false)
    (second : Scans (c :: rest) us) : Scans (text ++ c :: rest) (ts ++ us) := by
  intro s idle
  obtain ⟨between, found⟩ := first s idle
  obtain ⟨between', found'⟩ := second (text.foldl feed s).settle between
  have same : ((c :: rest).foldl feed (text.foldl feed s)) =
      (c :: rest).foldl feed (text.foldl feed s).settle := by
    rw [List.foldl_cons, List.foldl_cons, feed_settle fun _ _ _ => ends]
  rw [List.foldl_append, same]
  refine ⟨between', ?_⟩
  rw [found', found, List.map_append, List.append_assoc]

theorem Scans.lex (scans : Scans text ts) : (lex (String.ofList text)).map Lexeme.token = ts.map .ok := by
  rw [LispMachine.lex, String.toList_ofList]
  exact (scans start rfl).2

end

/-! ## Lexemes of a text -/

/-- A symbol has the name of a word. -/
def Lexeme.Proper (lexeme : Lexeme) : Prop :=
  ∀ name, lexeme.token = .ok (.symbol name) → Wordlike name

/-- The word in progress is one, and symbols have the names of words. -/
structure Scanner.Proper (s : Scanner) : Prop where
  letters : ∀ first letters, s.mode = .word first letters →
    letters ≠ [] ∧ ∀ c ∈ letters, isWordChar c = true
  lexemes : ∀ lexeme ∈ s.lexemes, lexeme.Proper

namespace Scanner.Proper

variable {s : Scanner}

theorem settle (proper : s.Proper) : s.settle.Proper := by
  rcases s with ⟨offset, mode, lexemes⟩
  cases mode with
  | word first letters =>
      obtain ⟨some_, words⟩ := proper.letters first letters rfl
      refine ⟨nofun, fun lexeme member => ?_⟩
      rcases Array.mem_push.1 member with old | rfl
      · exact proper.lexemes lexeme old
      · intro name spelled
        exact .of_classify (by simpa using some_) (by simpa using words) spelled
  | _ => exact proper

theorem feed (proper : s.Proper) (c : Char) : (s.feed c).Proper := by
  have between : ∀ t : Scanner, t.Proper → (t.feedBetween c).Proper := by
    intro t proper
    rcases feedBetween_cases t c with ⟨token, step, plain⟩ | ⟨mode, step, begun⟩
    · rw [step]
      refine ⟨nofun, fun lexeme member => ?_⟩
      rcases Array.mem_push.1 member with old | rfl
      · exact proper.lexemes lexeme old
      · exact fun name spelled => absurd spelled (plain name)
    · rw [step]
      refine ⟨fun first letters same => ?_, proper.lexemes⟩
      obtain ⟨rfl, letter⟩ := begun first letters same
      exact ⟨List.cons_ne_nil _ _, by simpa using letter⟩
  rcases s with ⟨offset, mode, lexemes⟩
  cases mode with
  | between => exact between _ proper
  | comment =>
      unfold Scanner.feed
      dsimp only
      split <;> exact ⟨nofun, proper.lexemes⟩
  | word first letters =>
      unfold Scanner.feed
      dsimp only
      split
      · next letter =>
          refine ⟨?_, proper.lexemes⟩
          rintro _ _ ⟨⟩
          obtain ⟨_, words⟩ := proper.letters first letters rfl
          exact ⟨List.cons_ne_nil _ _, List.forall_mem_cons.2 ⟨letter, words⟩⟩
      · exact between _ proper.settle

end Scanner.Proper

/-- Every symbol of a text has the name of a word. -/
theorem proper_of_mem_lex {source : String} {lexeme : Lexeme} (member : lexeme ∈ lex source) :
    lexeme.Proper := by
  have all : ∀ (text : List Char) (s : Scanner), s.Proper → (text.foldl Scanner.feed s).Proper := by
    intro text
    induction text with
    | nil => exact fun s proper => proper
    | cons c text ih => exact fun s proper => ih _ (proper.feed c)
  have start : Scanner.start.Proper := ⟨nofun, by simp [Scanner.start]⟩
  exact (all source.toList _ start).settle.lexemes lexeme (Array.mem_toList_iff.1 member)

end LispMachine
