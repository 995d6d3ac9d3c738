import LispMachine.Text
import LispMachine.Token

/-!
# The lexer

One pass over the characters with three modes: between tokens, inside a comment
and inside a word. A word ends at the first character that cannot continue it,
so every word is as long as possible, and a newline always returns the scanner
to the mode between tokens.
-/

namespace LispMachine

/-- Blanks that separate tokens without being reported. -/
def isSkipped (c : Char) : Bool :=
  c == ' ' || c == '\t' || c == '\r' || c == '\n' || c == '\x0c'

/-- Characters that a word is made of. -/
def isWordChar (c : Char) : Bool :=
  !(c == '(' || c == ')' || c == '\x27' || c == ';' || c == '\x22' || Text.isBlank c)

/-- The integer that a word spells: an optional minus sign and digits. -/
def integerLiteral? (word : List Char) : Option Int :=
  match word with
  | '-' :: digits =>
      if digits ≠ [] ∧ digits.all Text.isDigit then some (-(Text.decimal digits : Int)) else none
  | digits =>
      if digits ≠ [] ∧ digits.all Text.isDigit then some (Text.decimal digits : Int) else none

/-- The machine integer of a mathematical value, if it is in range. -/
def machineInt? (value : Int) : Option Int64 :=
  if -9223372036854775808 ≤ value ∧ value < 9223372036854775808 then some (Int64.ofInt value)
  else none

/-- Reads a word as an integer if it spells one and as a symbol otherwise. -/
def classify (word : List Char) : Except LexError Token :=
  match integerLiteral? word with
  | some value =>
      match machineInt? value with
      | some value => .ok (.integer value)
      | none => .error (.integerTooBig (String.ofList word))
  | none => .ok (.symbol (String.ofList word))

/-- What the scanner is in the middle of. A word keeps its first byte and its
    characters, newest first. -/
inductive ScanMode where
  | between
  | comment
  | word (start : Nat) (letters : List Char)

/-- Scanner state: the bytes passed, the mode and the lexemes found. -/
structure Scanner where
  offset : Nat
  mode : ScanMode
  lexemes : Array Lexeme

namespace Scanner

/-- The scanner before any text. -/
def start : Scanner := ⟨0, .between, #[]⟩

/-- Closes the word in progress, if there is one. -/
def settle (s : Scanner) : Scanner :=
  match s with
  | ⟨offset, .word first letters, lexemes⟩ =>
      ⟨offset, .between, lexemes.push ⟨⟨first, offset⟩, classify letters.reverse⟩⟩
  | s => s

/-- Consumes a character that continues no word. -/
def feedBetween (s : Scanner) (c : Char) : Scanner :=
  match s with
  | ⟨offset, _, lexemes⟩ =>
      let next := offset + c.utf8Size
      let single (token : Except LexError Token) : Scanner :=
        ⟨next, .between, lexemes.push ⟨⟨offset, next⟩, token⟩⟩
      if c == '(' then single (.ok .openParen)
      else if c == ')' then single (.ok .closeParen)
      else if c == '\x27' then single (.ok .quote)
      else if c == ';' then ⟨next, .comment, lexemes⟩
      else if isSkipped c then ⟨next, .between, lexemes⟩
      else if isWordChar c then ⟨next, .word offset [c], lexemes⟩
      else single (.error .invalid)

/-- Consumes one character. -/
def feed (s : Scanner) (c : Char) : Scanner :=
  match s with
  | ⟨offset, .between, lexemes⟩ => feedBetween ⟨offset, .between, lexemes⟩ c
  | ⟨offset, .comment, lexemes⟩ =>
      if c == '\n' then ⟨offset + c.utf8Size, .between, lexemes⟩
      else ⟨offset + c.utf8Size, .comment, lexemes⟩
  | ⟨offset, .word first letters, lexemes⟩ =>
      if isWordChar c then ⟨offset + c.utf8Size, .word first (c :: letters), lexemes⟩
      else feedBetween (settle ⟨offset, .word first letters, lexemes⟩) c

end Scanner

/-- The lexemes of a text, in order. -/
def lexChars (text : List Char) : Array Lexeme :=
  (text.foldl Scanner.feed Scanner.start).settle.lexemes

/-- The lexemes of a program text, in order. -/
def lex (source : String) : List Lexeme :=
  (lexChars source.toList).toList

/-- Parenthesis depth after one more lexeme; a surplus closing parenthesis
    leaves the depth at zero and faults do not count. -/
def depthAfter (depth : Nat) (lexeme : Lexeme) : Nat :=
  match lexeme.token with
  | .ok .openParen => depth + 1
  | .ok .closeParen => depth - 1
  | _ => depth

/-- Whether every opening parenthesis of the text has been closed. -/
def isComplete (source : String) : Bool :=
  (lex source).foldl depthAfter 0 == 0

end LispMachine
