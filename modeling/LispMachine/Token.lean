/-!
# Tokens

What the text of a program is made of: parentheses, quote marks, integers and
symbols, each with the bytes it covers. A character that starts no token and an
integer outside the machine range are kept as faults in the same sequence.
-/

namespace LispMachine

/-- A word of program text. -/
inductive Token where
  | openParen
  | closeParen
  | quote
  | integer (value : Int64)
  | symbol (name : String)
deriving DecidableEq

/-- Why a stretch of text is not a token. -/
inductive LexError where
  | invalid
  | integerTooBig (literal : String)
deriving DecidableEq

/-- The wording of a lexical fault. -/
def LexError.message : LexError → String
  | .invalid => "invalid token encountered"
  | .integerTooBig literal => s!"integer literal out of range: {literal}"

/-- Byte range of a stretch of text, end excluded. -/
structure Span where
  start : Nat
  stop : Nat
deriving DecidableEq

/-- A token or a lexical fault together with the bytes it covers. -/
structure Lexeme where
  span : Span
  token : Except LexError Token

end LispMachine
