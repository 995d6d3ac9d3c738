import LispMachine.Text
import LispMachine.Opcode

/-!
# Code listings

A listing has one line per instruction: its offset, its operation and its
operand. Words that encode no operation and operations whose operand word is
missing have lines of their own, so no word is left out.
-/

namespace LispMachine

/-- One line of a listing. -/
inductive ListingLine where
  | unknown (pos : Nat) (word : UInt16)
  | plain (pos : Nat) (op : Opcode)
  | operand (pos : Nat) (op : Opcode) (value : UInt16)
  | missing (pos : Nat) (op : Opcode)
deriving DecidableEq

namespace ListingLine

/-- The text of a line, with its line end. -/
def render : ListingLine → String
  | unknown pos word => s!"{Text.offset pos} ??? {word.toNat}\n"
  | plain pos op => s!"{Text.offset pos} {op.mnemonic}\n"
  | operand pos op value => s!"{Text.offset pos} {op.mnemonic} {value.toNat}\n"
  | missing pos op => s!"{Text.offset pos} {op.mnemonic} <missing>\n"

/-- The words that a line stands for. -/
def words : ListingLine → List UInt16
  | unknown _ word => [word]
  | plain _ op => [op.word]
  | operand _ op value => [op.word, value]
  | missing _ op => [op.word]

end ListingLine

/-- The listing lines of the words that start at an offset. -/
def listingFrom : Nat → List UInt16 → List ListingLine
  | _, [] => []
  | pos, [w] =>
      match Opcode.ofWord? w with
      | none => [.unknown pos w]
      | some op => if op.width = 1 then [.missing pos op] else [.plain pos op]
  | pos, w :: x :: rest =>
      match Opcode.ofWord? w with
      | none => .unknown pos w :: listingFrom (pos + 1) (x :: rest)
      | some op =>
          if op.width = 1 then .operand pos op x :: listingFrom (pos + 2) rest
          else .plain pos op :: listingFrom (pos + 1) (x :: rest)

/-- The listing of a code sequence. -/
def listing (words : List UInt16) : String :=
  String.join ((listingFrom 0 words).map ListingLine.render)

end LispMachine
