import LispMachine.Code
import LispMachine.Native

/-!
# Cells

A cell is a pair, a scalar, or free and then a link of the free list. Scalars
carry a tag; pairs carry none.
-/

namespace LispMachine

/-- Position of a module in the registry. -/
abbrev ModuleId := Nat

/-- Type tag of a value that is not a pair. -/
inductive Tag where
  | null
  | integer
  | symbol
  | native
  | function
  | expander
  | moduleCell
  | free
deriving DecidableEq

namespace Tag

/-- Every tag, in numbering order. -/
def all : List Tag :=
  [null, integer, symbol, native, function, expander, moduleCell, free]

/-- The number of a tag. -/
def number : Tag → Nat
  | null => 0
  | integer => 1
  | symbol => 2
  | native => 3
  | function => 4
  | expander => 5
  | moduleCell => 6
  | free => 7

/-- The label of a tag in diagnostics and statistics. -/
def label : Tag → String
  | null => "null"
  | integer => "integer"
  | symbol => "symbol"
  | native => "native-function"
  | function => "function"
  | expander => "macro"
  | moduleCell => "module"
  | free => "free"

end Tag

/-- Contents of a cell that is neither a pair nor free. A macro is the code of
    an expander. -/
inductive Scalar where
  | integer (value : Int64)
  | symbol (name : String)
  | native (native : Native)
  | function (code : Code)
  | expander (code : Code)
  | moduleCell (id : ModuleId)
deriving DecidableEq

namespace Scalar

/-- The tag of a scalar. -/
def tag : Scalar → Tag
  | integer _ => .integer
  | symbol _ => .symbol
  | native _ => .native
  | function _ => .function
  | expander _ => .expander
  | moduleCell _ => .moduleCell

/-- The code of a function or a macro. -/
def code? : Scalar → Option Code
  | function code => some code
  | expander code => some code
  | _ => none

/-- The cells that a scalar refers to. A module cell refers to none: the
    bindings of a module are roots of their own. -/
def children : Scalar → List Ref
  | function code => code.children
  | expander code => code.children
  | _ => []

end Scalar

/-- Contents of a heap cell. -/
inductive Cell where
  | pair (car cdr : Ref)
  | scalar (scalar : Scalar)
  | free (next : Ref)
deriving DecidableEq, Inhabited

namespace Cell

/-- Whether the cell is on the free list. -/
@[inline] def isFree : Cell → Bool
  | free _ => true
  | _ => false

/-- Whether the cell is a pair. -/
def isPair : Cell → Bool
  | pair _ _ => true
  | _ => false

/-- The tag of a scalar or free cell; a pair has none. -/
@[inline] def tag? : Cell → Option Tag
  | pair _ _ => none
  | scalar s => some s.tag
  | free _ => some .free

/-- The cells that a cell refers to. -/
def children : Cell → List Ref
  | pair car cdr => [car, cdr]
  | scalar s => s.children
  | free _ => []

end Cell

/-- A heap slot: a cell and its mark. -/
structure Entry where
  cell : Cell
  marked : Bool
deriving DecidableEq, Inhabited

end LispMachine
