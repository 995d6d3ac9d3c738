import LispMachine.Grapheme

/-!
# Lines of input

The lines of a text, as a session takes them. A backspace in a line takes back
the cluster before it.
-/

namespace LispMachine.CommandLine

/-! ## Backspaces -/

/-- A line in which backspaces have been carried out so far: its characters and
    the sizes of its clusters, both newest first. -/
structure Typed where
  text : List Char
  sizes : List Nat

/-- A text, newest character first, without its newest bytes. -/
def dropBytes : Nat → List Char → List Char
  | 0, text => text
  | _, [] => []
  | count, c :: rest => dropBytes (count - c.utf8Size) rest

/-- Size of a cluster in bytes. The size is kept in one byte. -/
def clusterSize (cluster : List Char) : Nat :=
  cluster.foldl (fun size c => size + c.utf8Size) 0 % 256

namespace Typed

/-- An empty line. -/
def empty : Typed := ⟨[], []⟩

/-- Takes back the newest cluster, if there is one. -/
def takeBack (t : Typed) : Typed :=
  match t.sizes with
  | [] => t
  | size :: sizes => ⟨dropBytes size t.text, sizes⟩

/-- Takes one cluster of the input. -/
def enter (t : Typed) (cluster : List Char) : Typed :=
  if cluster = ['\x08'] then t.takeBack
  else ⟨cluster.reverse ++ t.text, clusterSize cluster :: t.sizes⟩

end Typed

/-- A line after its backspaces. -/
def applyBackspaces (line : List Char) : List Char :=
  ((Grapheme.clusters line).foldl Typed.enter .empty).text.reverse

/-! ## Cutting a text into lines -/

/-- A line without the carriage return at its end. -/
def dropReturn (line : List Char) : List Char :=
  match line.reverse with
  | '\r' :: rest => rest.reverse
  | _ => line

/-- A line as the session takes it. -/
def lineText (line : List Char) : String := String.ofList (applyBackspaces line)

/-- The lines of a text, each without its end; a last line need not have one, and
    then keeps a carriage return at its end.
    `line` holds the characters of the current line, newest first, and `found`
    the lines before it. -/
def linesFrom : List Char → List Char → List String → List String
  | [], [], found => found.reverse
  | [], line, found => (lineText line.reverse :: found).reverse
  | '\n' :: rest, line, found =>
      linesFrom rest [] (lineText (dropReturn line.reverse) :: found)
  | c :: rest, line, found => linesFrom rest (c :: line) found

/-- The lines of a text. -/
def linesOf (text : String) : List String := linesFrom text.toList [] []

end LispMachine.CommandLine
