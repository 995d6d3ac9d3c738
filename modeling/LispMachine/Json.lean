import LispMachine.Double
import LispMachine.Text

/-!
# Reading JSON

A reader over JSON text that reports the first fault with its place: the line,
and the number of bytes of the line up to the fault. A fault is malformed text,
a text that ends early, or a well-formed value of the wrong kind.
-/

namespace LispMachine.Json

/-- The kind of a fault. -/
inductive FaultKind where
  | malformed
  | truncated
  | mismatch
deriving DecidableEq

/-- A fault and its place. -/
structure Fault where
  kind : FaultKind
  text : String
  line : Nat
  column : Nat
deriving DecidableEq

/-- The wording of a fault. -/
def Fault.message (fault : Fault) : String :=
  s!"{fault.text} at line {fault.line} column {fault.column}"

/-- The text ahead and the place reached. -/
structure Cursor where
  rest : List Char
  line : Nat
  column : Nat

/-- The start of a text. -/
def Cursor.ofText (text : String) : Cursor := ⟨text.toList, 1, 0⟩

/-- A step of reading. -/
abbrev Parse (α : Type) := EStateM Fault Cursor α

/-- Fails at the place reached. -/
def failHere {α : Type} (kind : FaultKind) (text : String) : Parse α := fun c =>
  .error ⟨kind, text, c.line, c.column⟩ c

/-- Fails at the next byte, or at the end of the text. -/
def failAhead {α : Type} (kind : FaultKind) (text : String) : Parse α := fun c =>
  match c.rest with
  | [] => .error ⟨kind, text, c.line, c.column⟩ c
  | '\n' :: _ => .error ⟨kind, text, c.line + 1, 0⟩ c
  | _ => .error ⟨kind, text, c.line, c.column + 1⟩ c

/-- The next character, which is left in place. -/
def peek : Parse (Option Char) := fun c => .ok c.rest.head? c

/-- Takes the next character. -/
def next : Parse (Option Char) := fun c =>
  match c.rest with
  | [] => .ok none c
  | '\n' :: rest => .ok (some '\n') ⟨rest, c.line + 1, 0⟩
  | x :: rest => .ok (some x) ⟨rest, c.line, c.column + x.utf8Size⟩

/-- Passes over the next character. -/
def advance : Parse Unit := do
  let _ ← next

/-- Number of characters ahead. -/
def remaining : Parse Nat := fun c => .ok c.rest.length c

/-- Whether at least `count` bytes are ahead. -/
def hasBytes (count : Nat) : Parse Bool := fun c =>
  .ok (count ≤ (c.rest.take count).foldl (fun bytes x => bytes + x.utf8Size) 0) c

/-- Whether a character separates tokens. -/
def isSpace (x : Char) : Bool := x == ' ' || x == '\n' || x == '\t' || x == '\r'

/-- The place after the blanks at a place. -/
def Cursor.afterSpace : List Char → Nat → Nat → Cursor
  | [], line, column => ⟨[], line, column⟩
  | '\n' :: rest, line, _ => afterSpace rest (line + 1) 0
  | x :: rest, line, column =>
      if isSpace x then afterSpace rest line (column + 1) else ⟨x :: rest, line, column⟩

/-- Passes over blanks and looks at the character after them. -/
def peekToken : Parse (Option Char) := fun c =>
  let c := Cursor.afterSpace c.rest c.line c.column
  .ok c.rest.head? c

/-- The text ends where a value should stand. -/
def endInValue {α : Type} : Parse α := failAhead .truncated "EOF while parsing a value"

/-- Takes the rest of a word such as `true`. -/
def word : List Char → Parse Unit
  | [] => return ()
  | x :: rest => do
      match ← next with
      | none => failHere .truncated "EOF while parsing a value"
      | some y => if x = y then word rest else failHere .malformed "expected ident"

/-! ## Strings -/

/-- The value of a hexadecimal digit. -/
def hexDigit? (x : Char) : Option Nat :=
  if '0' ≤ x ∧ x ≤ '9' then some (x.toNat - '0'.toNat)
  else if 'a' ≤ x ∧ x ≤ 'f' then some (x.toNat - 'a'.toNat + 10)
  else if 'A' ≤ x ∧ x ≤ 'F' then some (x.toNat - 'A'.toNat + 10)
  else none

/-- The next character of a string that has not ended. -/
def nextInString : Parse Char := do
  match ← next with
  | some x => return x
  | none => failHere .truncated "EOF while parsing a string"

/-- Passes over the rest of the text. -/
def toEnd : Nat → Parse Unit
  | 0 => return ()
  | count + 1 => do
      advance
      toEnd count

/-- The value of hexadecimal digits after `value`. -/
def hexDigits : Nat → Nat → Parse Nat
  | 0, value => return value
  | count + 1, value => do
      match hexDigit? (← nextInString) with
      | some digit => hexDigits count (value * 16 + digit)
      | none => failHere .malformed "invalid escape"

/-- The number of an escape, in four hexadecimal digits. A text with fewer than
    four bytes ahead ends inside the escape, whatever the bytes are. -/
def escapeNumber : Parse Nat := do
  if ← hasBytes 4 then hexDigits 4 0
  else
    toEnd (← remaining)
    failHere .truncated "EOF while parsing a string"

/-- The character of an escape by number, once its first four digits are read.
    Two escapes make up one character beyond the first plane. -/
def pairedEscape (first : Nat) : Parse Char := do
  if 0xDC00 ≤ first ∧ first ≤ 0xDFFF then
    failHere .malformed "lone leading surrogate in hex escape"
  else if 0xD800 ≤ first ∧ first ≤ 0xDBFF then
    if (← nextInString) ≠ '\x5c' then failHere .malformed "unexpected end of hex escape"
    else if (← nextInString) ≠ 'u' then failHere .malformed "unexpected end of hex escape"
    else
      let second ← escapeNumber
      if 0xDC00 ≤ second ∧ second ≤ 0xDFFF then
        return Char.ofNat ((first - 0xD800) * 0x400 + (second - 0xDC00) + 0x10000)
      else failHere .malformed "lone leading surrogate in hex escape"
  else return Char.ofNat first

/-- The character of an escape. When the string is only passed over, an escape by
    number need not name a character. -/
def escape (strict : Bool) : Parse Char := do
  match ← nextInString with
  | '\x22' => return '\x22'
  | '\x5c' => return '\x5c'
  | '/' => return '/'
  | 'b' => return '\x08'
  | 'f' => return '\x0c'
  | 'n' => return '\n'
  | 'r' => return '\r'
  | 't' => return '\t'
  | 'u' => do
      let first ← escapeNumber
      if strict then pairedEscape first else return '?'
  | _ => failHere .malformed "invalid escape"

/-- Reads a string of at most `count` characters after its opening mark. -/
def stringBody (strict : Bool) : Nat → String → Parse String
  | 0, _ => failHere .truncated "EOF while parsing a string"
  | count + 1, out => do
      let x ← nextInString
      if x = '\x22' then return out
      else if x = '\x5c' then stringBody strict count (out.push (← escape strict))
      else if x.toNat < 0x20 then
        failHere .malformed
          "control character (\\u0000-\\u001F) found while parsing a string"
      else stringBody strict count (out.push x)

/-- Reads a string after its opening mark. -/
def string : Parse String := do
  stringBody true ((← remaining) + 1) ""

/-- Passes over a string after its opening mark. -/
def skipString : Parse Unit := do
  let _ ← stringBody false ((← remaining) + 1) ""

/-! ## Numbers -/

/-- A number: a natural number in machine range, a negative integer in machine
    range, or any other number by its text. -/
inductive Number where
  | natural (value : Nat)
  | negative (value : Nat)
  | real (text : String)

/-- Takes the digits ahead. -/
def digits : Parse (List Char) := fun c =>
  let found := c.rest.takeWhile Text.isDigit
  .ok found ⟨c.rest.dropWhile Text.isDigit, c.line, c.column + found.length⟩

/-- The digits before the point: no leading zero. -/
def whole : Parse (List Char) := do
  match ← next with
  | none => failHere .truncated "EOF while parsing a value"
  | some '0' => do
      match ← peek with
      | some x => if Text.isDigit x then failAhead .malformed "invalid number" else return ['0']
      | none => return ['0']
  | some x =>
      if Text.isDigit x then return x :: (← digits) else failHere .malformed "invalid number"

/-- The digits after a point. -/
def fraction : Parse (List Char) := do
  match ← peek with
  | some '.' => do
      advance
      match ← digits with
      | [] => do
          match ← peek with
          | some _ => failAhead .malformed "invalid number"
          | none => endInValue
      | found => return found
  | _ => return []

/-- The power of ten after an exponent mark. -/
def exponent : Parse Int := do
  match ← peek with
  | some x =>
      if x = 'e' ∨ x = 'E' then do
        advance
        let sign ← peek
        if sign = some '+' ∨ sign = some '-' then advance
        match ← next with
        | none => failHere .truncated "EOF while parsing a value"
        | some first =>
            if Text.isDigit first then do
              let value := Text.decimal (first :: (← digits))
              return if sign = some '-' then -(value : Int) else value
            else failHere .malformed "invalid number"
      else return 0
  | none => return 0

/-- Appends decimal digits to a value as long as it fits a word of 64 bits; the
    digits from the first that does not fit are left over. -/
def absorb (value : Nat) : List Char → Nat × List Char
  | [] => (value, [])
  | x :: rest =>
      let extended := value * 10 + (x.toNat - '0'.toNat)
      if extended < 18446744073709551616 then absorb extended rest else (value, x :: rest)

/-- Reads a number after its sign. A number that is not a whole number of a word
    is a significand of one word times a power of ten: digits left over before
    the point raise the power, digits taken after the point lower it. -/
def number (positive : Bool) : Parse Number := do
  let whole ← whole
  let start ← peek
  let fraction ← fraction
  let mark ← peek
  let exponent ← exponent
  let (value, dropped) := absorb 0 whole
  let isReal := start = some '.' ∨ mark = some 'e' ∨ mark = some 'E'
  if isReal ∨ dropped ≠ [] then
    let (significand, ignored) := absorb value fraction
    let taken := fraction.length - ignored.length
    let power := (dropped.length : Int) - taken + exponent
    if Double.scaledOverflows significand power then failHere .malformed "number out of range"
    else
      let sign := if positive then "" else "-"
      let point := if fraction = [] then "" else "."
      return .real (sign ++ String.ofList whole ++ point ++ String.ofList fraction)
  else if positive then return .natural value
  else if 0 < value ∧ value ≤ 9223372036854775808 then return .negative value
  else return .real s!"-{value}"

/-- Passes over a number after its sign. -/
def skipNumber : Parse Unit := do
  match ← next with
  | some '0' => do
      if (← peek).any Text.isDigit then failAhead .malformed "invalid number"
  | some x =>
      if Text.isDigit x then
        let _ ← digits
      else failHere .malformed "invalid number"
  | none => failHere .malformed "invalid number"
  if (← peek) = some '.' then
    advance
    if (← digits) = [] then failAhead .malformed "invalid number"
  let mark ← peek
  if mark = some 'e' ∨ mark = some 'E' then
    advance
    let sign ← peek
    if sign = some '+' ∨ sign = some '-' then advance
    match ← next with
    | some x => if Text.isDigit x then let _ ← digits else failHere .malformed "invalid number"
    | none => failHere .malformed "invalid number"

/-! ## Passing over values -/

/-- An open array or object. -/
inductive Bracket where
  | array
  | object
deriving DecidableEq

/-- The text ends inside a bracket. -/
def endInside {α : Type} : Bracket → Parse α
  | .array => failAhead .truncated "EOF while parsing a list"
  | .object => failAhead .truncated "EOF while parsing an object"

/-- Passes over the colon after a key. -/
def colon : Parse Unit := do
  match ← peekToken with
  | some ':' => advance
  | some _ => failAhead .malformed "expected `:`"
  | none => endInside .object

/-- Passes over the key of a member of an ignored object. -/
def skipKey : Parse Unit := do
  match ← peekToken with
  | some '\x22' => do
      advance
      skipString
      colon
  | some _ => failAhead .malformed "key must be a string"
  | none => endInside .object

/-- Passes over a value that is not bracketed, or opens a bracket. -/
def skipStart : Parse (Option Bracket) := do
  match ← peekToken with
  | none => endInValue
  | some 'n' => do advance; word ['u', 'l', 'l']; return none
  | some 't' => do advance; word ['r', 'u', 'e']; return none
  | some 'f' => do advance; word ['a', 'l', 's', 'e']; return none
  | some '-' => do advance; skipNumber; return none
  | some '\x22' => do advance; skipString; return none
  | some '[' => do advance; return some .array
  | some '\x7b' => do advance; return some .object
  | some x =>
      if Text.isDigit x then do skipNumber; return none
      else failAhead .malformed "expected value"

/-- Closes brackets after a value or an opening, until a further value is due in
    the innermost open bracket; none when no bracket is left. -/
def skipClosings : Bool → List Bracket → Parse (Option (List Bracket))
  | _, [] => return none
  | afterValue, bracket :: outer => do
      match ← peekToken, bracket with
      | none, _ => endInside bracket
      | some ']', .array => do advance; skipClosings true outer
      | some '\x7d', .object => do advance; skipClosings true outer
      | some ',', _ =>
          if afterValue then do advance; return some (bracket :: outer)
          else return some (bracket :: outer)
      | some _, .array =>
          if afterValue then failAhead .malformed "expected `,` or `]`"
          else return some (bracket :: outer)
      | some _, .object =>
          if afterValue then failAhead .malformed "expected `,` or `\x7d`"
          else return some (bracket :: outer)

/-- Passes over values until every open bracket is closed. -/
def skipInside : Nat → List Bracket → Parse Unit
  | 0, _ => endInValue
  | count + 1, open_ => do
      if open_.head? = some .object then skipKey
      let opened ← skipStart
      let (afterValue, open_) :=
        match opened with
        | some bracket => (false, bracket :: open_)
        | none => (true, open_)
      match ← skipClosings afterValue open_ with
      | none => return ()
      | some open_ => skipInside count open_

/-- Passes over one value. -/
def skipValue : Parse Unit := do
  skipInside ((← remaining) + 1) []

/-! ## Wrong kinds of value -/

/-- A string as it is quoted in a fault. -/
def quoted (text : String) : String :=
  let escaped := text.toList.flatMap fun x =>
    if x = '\x22' then ['\x5c', '\x22']
    else if x = '\x5c' then ['\x5c', '\x5c']
    else if x = '\n' then ['\x5c', 'n']
    else if x = '\r' then ['\x5c', 'r']
    else if x = '\t' then ['\x5c', 't']
    else [x]
  String.ofList (['\x22'] ++ escaped ++ ['\x22'])

/-- Fails because a value of another kind was expected. -/
def wrongKind {α : Type} (found expected : String) : Parse α :=
  failHere .mismatch s!"invalid type: {found}, expected {expected}"

/-- How a number is named in a fault. -/
def Number.describe : Number → String
  | .natural value => s!"integer `{value}`"
  | .negative value => s!"integer `-{value}`"
  | .real text => s!"floating point `{text}`"

/-- Reads the value ahead, whose kind is not the expected one, and fails. -/
def refuse {α : Type} (expected : String) : Parse α := do
  match ← peekToken with
  | none => endInValue
  | some 'n' => do advance; word ['u', 'l', 'l']; wrongKind "null" expected
  | some 't' => do advance; word ['r', 'u', 'e']; wrongKind "boolean `true`" expected
  | some 'f' => do advance; word ['a', 'l', 's', 'e']; wrongKind "boolean `false`" expected
  | some '-' => do
      advance
      wrongKind (← number false).describe expected
  | some '\x22' => do
      advance
      wrongKind s!"string {quoted (← string)}" expected
  | some '[' => wrongKind "sequence" expected
  | some '\x7b' => wrongKind "map" expected
  | some x =>
      if Text.isDigit x then do wrongKind (← number true).describe expected
      else failAhead .malformed "expected value"

/-- Reads a natural number in machine range. -/
def natural : Parse Nat := do
  let expected := "usize"
  match ← peekToken with
  | some '-' => do
      advance
      match ← number false with
      | .negative value =>
          failHere .mismatch s!"invalid value: integer `-{value}`, expected {expected}"
      | found => wrongKind found.describe expected
  | some x =>
      if Text.isDigit x then do
        match ← number true with
        | .natural value => return value
        | found => wrongKind found.describe expected
      else refuse expected
  | none => endInValue

/-- Reads a natural number or `null`. -/
def natural? : Parse (Option Nat) := do
  match ← peekToken with
  | some 'n' => do advance; word ['u', 'l', 'l']; return none
  | _ => return some (← natural)

/-- Reads a truth value. -/
def boolean : Parse Bool := do
  match ← peekToken with
  | some 't' => do advance; word ['r', 'u', 'e']; return true
  | some 'f' => do advance; word ['a', 'l', 's', 'e']; return false
  | some _ => refuse "a boolean"
  | none => endInValue

/-- Fails unless only blanks are left. -/
def finish : Parse Unit := do
  if (← peekToken).isSome then failAhead .malformed "trailing characters"

end LispMachine.Json
