import LispMachine.Store
import LispMachine.Token.Lexer

/-!
# The reader

Turns lexemes into data. The reader works with a stack of contexts, one for each
form that is still open, so that it consumes one lexeme per step and needs no
recursion on nested lists. A read that fails has consumed everything up to and
including the lexeme that made it fail.
-/

namespace LispMachine

/-- Why no form could be read. -/
inductive ReadError where
  | lex (error : LexError) (span : Span)
  | unbalancedClose (offset : Nat)
  | unexpectedEnd
  | misplacedDot (offset : Nat)
  | heap (error : HeapError)
deriving DecidableEq

/-- The wording of a read failure. -/
def ReadError.message : ReadError → String
  | .lex error span => s!"{error.message} at {span.start}..{span.stop}"
  | .unbalancedClose offset => s!"unexpected `)` at offset {offset}"
  | .unexpectedEnd => "unexpected end of input inside a list"
  | .misplacedDot offset => s!"misplaced `.` at offset {offset}"
  | .heap error => error.message

/-- Text still to be read: the lexemes ahead, the byte offset just past the last
    lexeme consumed, and the byte length of the whole text. -/
structure Reader where
  ahead : List Lexeme
  offset : Nat
  length : Nat

/-- A reader at the start of a text. -/
def Reader.ofSource (source : String) : Reader :=
  ⟨lex source, 0, source.utf8ByteSize⟩

/-- A form that is still open. Items are kept newest first; `dot` is the offset
    of the dot of a dotted list. -/
inductive Context where
  /-- After a quote mark. -/
  | quote
  /-- Inside a list, after these items. -/
  | list (items : List Ref)
  /-- After the dot, before the tail. -/
  | tail (dot : Nat) (items : List Ref)
  /-- After the tail, before the closing parenthesis. -/
  | close (dot : Nat) (items : List Ref) (tail : Ref)

/-- What a lexeme leaves to be done: read on inside these contexts, or stop with
    the finished form. -/
inductive Progress where
  | more (contexts : List Context)
  | done (form : Ref)

namespace Reader

/-- Carries out a heap operation on behalf of the reader. -/
@[inline] def onHeap {α : Type} (action : EStateM HeapError Heap α) :
    EStateM ReadError Store α := fun s =>
  match Store.onHeap action s with
  | .ok value s => .ok value s
  | .error e s => .error (.heap e) s

/-- Interns a name on behalf of the reader. -/
@[inline] def intern (name : String) : EStateM ReadError Store Ref := fun s =>
  match Store.intern name s with
  | .ok value s => .ok value s
  | .error e s => .error (.heap e) s

/-- Hands a finished form to the contexts around it. -/
def plug : List Context → Ref → EStateM ReadError Store Progress
  | [], form => return .done form
  | .quote :: outer, form => do
      let quote ← intern Keyword.quote.name
      let quoted ← onHeap (Heap.list [quote, form])
      plug outer quoted
  | .list items :: outer, form => return .more (.list (form :: items) :: outer)
  | .tail dot items :: outer, form => return .more (.close dot items form :: outer)
  | .close dot _ _ :: _, _ => throw (.misplacedDot dot)

/-- Takes a token that begins a form. -/
def startForm (contexts : List Context) (token : Token) (start : Nat) :
    EStateM ReadError Store Progress := do
  match token with
  | .openParen => return .more (.list [] :: contexts)
  | .closeParen => throw (.unbalancedClose start)
  | .quote => return .more (.quote :: contexts)
  | .integer value => plug contexts (← onHeap (Heap.integer value))
  | .symbol name =>
      if name = "." then throw (.misplacedDot start)
      else plug contexts (← intern name)

/-- Takes one token inside the given contexts. -/
def advance (contexts : List Context) (token : Token) (start : Nat) :
    EStateM ReadError Store Progress := do
  match contexts with
  | .close dot items tail :: outer =>
      match token with
      | .closeParen => plug outer (← onHeap (Heap.listWithTail items.reverse tail))
      | _ => throw (.misplacedDot dot)
  | .list items :: outer =>
      match token with
      | .closeParen => plug outer (← onHeap (Heap.list items.reverse))
      | .symbol "." =>
          if items = [] then throw (.misplacedDot start)
          else return .more (.tail start items :: outer)
      | token => startForm contexts token start
  | contexts => startForm contexts token start

/-- Reads lexemes until the contexts are closed. At the end of the text the
    result is no form when nothing is open. -/
def readFrom (length : Nat) :
    List Context → List Lexeme → Store → EStateM.Result ReadError (Reader × Store) (Option Ref)
  | contexts, [], s =>
      match contexts with
      | [] => .ok none (⟨[], length, length⟩, s)
      | _ => .error .unexpectedEnd (⟨[], length, length⟩, s)
  | _, ⟨span, .error e⟩ :: ahead, s => .error (.lex e span) (⟨ahead, span.stop, length⟩, s)
  | contexts, ⟨span, .ok token⟩ :: ahead, s =>
      match advance contexts token span.start s with
      | .error e s => .error e (⟨ahead, span.stop, length⟩, s)
      | .ok (.done form) s => .ok (some form) (⟨ahead, span.stop, length⟩, s)
      | .ok (.more contexts) s => readFrom length contexts ahead s

/-- Reads one form; none at the end of the text. -/
def read : EStateM ReadError (Reader × Store) (Option Ref) := fun (reader, s) =>
  readFrom reader.length [] reader.ahead s

/-- Reads forms until the end of the text, with a bound on their number. -/
def readMany : Nat → Reader → Store → List Ref → EStateM.Result ReadError Store (List Ref)
  | 0, _, s, found => .ok found.reverse s
  | bound + 1, reader, s, found =>
      match read (reader, s) with
      | .error e (_, s) => .error e s
      | .ok none (_, s) => .ok found.reverse s
      | .ok (some form) (reader, s) => readMany bound reader s (form :: found)

/-- Reads every form of a text. Each form takes at least one lexeme. -/
def readAll (source : String) : EStateM ReadError Store (List Ref) := fun s =>
  let reader := ofSource source
  readMany (reader.ahead.length + 1) reader s []

end Reader

end LispMachine
