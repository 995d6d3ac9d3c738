import LispMachine.Grapheme.Table

/-!
# Grapheme clusters

A cluster is what a reader takes for one character: a letter with its marks, a
syllable, a flag, a pictograph made of several. A text is cut into clusters from
left to right, and whether there is a cut before a character depends on the
class of the character and on what the cluster so far ends with.

The main statement is `flatten_clusters`: cutting loses nothing.
-/

namespace LispMachine.Grapheme

/-- How a character takes part in clusters. A linker is a mark that may also bind
    the consonant after it. -/
inductive Class where
  | carriageReturn
  | lineFeed
  | control
  | extend
  | linker
  | nonJoiner
  | joiner
  | spacing
  | prepend
  | regional
  | leading
  | vowel
  | trailing
  | openSyllable
  | closedSyllable
  | pictograph
  | consonant
  | other
deriving DecidableEq

namespace Class

/-- The class of a code point among the first 128. -/
def ofAscii (n : Nat) : Class :=
  if n = 13 then carriageReturn
  else if n = 10 then lineFeed
  else if n < 32 ∨ n = 127 then control
  else other

/-- The class of a precomposed Hangul syllable, by its place in the block. Every
    28th syllable has no trailing consonant. -/
def ofSyllable (place : Nat) : Class :=
  if place % 28 = 0 then openSyllable else closedSyllable

/-- The class of a code point by the tables. -/
def ofTables (n : Nat) : Class :=
  if inRanges extendRanges n then extend
  else if inRanges linkerRanges n then linker
  else if inRanges spacingRanges n then spacing
  else if inRanges consonantRanges n then consonant
  else if inRanges pictographRanges n then pictograph
  else if inRanges controlRanges n then control
  else if inRanges prependRanges n then prepend
  else if inRanges leadingRanges n then leading
  else if inRanges vowelRanges n then vowel
  else if inRanges trailingRanges n then trailing
  else other

/-- The class of a character. -/
def of (c : Char) : Class :=
  let n := c.toNat
  if n < 0x80 then ofAscii n
  else if n = 0x200C then nonJoiner
  else if n = 0x200D then joiner
  else if 0x1F1E6 ≤ n ∧ n ≤ 0x1F1FF then regional
  else if 0xAC00 ≤ n ∧ n ≤ 0xD7A3 then ofSyllable (n - 0xAC00)
  else ofTables n

/-- Characters that stand alone. -/
def standsAlone : Class → Bool
  | carriageReturn => true
  | lineFeed => true
  | control => true
  | _ => false

/-- Characters that belong to what stands before them. -/
def attaches : Class → Bool
  | extend => true
  | linker => true
  | nonJoiner => true
  | joiner => true
  | spacing => true
  | _ => false

/-- Whether two parts of a syllable belong together. -/
def composes : Class → Class → Bool
  | leading, leading => true
  | leading, vowel => true
  | leading, openSyllable => true
  | leading, closedSyllable => true
  | vowel, vowel => true
  | vowel, trailing => true
  | openSyllable, vowel => true
  | openSyllable, trailing => true
  | trailing, trailing => true
  | closedSyllable, trailing => true
  | _, _ => false

end Class

/-- How far a conjunct has come: a consonant with marks, among them a linker or
    not. -/
inductive Conjunct where
  | absent
  | begun
  | linked
deriving DecidableEq

/-- What a cluster ends with: the class of its last character; whether an odd
    number of regional indicators stands there, whether a pictograph with nothing
    but extending characters behind it, and whether such a sequence and a joiner;
    and the conjunct. -/
structure Ending where
  last : Class
  oddRegionals : Bool
  pictograph : Bool
  joined : Bool
  conjunct : Conjunct

namespace Ending

/-- The pictograph part after one more character. -/
def pictographAfter (before : Bool) : Class → Bool
  | .pictograph => true
  | .extend => before
  | .linker => before
  | .nonJoiner => before
  | _ => false

/-- The conjunct after one more character. -/
def conjunctAfter (before : Conjunct) : Class → Conjunct
  | .consonant => .begun
  | .linker => if before = .absent then .absent else .linked
  | .extend => before
  | .joiner => before
  | _ => .absent

/-- The ending after one more character. -/
def next (e : Ending) (c : Class) : Ending where
  last := c
  oddRegionals := c == .regional && !e.oddRegionals
  pictograph := pictographAfter e.pictograph c
  joined := c == .joiner && e.pictograph
  conjunct := conjunctAfter e.conjunct c

/-- The ending of a cluster of one character. -/
def ofClass (c : Class) : Ending := next ⟨.other, false, false, false, .absent⟩ c

/-- Whether a character goes on with a sequence that the cluster has begun: a
    second regional indicator, a pictograph behind a joiner, a consonant behind a
    linker. -/
def continues (e : Ending) : Class → Bool
  | .regional => e.oddRegionals
  | .pictograph => e.joined
  | .consonant => e.conjunct == .linked
  | _ => false

/-- Whether a character belongs to the cluster before it. -/
def accepts (e : Ending) (c : Class) : Bool :=
  if e.last.standsAlone || c.standsAlone then e.last == .carriageReturn && c == .lineFeed
  else c.attaches || e.last == .prepend || e.last.composes c || e.continues c

end Ending

/-- Cuts a text into clusters; `cluster` is the one in progress, newest character
    first. -/
def split : Ending → List Char → List Char → List (List Char)
  | _, cluster, [] => [cluster.reverse]
  | ending, cluster, c :: rest =>
      let kind := Class.of c
      if ending.accepts kind then split (ending.next kind) (c :: cluster) rest
      else cluster.reverse :: split (.ofClass kind) [c] rest

/-- The clusters of a text. -/
def clusters : List Char → List (List Char)
  | [] => []
  | c :: rest => split (.ofClass (.of c)) [c] rest

theorem flatten_split (ending : Ending) (cluster text : List Char) :
    (split ending cluster text).flatten = cluster.reverse ++ text := by
  induction text generalizing ending cluster with
  | nil => simp [split]
  | cons c rest ih =>
    rw [split]
    split
    · rw [ih]
      simp
    · rw [List.flatten_cons, ih]
      simp

/-- The clusters of a text are the text. -/
theorem flatten_clusters (text : List Char) : (clusters text).flatten = text := by
  cases text with
  | nil => rfl
  | cons c rest =>
    rw [clusters, flatten_split]
    rfl

end LispMachine.Grapheme
