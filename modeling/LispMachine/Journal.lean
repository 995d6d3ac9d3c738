/-!
# The journal

Notes that the machine takes while it works, each with a level. A journal keeps
the notes at or above its own level and drops the others.
-/

namespace LispMachine

/-- Importance of a note. -/
inductive NoteLevel where
  | warn
  | debug
  | trace
deriving DecidableEq

namespace NoteLevel

/-- Position of a level, most important first. -/
def rank : NoteLevel → Nat
  | warn => 1
  | debug => 2
  | trace => 3

/-- The label of a level. -/
def label : NoteLevel → String
  | warn => "WARN"
  | debug => "DEBUG"
  | trace => "TRACE"

end NoteLevel

/-- A note of the journal. -/
structure Note where
  level : NoteLevel
  text : String
deriving DecidableEq

/-- The note with its level in front. -/
def Note.render (note : Note) : String := s!"{note.level.label} {note.text}"

/-- A journal: the least important level it keeps (none keeps nothing), its
    notes, and the number of heap arenas that it has taken note of. -/
structure Journal where
  level : Option NoteLevel
  notes : Array Note
  arenas : Nat
deriving Inhabited

namespace Journal

/-- An empty journal. -/
def ofLevel (level : Option NoteLevel) : Journal := ⟨level, #[], 0⟩

/-- Whether the journal keeps notes of a level. -/
def keeps (j : Journal) (level : NoteLevel) : Bool :=
  match j.level with
  | some least => level.rank ≤ least.rank
  | none => false

/-- Adds a note if the journal keeps its level. -/
def add (j : Journal) (level : NoteLevel) (text : String) : Journal :=
  if j.keeps level then { j with notes := j.notes.push ⟨level, text⟩ } else j

/-- Takes note of arenas one by one. -/
def growth (arenaSize : Nat) : Nat → Journal → Journal
  | 0, j => j
  | count + 1, j =>
      let arenas := j.arenas + 1
      let j := { j with arenas := arenas }
      growth arenaSize count
        (j.add .debug s!"heap grew to {arenas} arenas ({arenas * arenaSize} cells)")

/-- Takes note of every arena that was added since the last note of one. -/
def catchUp (j : Journal) (arenas arenaSize : Nat) : Journal :=
  growth arenaSize (arenas - j.arenas) j

/-- Takes note of every arena of another heap. The count of the arenas noted so
    far, which is of the journal's own heap, stays as it is. -/
def noteOther (j : Journal) (arenas arenaSize : Nat) : Journal :=
  { growth arenaSize arenas { j with arenas := 0 } with arenas := j.arenas }

end Journal

end LispMachine
