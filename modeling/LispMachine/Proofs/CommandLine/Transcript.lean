import LispMachine.CommandLine.Shell
import LispMachine.Proofs.Toplevel.Backdrop
import LispMachine.Proofs.Toplevel.Handles

/-!
# Transcripts

A transcript says of each form of a text what it prints and what it comes to. The shell writes
down a transcript: its output, its error text and its count of failures are read off it, and
the machine it leaves does not depend on whether values are echoed.
-/

namespace LispMachine

namespace Machine

variable {m : Machine}

/-- The machine with another output. -/
def withOutput (output : String) (m : Machine) : Machine := { m with output := output }

theorem note_withOutput (output : String) (m : Machine) (level : NoteLevel) {text : Machine → String}
    (same : text (m.withOutput output) = text m) :
    (m.withOutput output).note level text = (m.note level text).withOutput output := by
  have keeps : (m.withOutput output).journal.keeps level = m.journal.keeps level := rfl
  simp only [note, keeps, same]
  split <;> rfl

theorem collectIfDue_withOutput (output : String) (m : Machine) :
    (m.withOutput output).collectIfDue = m.collectIfDue.withOutput output := by
  have due : (m.withOutput output).config = m.config ∧ (m.withOutput output).heap = m.heap := ⟨rfl, rfl⟩
  simp only [collectIfDue, due]
  split
  · have caught : (m.withOutput output).catchUp = m.catchUp.withOutput output := rfl
    simp only [collectGarbage, caught]
    generalize m.catchUp = n
    exact @note_withOutput output (n.withHeap (n.heap.collect n.roots).2) .debug (fun _ => _) rfl
  · rfl

/-- What is printed does not depend on what was printed before. -/
theorem evalFormWith_withOutput (host : Host) (fuel : Nat) (form : Ref) (idle : m.callers = #[])
    (ready : m.Ready) (output : String) :
    evalFormWith host fuel form (m.withOutput output) =
      mapState (fun m' => m'.withOutput (output ++ m'.output))
        (evalFormWith host fuel form (m.withOutput "")) := by
  have alone : ∀ output, evalFormWith host fuel form (m.withOutput output) =
      mapState (m.withOutput output).resume (evalNoted host fuel m.user form
        ((m.withTop (m.top.push form)).collectIfDue.alone [])) := by
    intro output
    have parked : ((m.withOutput output).withTop (m.top.push form)).collectIfDue =
        (m.withTop (m.top.push form)).collectIfDue.withOutput output :=
      collectIfDue_withOutput output (m.withTop (m.top.push form))
    have apart := @evalFormWith_alone (m.withOutput output) host fuel form idle
      ⟨ready.wellFormed, ready.plain⟩ []
    rw [show (m.withOutput output).top = m.top from rfl, parked] at apart
    exact apart
  rw [alone output, alone ""]
  cases evalNoted host fuel m.user form ((m.withTop (m.top.push form)).collectIfDue.alone []) with
  | ok value q => simp [resume, withOutput]
  | error e q => simp [resume, withOutput]

theorem readForm_withOutput (output : String) (reader : Reader) (m : Machine) :
    readForm reader (m.withOutput output) =
      ((readForm reader m).1, (readForm reader m).2.1, (readForm reader m).2.2.withOutput output) := by
  have same : (m.withOutput output).store = m.store := rfl
  simp only [readForm, same]
  cases Reader.read (reader, m.store) <;> rfl

end Machine

namespace Machine

theorem Resting.withOutput {m : Machine} (resting : m.Resting) (output : String) :
    (m.withOutput output).Resting where
  intact := ⟨resting.intact.tidy, resting.intact.held, resting.intact.truth, resting.intact.named⟩
  safe := ⟨⟨resting.safe.store, resting.safe.modules, resting.safe.defined⟩, resting.safe.user⟩
  idle := resting.idle

end Machine

namespace CommandLine

/-- What became of one form of a text: the text of the form, what it printed, and the text of
    its value or its failure. Where a text cannot be read there is no form. -/
structure Entry where
  form : Option String
  printed : String
  outcome : Except EvalError String
deriving DecidableEq

namespace Entry

/-- What a form adds to the output, with its value if values are echoed. -/
def output (echo : Bool) (entry : Entry) : String :=
  match entry.outcome with
  | .ok text => if echo then (entry.printed ++ text).push '\n' else entry.printed
  | .error _ => entry.printed

/-- What a form adds to the error text. -/
def complaint (entry : Entry) : String :=
  match entry.outcome with
  | .ok _ => ""
  | .error e => e.message.push '\n'

/-- Whether a form failed. -/
def failed (entry : Entry) : Bool :=
  match entry.outcome with
  | .ok _ => false
  | .error _ => true

end Entry

/-- A transcript, and the machine at its end. -/
structure Transcript where
  entries : List Entry
  last : Machine

namespace Transcript

/-- The transcript with an entry before the others. -/
def after (entry : Entry) (t : Transcript) : Transcript := { t with entries := entry :: t.entries }

/-- Number of forms that failed. -/
def failures (t : Transcript) : Nat := (t.entries.filter Entry.failed).length

/-- What the shell comes to that writes the transcript down. -/
def shell (t : Transcript) (echo : Bool) (output errors : String) : Shell where
  machine := t.last.withOutput (output ++ String.join (t.entries.map (Entry.output echo)))
  errors := errors ++ String.join (t.entries.map Entry.complaint)

end Transcript

/-- The transcript of at most `count` forms. Each form starts with nothing printed. -/
def transcribe (fuel : Nat) : Nat → Reader → Machine → Option Transcript
  | 0, _, m => some ⟨[], m⟩
  | count + 1, reader, m =>
      match Machine.readForm reader m with
      | (.ok none, _, m) => some ⟨[], m⟩
      | (.error e, _, m) => some ⟨[⟨none, "", .error (.read e)⟩], m⟩
      | (.ok (some form), reader, m) =>
          let text := m.display form
          match Machine.evalForm fuel form (m.withOutput "") with
          | .ok value m =>
              (transcribe fuel count reader m).map
                (.after ⟨some text, m.output, .ok (m.display value)⟩)
          | .error (.failed e) m =>
              (transcribe fuel count reader m).map (.after ⟨some text, m.output, .error e⟩)
          | .error .outOfFuel _ => none

/-- The transcript of a text, up to the first form that cannot be read. None means that the
    fuel ended. -/
def transcript (fuel : Nat) (source : String) (m : Machine) : Option Transcript :=
  transcribe fuel ((lex source).length + 1) (.ofSource source) m

namespace Transcript

variable (t : Transcript) (echo : Bool) (output errors : String)

theorem failures_after (entry : Entry) :
    (t.after entry).failures = entry.failed.toNat + t.failures := by
  cases failed : entry.failed <;> simp [failures, after, failed, Nat.add_comm]

/-- The shell goes on from what the first form has added. -/
theorem shell_after (entry : Entry) :
    (t.after entry).shell echo output errors =
      t.shell echo (output ++ entry.output echo) (errors ++ entry.complaint) := by
  simp only [shell, after, List.map_cons, String.join_cons, String.append_assoc]

end Transcript

namespace Shell

/-- The shell writes down the transcript, with or without the values. -/
theorem evalForms_eq (fuel : Nat) (echo : Bool) (count : Nat) (reader : Reader) (failures : Nat)
    {m : Machine} (resting : m.Resting) (output errors : String) :
    evalForms fuel echo count reader failures ⟨m.withOutput output, errors⟩ =
      (transcribe fuel count reader m).map fun t => (failures + t.failures, t.shell echo output errors) := by
  induction count generalizing reader failures m output errors with
  | zero => simp [evalForms, transcribe, Transcript.failures, Transcript.shell]
  | succ count ih =>
      obtain ⟨rests₁, held⟩ := resting.readForm reader
      unfold evalForms transcribe
      dsimp only
      rw [Machine.readForm_withOutput]
      rcases read : Machine.readForm reader m with ⟨outcome, reader₁, m₁⟩
      rw [read] at rests₁ held
      rcases outcome with e | _ | form
      · simp [complain, Transcript.failures, Transcript.shell, List.filter_cons, Entry.failed,
          Entry.output, Entry.complaint, EvalError.message, String.push_eq_append, String.append_assoc]
      · simp [Transcript.failures, Transcript.shell]
      · dsimp only
        have rests₂ := ((rests₁.withOutput "").evalFormWith (Machine.serve fuel) fuel (held form rfl)).1
        unfold Machine.evalForm
        rw [Machine.evalFormWith_withOutput _ _ _ rests₁.idle rests₁.safe.heap.ready]
        cases ran : Machine.evalFormWith (Machine.serve fuel) fuel form (m₁.withOutput "") with
        | ok value m₂ =>
            rw [ran] at rests₂
            let entry : Entry := ⟨some (m₁.display form), m₂.output, .ok (m₂.display value)⟩
            have printed : (if echo then (m₂.withOutput (output ++ m₂.output)).printLine (m₂.display value)
                else m₂.withOutput (output ++ m₂.output)) =
                m₂.withOutput (output ++ entry.output echo) := by
              cases echo with
              | false => rfl
              | true => simp [entry, Machine.printLine, Machine.withOutput, Entry.output,
                  String.push_eq_append, String.append_assoc]
            refine (congrArg (fun m => evalForms fuel echo count reader₁ failures ⟨m, errors⟩) printed).trans ?_
            refine (ih reader₁ failures rests₂ _ errors).trans ?_
            dsimp only
            rw [Option.map_map]
            refine congrArg (Option.map · _) (funext fun t => ?_)
            simp [Transcript.failures_after, Transcript.shell_after, entry, Entry.failed, Entry.complaint]
        | error e m₂ =>
            rw [ran] at rests₂
            cases e with
            | outOfFuel => rfl
            | failed e =>
                refine (ih reader₁ (failures + 1) rests₂ (output ++ m₂.output)
                  ((errors ++ e.message).push '\n')).trans ?_
                dsimp only
                rw [Option.map_map]
                refine congrArg (Option.map · _) (funext fun t => ?_)
                simp [Transcript.failures_after, Transcript.shell_after, Entry.failed, Entry.complaint,
                  Entry.output, Nat.add_assoc, String.push_eq_append, String.append_assoc]

/-- What the shell writes, and the machine that it leaves, are those of the transcript of the
    text, whatever has been printed before. -/
theorem evalSource_withOutput (fuel : Nat) (echo : Bool) (source : String) {m : Machine}
    (resting : m.Resting) (output errors : String) :
    evalSource fuel echo source ⟨m.withOutput output, errors⟩ =
      (transcript fuel source m).map fun t => (t.failures, t.shell echo output errors) := by
  have same := evalForms_eq fuel echo ((lex source).length + 1) (.ofSource source) 0 resting output errors
  simp only [Nat.zero_add] at same
  exact same

theorem evalSource_eq (fuel : Nat) (echo : Bool) (source : String) {m : Machine}
    (resting : m.Resting) (errors : String) :
    evalSource fuel echo source ⟨m, errors⟩ =
      (transcript fuel source m).map fun t => (t.failures, t.shell echo m.output errors) :=
  evalSource_withOutput fuel echo source resting m.output errors

end Shell

end CommandLine

end LispMachine
