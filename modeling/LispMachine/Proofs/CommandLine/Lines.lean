import LispMachine.CommandLine.Repl
import LispMachine.Proofs.CommandLine.Transcript
import LispMachine.Proofs.Reader.Balance
import Mathlib.Data.List.TakeWhile

/-!
# Lines and texts

A session gathers lines until their parentheses balance and evaluates what it has gathered; a
text is evaluated as a whole. Both evaluate the same forms in the same machines: where the
parentheses balance no form is cut, unless a quote mark is pending.
-/

namespace LispMachine

namespace Machine

theorem readForm_ok {m m' : Machine} {reader reader' : Reader} {form : Option Ref}
    (done : readForm reader m = (.ok form, reader', m')) :
    ∃ store, Reader.read (reader, m.store) = .ok form (reader', store) ∧ m' = { m with store := store } := by
  unfold readForm at done
  dsimp only at done
  split at done
  · next form' reader₁ store read =>
      cases done
      exact ⟨store, read, rfl⟩
  · cases done

theorem readForm_of_read {m : Machine} {reader reader' : Reader} {store : Store} {form : Option Ref}
    (read : Reader.read (reader, m.store) = .ok form (reader', store)) :
    readForm reader m = (.ok form, reader', { m with store := store }) := by
  unfold readForm
  dsimp only
  rw [read]

end Machine

namespace CommandLine

open Machine

namespace Shell

/-- Evaluates a form that has been read, and shows its value or its failure. -/
def evalForm (fuel : Nat) (echo : Bool) (form : Ref) : Shell → Option Shell
  | ⟨m, errors⟩ =>
      match Machine.evalForm fuel form m with
      | .ok value m => some ⟨if echo then m.printLine (m.display value) else m, errors⟩
      | .error (.failed e) m => some (complain ⟨m, errors⟩ e.message)
      | .error .outOfFuel _ => none

/-- The forms that are evaluated, each with the machine in which it is, and the failure of the
    read that ends them. -/
def course (fuel : Nat) (echo : Bool) :
    Nat → Reader → Shell → List (Ref × Machine) × Option ReadError
  | 0, _, _ => ([], none)
  | count + 1, reader, ⟨m, errors⟩ =>
      match Machine.readForm reader m with
      | (.ok none, _, _) => ([], none)
      | (.error e, _, _) => ([], some e)
      | (.ok (some form), reader, m) =>
          match evalForm fuel echo form ⟨m, errors⟩ with
          | none => ([(form, m)], none)
          | some s =>
              let (calls, e) := course fuel echo count reader s
              ((form, m) :: calls, e)

/-- The course of a whole text. -/
def courseOf (fuel : Nat) (echo : Bool) (source : String) (s : Shell) :
    List (Ref × Machine) × Option ReadError :=
  course fuel echo ((lex source).length + 1) (.ofSource source) s

/-- The forms of the lexemes are all read and evaluated, in these machines, and the shell comes
    to this. -/
inductive Evaluates (fuel : Nat) (echo : Bool) :
    List Lexeme → Shell → List (Ref × Machine) → Shell → Prop where
  | nil (s : Shell) : Evaluates fuel echo [] s [] s
  | cons {ahead later : List Lexeme} {m : Machine} {errors : String} {store : Store} {form : Ref}
      {s s' : Shell} {calls : List (Ref × Machine)} :
      Reader.Gives ahead m.store form later store →
      evalForm fuel echo form ⟨{ m with store := store }, errors⟩ = some s →
      Evaluates fuel echo later s calls s' →
      Evaluates fuel echo ahead ⟨m, errors⟩ ((form, { m with store := store }) :: calls) s'

section

variable {fuel : Nat} {echo : Bool} {ahead front rest : List Lexeme} {s s' : Shell}
  {calls : List (Ref × Machine)}

/-- One form, and then the others. -/
theorem evalForms_cons {reader reader' : Reader} {m m' : Machine} {form : Ref}
    (read : Machine.readForm reader m = (.ok (some form), reader', m')) (count failures : Nat)
    (errors : String) :
    ∃ failures', evalForms fuel echo (count + 1) reader failures ⟨m, errors⟩ =
      (evalForm fuel echo form ⟨m', errors⟩).bind (evalForms fuel echo count reader' failures') := by
  simp only [evalForms, evalForm, read]
  cases Machine.evalForm fuel form m' with
  | ok value m₂ => exact ⟨failures, by simp only [Option.bind_some]⟩
  | error e m₂ =>
      cases e with
      | failed e => exact ⟨failures + 1, by simp only [Option.bind_some]⟩
      | outOfFuel => exact ⟨failures, by simp only [Option.bind_none]⟩

theorem course_cons {reader reader' : Reader} {m m' : Machine} {form : Ref}
    (read : Machine.readForm reader m = (.ok (some form), reader', m')) (count : Nat) (errors : String)
    (done : evalForm fuel echo form ⟨m', errors⟩ = some s) :
    course fuel echo (count + 1) reader ⟨m, errors⟩ =
      ((form, m') :: (course fuel echo count reader' s).1, (course fuel echo count reader' s).2) := by
  simp only [course, read, done]

/-- An evaluation in which every read succeeds. -/
theorem evaluates_of_evalForms {count failures failures' offset length : Nat}
    (ran : evalForms fuel echo count ⟨ahead, offset, length⟩ failures s = some (failures', s'))
    (read : (course fuel echo count ⟨ahead, offset, length⟩ s).2 = none) (enough : ahead.length < count) :
    Evaluates fuel echo ahead s (course fuel echo count ⟨ahead, offset, length⟩ s).1 s' := by
  induction count generalizing ahead offset failures s with
  | zero => exact absurd enough (Nat.not_lt_zero _)
  | succ count ih =>
      rcases s with ⟨m, errors⟩
      rcases found : Machine.readForm ⟨ahead, offset, length⟩ m with ⟨e | _ | form, reader', m'⟩
      · simp [course, found] at read
      · obtain ⟨store, done, rfl⟩ := readForm_ok found
        obtain ⟨_, rfl, rfl⟩ := Reader.readFrom_none done
        simp only [evalForms, course, found] at ran ⊢
        cases ran
        exact .nil _
      · obtain ⟨failures₁, same⟩ := evalForms_cons found count failures errors
        rw [same] at ran
        obtain ⟨s₁, done, more⟩ := Option.bind_eq_some_iff.1 ran
        have course := course_cons found count errors done
        rw [course] at read ⊢
        obtain ⟨store, given, rfl⟩ := readForm_ok found
        have gives := Reader.gives_of_read given
        obtain ⟨stop, stands⟩ := gives.read offset length
        have same := stands.symm.trans given
        cases reader'
        cases same
        refine .cons gives done (ih more read ?_)
        exact Nat.lt_of_lt_of_le gives.shorter (Nat.le_of_lt_succ enough)

/-- The same evaluation, as it is computed. -/
theorem Evaluates.evalForms (evaluates : Evaluates fuel echo ahead s calls s') {count : Nat}
    (enough : ahead.length < count) (offset length failures : Nat) :
    (∃ failures', Shell.evalForms fuel echo count ⟨ahead, offset, length⟩ failures s =
      some (failures', s')) ∧ course fuel echo count ⟨ahead, offset, length⟩ s = (calls, none) := by
  induction evaluates generalizing count offset failures with
  | nil s =>
      obtain ⟨count, rfl⟩ := Nat.exists_eq_succ_of_ne_zero (Nat.ne_of_gt enough)
      rcases s with ⟨m, errors⟩
      have read : Reader.read (⟨[], offset, length⟩, m.store) = .ok none (⟨[], length, length⟩, m.store) := rfl
      have found := readForm_of_read read
      exact ⟨⟨failures, by simp only [Shell.evalForms, found]⟩, by simp only [course, found]⟩
  | @cons ahead later m errors store form s s' calls gives done _ ih =>
      obtain ⟨count, rfl⟩ := Nat.exists_eq_succ_of_ne_zero (Nat.ne_of_gt (Nat.zero_lt_of_lt enough))
      obtain ⟨stop, read⟩ := gives.read offset length
      have found := readForm_of_read read
      obtain ⟨failures₁, same⟩ := @evalForms_cons fuel echo _ _ _ _ _ found count failures errors
      obtain ⟨⟨failures', rest⟩, course⟩ :=
        @ih count (Nat.lt_of_lt_of_le gives.shorter (Nat.le_of_lt_succ enough)) stop failures₁
      refine ⟨⟨failures', ?_⟩, ?_⟩
      · rw [same, done, Option.bind_some, rest]
      · rw [course_cons found count errors done, course]

/-- An evaluation of a text that succeeds with every read, and the other way round. -/
theorem evaluates_of_evalSource {source : String} {failures : Nat}
    (ran : evalSource fuel echo source s = some (failures, s'))
    (read : (courseOf fuel echo source s).2 = none) :
    Evaluates fuel echo (lex source) s (courseOf fuel echo source s).1 s' :=
  evaluates_of_evalForms ran read (Nat.lt_succ_self _)

theorem Evaluates.evalSource {source : String} (evaluates : Evaluates fuel echo (lex source) s calls s') :
    (∃ failures, Shell.evalSource fuel echo source s = some (failures, s')) ∧
      courseOf fuel echo source s = (calls, none) :=
  evaluates.evalForms (Nat.lt_succ_self _) 0 source.utf8ByteSize 0

/-- Forms are balanced. -/
theorem Evaluates.depth (evaluates : Evaluates fuel echo ahead s calls s') :
    ahead.foldl depthAfter 0 = 0 := by
  induction evaluates with
  | nil => rfl
  | cons gives _ _ ih => rw [gives.depth, ih]

/-- Positions do not matter. -/
theorem Evaluates.unshift {n : Nat}
    (evaluates : Evaluates fuel echo (ahead.map (Lexeme.shift n)) s calls s') :
    Evaluates fuel echo ahead s calls s' := by
  generalize shifted : ahead.map (Lexeme.shift n) = lexemes at evaluates
  induction evaluates generalizing ahead with
  | nil s =>
      rw [List.map_eq_nil_iff.1 shifted]
      exact .nil s
  | cons gives done _ ih =>
      subst shifted
      obtain ⟨later, rfl, first⟩ := gives.unshift
      exact .cons first done (ih rfl)

/-- Faults cannot be read. -/
theorem Evaluates.no_fault {lexeme : Lexeme} {e : LexError} (fault : lexeme.token = .error e)
    (evaluates : Evaluates fuel echo (lexeme :: ahead) s calls s') : False := by
  rcases lexeme with ⟨span, token⟩
  cases fault
  cases evaluates with
  | cons gives _ _ =>
      obtain ⟨_, _, done⟩ := gives
      cases done

theorem Evaluates.blank_front {e : LexError} (evaluates : Evaluates fuel echo (front ++ rest) s calls s')
    (faults : ∀ lexeme ∈ front, lexeme.token = .error e) : front = [] := by
  cases front with
  | nil => rfl
  | cons lexeme more => exact (evaluates.no_fault (faults lexeme List.mem_cons_self)).elim

/-- Where the parentheses balance and no quote mark is pending, the evaluation of the front is
    complete. -/
theorem Evaluates.split (evaluates : Evaluates fuel echo (front ++ rest) s calls s')
    (balanced : front.foldl depthAfter 0 = 0) (plain : ¬ EndsQuoting front) :
    ∃ s₁ before after, Evaluates fuel echo front s before s₁ ∧ Evaluates fuel echo rest s₁ after s' ∧
      calls = before ++ after := by
  generalize whole : front ++ rest = lexemes at evaluates
  induction evaluates generalizing front with
  | nil s =>
      obtain ⟨rfl, rfl⟩ := List.append_eq_nil_iff.1 whole
      exact ⟨s, [], [], .nil s, .nil s, rfl⟩
  | @cons ahead later m errors store form s s' calls gives done evaluates ih =>
      subst whole
      by_cases none : front = []
      · subst none
        exact ⟨_, [], _, .nil _, .cons gives done evaluates, rfl⟩
      · obtain ⟨more, rfl, ⟨taken, rfl⟩, first⟩ := gives.within none balanced plain
        have balanced' : more.foldl depthAfter 0 = 0 := first.depth.symm.trans balanced
        obtain ⟨s₁, before, after, one, two, rfl⟩ :=
          ih balanced' (fun ends => plain (ends.append taken)) rfl
        exact ⟨s₁, _, after, .cons first done one, two, rfl⟩

end

/-! ### What is printed -/

section

variable {m : Machine} {form : Ref} (fuel : Nat)

/-- A form leads to the same machine, whatever has been printed and whether values are. -/
theorem evalForm_withOutput (resting : m.Resting) (held : m.heap.Held form) :
    (∀ echo output errors, evalForm fuel echo form ⟨m.withOutput output, errors⟩ = none) ∨
      ∃ m' : Machine, m'.Resting ∧ ∀ echo output errors, ∃ output' errors',
        evalForm fuel echo form ⟨m.withOutput output, errors⟩ = some ⟨m'.withOutput output', errors'⟩ := by
  have rests := ((resting.withOutput "").evalFormWith (serve fuel) fuel held).1
  have same := evalFormWith_withOutput (serve fuel) fuel form resting.idle resting.safe.heap.ready
  unfold evalForm Machine.evalForm
  dsimp only
  cases ran : evalFormWith (serve fuel) fuel form (m.withOutput "") with
  | ok value m' =>
      rw [ran] at rests
      refine .inr ⟨m', rests, fun echo output errors => ?_⟩
      rw [same output, ran]
      cases echo
      · exact ⟨_, _, rfl⟩
      · exact ⟨_, _, rfl⟩
  | error e m' =>
      rw [ran] at rests
      cases e with
      | outOfFuel =>
          refine .inl fun echo output errors => ?_
          rw [same output, ran]
          rfl
      | failed e =>
          refine .inr ⟨m', rests, fun echo output errors => ?_⟩
          rw [same output, ran]
          exact ⟨_, _, rfl⟩

/-- A form and the machine in which it is evaluated, but for what the machine has printed. -/
def quietly (call : Ref × Machine) : Ref × Machine := (call.1, call.2.withOutput "")

@[simp] theorem quietly_withOutput (output : String) :
    quietly (form, m.withOutput output) = (form, m.withOutput "") := rfl

/-- The same forms are evaluated in the same machines, whatever has been printed and whether
    values are. -/
theorem course_withOutput (resting : m.Resting) (count : Nat) (reader : Reader)
    (echo echo' : Bool) (output output' errors errors' : String) :
    (course fuel echo count reader ⟨m.withOutput output, errors⟩).1.map quietly =
      (course fuel echo' count reader ⟨m.withOutput output', errors'⟩).1.map quietly ∧
    (course fuel echo count reader ⟨m.withOutput output, errors⟩).2 =
      (course fuel echo' count reader ⟨m.withOutput output', errors'⟩).2 := by
  induction count generalizing m reader output output' errors errors' with
  | zero => exact ⟨rfl, rfl⟩
  | succ count ih =>
      obtain ⟨rests, held⟩ := resting.readForm reader
      have read := fun output => readForm_withOutput output reader m
      rcases found : Machine.readForm reader m with ⟨e | _ | form, reader', m'⟩
      · simp [course, read, found]
      · simp [course, read, found]
      · rw [found] at rests held
        replace rests : m'.Resting := rests
        rcases evalForm_withOutput fuel rests (held form rfl) with none | ⟨m₂, rests₂, leads⟩
        · simp [course, read, found, none]
        · obtain ⟨output₁, errors₁, first⟩ := leads echo output errors
          obtain ⟨output₂, errors₂, second⟩ := leads echo' output' errors'
          obtain ⟨calls, stop⟩ := ih rests₂ reader' output₁ output₂ errors₁ errors₂
          simp [course, read, found, first, second, calls, stop]

end

end Shell

/-! ## Sessions -/

/-- The lines of a text, without the newlines between them. -/
def splitLines (text : String) : List String := (text.toList.splitOn '\n').map String.ofList

/-- The text of the lines, each with a newline at its end. -/
def unlines (lines : List String) : String := String.join (lines.map fun line => line.push '\n')

namespace Repl

/-- The forms that a line causes to be evaluated, each with the machine in which it is. -/
def called (fuel : Nat) (line : String) (r : Repl) : List (Ref × Machine) :=
  let buffer := (r.buffer ++ line).push '\n'
  if r.buffer.isEmpty && Command.ofLine line != .text then []
  else if isComplete buffer then (Shell.courseOf fuel true buffer r.shell).1
  else []

/-- The forms that lines cause to be evaluated. -/
def calls (fuel : Nat) : List String → Repl → List (Ref × Machine)
  | [], _ => []
  | line :: rest, r =>
      match feed fuel line r with
      | .more r' => called fuel line r ++ calls fuel rest r'
      | .quit _ => []
      | .outOfFuel => called fuel line r

/-- The names of commands. -/
def commandNames : List String := [":quit", ":q", ":help", ":h", ":gc"]

theorem ofLine_blank {line : String} (blank : Text.trim line = "") : Command.ofLine line = .blank := by
  unfold Command.ofLine
  rw [blank]
  rfl

theorem ofLine_text {line : String} (some : Text.trim line ≠ "") (plain : Text.trim line ∉ commandNames) :
    Command.ofLine line = .text := by
  unfold Command.ofLine
  split
  · next blank => exact absurd blank some
  all_goals first
    | rfl
    | next name => exact absurd (by rw [name]; decide) plain

theorem blank_of_trim {line : String} (blank : Text.trim line = "") :
    ∀ c ∈ line.toList, Text.isBlank c = true := by
  unfold Text.trim at blank
  have back := List.reverse_eq_nil_iff.1 (String.ofList_eq_empty_iff.1 blank)
  have all := List.dropWhile_eq_nil_iff.1 back
  by_cases front : line.toList.dropWhile Text.isBlank = []
  · exact List.dropWhile_eq_nil_iff.1 front
  · have visible := List.head_dropWhile_not Text.isBlank front
    rw [all _ (List.mem_reverse.2 (List.head_mem front))] at visible
    cases visible

section

variable {fuel : Nat} {line buffer : String} {lines : List String} {s s₁ s' : Shell}
  {options : Options} {calls : List (Ref × Machine)} {r r₁ : Repl}

theorem feed_text (text : r.buffer.isEmpty = true → Command.ofLine line = .text) :
    feed fuel line r = .ofOption (gather fuel line r) := by
  unfold feed
  split
  · next empty => rw [text empty]
  · rfl

theorem called_text (text : r.buffer.isEmpty = true → Command.ofLine line = .text) :
    called fuel line r =
      if isComplete ((r.buffer ++ line).push '\n') then
        (Shell.courseOf fuel true ((r.buffer ++ line).push '\n') r.shell).1
      else [] := by
  unfold called
  cases empty : r.buffer.isEmpty with
  | true => rw [text empty]; rfl
  | false => rfl

/-- A line of blanks while nothing is gathered. -/
theorem feed_blank (blank : Text.trim line = "") :
    feed fuel line ⟨s, options, ""⟩ = .more ⟨s, options, ""⟩ ∧
      called fuel line ⟨s, options, ""⟩ = [] := by
  simp only [feed, called, ofLine_blank blank]
  exact ⟨rfl, rfl⟩

/-- A line that completes what has been gathered. -/
theorem feed_complete (listing : options.disassemble = false)
    (text : buffer.isEmpty = true → Command.ofLine line = .text)
    (complete : isComplete ((buffer ++ line).push '\n') = true)
    (evaluates : s.Evaluates fuel true (lex ((buffer ++ line).push '\n')) calls s₁) :
    feed fuel line ⟨s, options, buffer⟩ = .more ⟨s₁, options, ""⟩ ∧
      called fuel line ⟨s, options, buffer⟩ = calls := by
  obtain ⟨⟨failures, ran⟩, course⟩ := evaluates.evalSource
  rw [@feed_text fuel line ⟨s, options, buffer⟩ text, @called_text fuel line ⟨s, options, buffer⟩ text]
  simp [gather, evalBuffer, complete, ran, course, listing, Reply.ofOption]

/-- A line that does not. -/
theorem feed_incomplete (text : buffer.isEmpty = true → Command.ofLine line = .text)
    (incomplete : isComplete ((buffer ++ line).push '\n') = false) :
    feed fuel line ⟨s, options, buffer⟩ = .more ⟨s, options, (buffer ++ line).push '\n'⟩ ∧
      called fuel line ⟨s, options, buffer⟩ = [] := by
  rw [@feed_text fuel line ⟨s, options, buffer⟩ text, @called_text fuel line ⟨s, options, buffer⟩ text]
  simp [gather, evalBuffer, incomplete, Reply.ofOption]

theorem feedAll_cons (fed : feed fuel line r = .more r₁) :
    feedAll fuel (line :: lines) r = feedAll fuel lines r₁ ∧
      Repl.calls fuel (line :: lines) r = called fuel line r ++ Repl.calls fuel lines r₁ := by
  simp only [feedAll, Repl.calls, fed, and_self]

/-- Whether a text is complete that begins with whole lines. -/
theorem isComplete_append (front rest : String) :
    isComplete (front.push '\n' ++ rest) =
      ((lex rest).foldl depthAfter ((lex front).foldl depthAfter 0) == 0) := by
  obtain ⟨n, split⟩ := lex_line front rest
  rw [isComplete, split, List.foldl_append, foldl_depthAfter_shift]

/-- Whole lines that balance do not count. -/
theorem isComplete_after_balanced {front : String} (balanced : (lex front).foldl depthAfter 0 = 0)
    (rest : String) : isComplete (front.push '\n' ++ rest) = isComplete rest := by
  rw [isComplete_append, balanced, isComplete]

/-- What completes the lines before has a token, and the last token is its own. -/
theorem endsQuoting_of_append {front : String} (incomplete : isComplete (front.push '\n') = false)
    (complete : isComplete (front.push '\n' ++ line) = true)
    (ends : EndsQuoting (lex (front.push '\n' ++ line))) : EndsQuoting (lex line) := by
  obtain ⟨n, split⟩ := lex_line front line
  rw [isComplete_append] at complete
  rw [isComplete, lex_push_newline] at incomplete
  rw [split] at ends
  cases tokens : lex line with
  | nil =>
      rw [tokens, List.foldl_nil, incomplete] at complete
      cases complete
  | cons lexeme more =>
      unfold EndsQuoting at ends ⊢
      rw [tokens, List.getLast?_append, List.getLast?_map, Option.map_or] at ends
      cases last : (lexeme :: more).getLast? with
      | none => cases List.getLast?_eq_none_iff.1 last
      | some last' =>
          rw [last] at ends
          exact ends

/-- Lines that are complete do not end with a quote mark unless the last one does. -/
theorem not_endsQuoting_gathered
    (pending : buffer = "" ∨ (∃ front : String, buffer = front.push '\n') ∧ isComplete buffer = false)
    (balanced : (lex (buffer ++ line)).foldl depthAfter 0 = 0) (plain : ¬ EndsQuoting (lex line)) :
    ¬ EndsQuoting (lex (buffer ++ line)) := by
  intro ends
  rcases pending with rfl | ⟨⟨front, rfl⟩, incomplete⟩
  · rw [String.empty_append] at ends
    exact plain ends
  · refine plain (endsQuoting_of_append incomplete ?_ ends)
    rw [isComplete, balanced]
    rfl

theorem unlines_nil : unlines [] = "" := rfl

theorem unlines_cons (line : String) (lines : List String) (buffer : String) :
    buffer ++ unlines (line :: lines) = (buffer ++ line).push '\n' ++ unlines lines := by
  simp only [unlines, List.map_cons, String.join_cons, String.push_eq_append, String.append_assoc]

/-- The lines of a text, given to a session that has gathered some of it. The induction is on
    the lines; what has been gathered is not complete. -/
theorem feedAll_of_evaluates (listing : options.disassemble = false)
    (pending : buffer = "" ∨ (∃ front : String, buffer = front.push '\n') ∧ isComplete buffer = false)
    (plain : ∀ before line later r', lines = before ++ line :: later →
      feedAll fuel before ⟨s, options, buffer⟩ = some r' → r'.buffer = "" → Text.trim line ∉ commandNames)
    (closed : ∀ before line later, lines = before ++ line :: later →
      isComplete (buffer ++ unlines (before ++ [line])) = true → ¬ EndsQuoting (lex line))
    (evaluates : s.Evaluates fuel true (lex (buffer ++ unlines lines)) calls s') :
    feedAll fuel lines ⟨s, options, buffer⟩ = some ⟨s', options, ""⟩ ∧
      Repl.calls fuel lines ⟨s, options, buffer⟩ = calls := by
  induction lines generalizing s buffer calls with
  | nil =>
      rw [unlines_nil, String.append_empty] at evaluates
      rcases pending with rfl | ⟨_, incomplete⟩
      · cases evaluates with
        | nil => exact ⟨rfl, rfl⟩
        | cons gives _ _ => exact absurd gives.shorter (Nat.not_lt_zero _)
      · rw [isComplete, evaluates.depth] at incomplete
        cases incomplete
  | cons line lines ih =>
      have plainLater : ∀ r₁, feed fuel line ⟨s, options, buffer⟩ = .more r₁ →
          ∀ before line' later r', lines = before ++ line' :: later →
            feedAll fuel before r₁ = some r' → r'.buffer = "" → Text.trim line' ∉ commandNames := by
        intro r₁ fed before line' later r' split ran
        refine plain (line :: before) line' later r' (by rw [split, List.cons_append]) ?_
        rw [(feedAll_cons fed).1, ran]
      have closedLater : ∀ buffer' : String, (∀ rest, isComplete (buffer' ++ rest) = true →
            isComplete ((buffer ++ line).push '\n' ++ rest) = true) →
          ∀ before line' later, lines = before ++ line' :: later →
            isComplete (buffer' ++ unlines (before ++ [line'])) = true → ¬ EndsQuoting (lex line') := by
        intro buffer' carries before line' later split complete
        refine closed (line :: before) line' later (by rw [split, List.cons_append]) ?_
        rw [List.cons_append, unlines_cons]
        exact carries _ complete
      -- After lines that balance, what comes counts as a text of its own.
      have afresh : (lex (buffer ++ line)).foldl depthAfter 0 = 0 →
          ∀ rest, isComplete ("" ++ rest) = true →
            isComplete ((buffer ++ line).push '\n' ++ rest) = true := by
        intro balanced rest complete
        rw [isComplete_after_balanced balanced, ← complete, String.empty_append]
      have here : buffer = "" → Text.trim line ∉ commandNames := plain [] line lines _ rfl rfl
      rw [unlines_cons] at evaluates
      obtain ⟨n, split⟩ := lex_line (buffer ++ line) (unlines lines)
      by_cases blank : buffer = "" ∧ Text.trim line = ""
      · obtain ⟨rfl, trimmed⟩ := blank
        obtain ⟨fed, called⟩ := @feed_blank fuel line s options trimmed
        rw [split, String.empty_append] at evaluates
        have tokens := evaluates.blank_front (lex_blank (blank_of_trim trimmed))
        rw [tokens, List.nil_append] at evaluates
        have balanced : (lex ("" ++ line)).foldl depthAfter 0 = 0 := by
          rw [String.empty_append, tokens, List.foldl_nil]
        have rest := ih (.inl rfl) (plainLater _ fed) (closedLater "" (afresh balanced)) evaluates.unshift
        rw [(feedAll_cons fed).1, (feedAll_cons fed).2, called, List.nil_append]
        exact rest
      · have text : buffer.isEmpty = true → Command.ofLine line = .text := by
          intro empty
          have none := String.isEmpty_iff.1 empty
          exact ofLine_text (fun trimmed => blank ⟨none, trimmed⟩) (here none)
        cases complete : isComplete ((buffer ++ line).push '\n') with
        | false =>
            obtain ⟨fed, called⟩ := @feed_incomplete fuel line buffer s options text complete
            have rest := ih (.inr ⟨⟨_, rfl⟩, complete⟩) (plainLater _ fed) (closedLater _ fun _ same => same) evaluates
            rw [(feedAll_cons fed).1, (feedAll_cons fed).2, called, List.nil_append]
            exact rest
        | true =>
            have balanced : (lex (buffer ++ line)).foldl depthAfter 0 = 0 := by
              rw [isComplete, lex_push_newline] at complete
              exact beq_iff_eq.1 complete
            have lineEnded : ¬ EndsQuoting (lex line) := by
              refine closed [] line lines rfl ?_
              rw [List.nil_append, unlines_cons, unlines_nil, String.append_empty]
              exact complete
            have ended := not_endsQuoting_gathered pending balanced lineEnded
            rw [split] at evaluates
            obtain ⟨s₁, before, after, one, two, rfl⟩ := evaluates.split balanced ended
            rw [← lex_push_newline] at one
            obtain ⟨fed, called⟩ := feed_complete listing text complete one
            have rest := ih (.inl rfl) (plainLater _ fed) (closedLater "" (afresh balanced)) two.unshift
            rw [(feedAll_cons fed).1, (feedAll_cons fed).2, called, rest.1, rest.2]
            exact ⟨rfl, rfl⟩

theorem unlines_splitLines (text : String) : unlines (splitLines text) = text.push '\n' := by
  have joined : ∀ parts : List (List Char), parts ≠ [] →
      parts.flatMap (fun part => part ++ ['\n']) = ['\n'].intercalate parts ++ ['\n'] := by
    intro parts some
    induction parts with
    | nil => exact absurd rfl some
    | cons part parts ih =>
        cases parts with
        | nil => simp
        | cons next parts =>
            rw [List.flatMap_cons, ih (List.cons_ne_nil _ _), List.intercalate_cons_cons]
            simp
  refine String.toList_injective ?_
  have lines := joined (text.toList.splitOn '\n') (List.splitOn_ne_nil _ _)
  rw [List.intercalate_splitOn] at lines
  simp [unlines, splitLines, List.flatMap_map, String.toList_push, lines]

/-- An empty last line may be left out. -/
theorem lex_unlines {text : String} (split : splitLines text = lines ∨ splitLines text = lines ++ [""]) :
    lex (unlines lines) = lex text := by
  have all := unlines_splitLines text
  rcases split with rfl | more
  · rw [all, lex_push_newline]
  · rw [more] at all
    have last : unlines (lines ++ [""]) = (unlines lines).push '\n' := by
      simp [unlines, String.push_eq_append]
    rw [last] at all
    rw [← lex_push_newline, all, lex_push_newline]

/-- A session that is given the lines of a text evaluates the forms that evaluating the text as
    a whole does, in the same order and in the same machines, and so comes to the same machine
    with nothing gathered. All forms of the text must be read without an error, no line that
    comes while nothing is gathered may be a command, and where the parentheses balance a line
    may not end with a quote mark. Files are evaluated without echo; all but the printed text
    is the same for them. -/
theorem sessions_and_texts_agree {m : Machine} (resting : m.Resting) {failures : Nat} {echo : Bool}
    {text output errors output' errors' : String} (listing : options.disassemble = false)
    (split : splitLines text = lines ∨ splitLines text = lines ++ [""])
    (ran : Shell.evalSource fuel echo text ⟨m.withOutput output', errors'⟩ = some (failures, s'))
    (read : (Shell.courseOf fuel echo text ⟨m.withOutput output', errors'⟩).2 = none)
    (plain : ∀ before line later r, lines = before ++ line :: later →
      feedAll fuel before ⟨⟨m.withOutput output, errors⟩, options, ""⟩ = some r → r.buffer = "" →
      Text.trim line ∉ commandNames)
    (closed : ∀ before line later, lines = before ++ line :: later →
      isComplete (unlines (before ++ [line])) = true → ¬ EndsQuoting (lex line)) :
    ∃ s complaints,
      feedAll fuel lines ⟨⟨m.withOutput output, errors⟩, options, ""⟩ = some ⟨s, options, ""⟩ ∧
      Shell.evalSource fuel true text ⟨m.withOutput output, errors⟩ = some (failures, s) ∧
      Repl.calls fuel lines ⟨⟨m.withOutput output, errors⟩, options, ""⟩ =
        (Shell.courseOf fuel true text ⟨m.withOutput output, errors⟩).1 ∧
      (Repl.calls fuel lines ⟨⟨m.withOutput output, errors⟩, options, ""⟩).map Shell.quietly =
        (Shell.courseOf fuel echo text ⟨m.withOutput output', errors'⟩).1.map Shell.quietly ∧
      s.machine.withOutput "" = s'.machine.withOutput "" ∧
      s.errors = errors ++ complaints ∧ s'.errors = errors' ++ complaints := by
  rw [Shell.evalSource_withOutput fuel echo text resting output' errors'] at ran
  obtain ⟨t, written, wrote⟩ := Option.map_eq_some_iff.1 ran
  cases wrote
  have done : Shell.evalSource fuel true text ⟨m.withOutput output, errors⟩ =
      some (t.failures, t.shell true output errors) := by
    rw [Shell.evalSource_withOutput fuel true text resting output errors, written]
    rfl
  obtain ⟨quiet, stop⟩ := Shell.course_withOutput fuel resting ((lex text).length + 1) (.ofSource text)
    true echo output output' errors errors'
  have evaluates := Shell.evaluates_of_evalSource done (stop.trans read)
  rw [← lex_unlines split, ← @String.empty_append (unlines lines)] at evaluates
  have begun : ∀ before line later, lines = before ++ line :: later →
      isComplete ("" ++ unlines (before ++ [line])) = true → ¬ EndsQuoting (lex line) := by
    intro before line later split complete
    rw [String.empty_append] at complete
    exact closed before line later split complete
  obtain ⟨fed, calls⟩ := feedAll_of_evaluates listing (.inl rfl) plain begun evaluates
  refine ⟨_, _, fed, done, calls, ?_, rfl, rfl, rfl⟩
  rw [calls]
  exact quiet

end

/-- How many forms a file evaluates in a fresh machine, if all of them can be read. -/
def formsOfFile (config : Config) (text : String) : Option Nat :=
  match boot config none with
  | .error _ => none
  | .ok m =>
      match Shell.evalSource 100 false text ⟨m, ""⟩, Shell.courseOf 100 false text ⟨m, ""⟩ with
      | some _, (calls, none) => some calls.length
      | _, _ => none

theorem formsOfFile_eq {config : Config} {text : String} {count : Nat}
    (counted : formsOfFile config text = some count) :
    ∃ m failures s, boot config none = .ok m ∧
      Shell.evalSource 100 false text ⟨m, ""⟩ = some (failures, s) ∧
      (Shell.courseOf 100 false text ⟨m, ""⟩).2 = none ∧
      (Shell.courseOf 100 false text ⟨m, ""⟩).1.length = count := by
  unfold formsOfFile at counted
  split at counted
  · cases counted
  · next m booted =>
      split at counted
      · next pair calls ran course =>
          cases counted
          exact ⟨m, pair.1, pair.2, booted, ran, by rw [course], by rw [course]⟩
      · cases counted

/-- A form on three lines, one of them empty and one with a comment that has a parenthesis, and
    a line that ends one form and has another. -/
theorem sessions_and_texts_agree_sample :
    let lines := ["(defun f (x) ; not yet )", "", "  (cons x '(1)))", "(f", "2) (f 3)"]
    ∃ m failures s s',
      boot { arenaSize := 8 } none = .ok m ∧ Shell.evalSource 100 false (unlines lines) ⟨m, ""⟩ =
        some (failures, s') ∧
      feedAll 100 lines ⟨⟨m.withOutput "Hello!\n", ""⟩, ⟨false, false⟩, ""⟩ =
        some ⟨s, ⟨false, false⟩, ""⟩ ∧
      (Repl.calls 100 lines ⟨⟨m.withOutput "Hello!\n", ""⟩, ⟨false, false⟩, ""⟩).length = 3 ∧
      s.machine.withOutput "" = s'.machine.withOutput "" := by
  intro lines
  have counted : formsOfFile { arenaSize := 8 } (unlines lines) = some 3 := by decide +kernel
  obtain ⟨m, failures, s', booted, ran, read, count⟩ := formsOfFile_eq counted
  have names : ∀ line ∈ lines, Text.trim line ∉ commandNames := by decide +kernel
  have quotes : ∀ line ∈ lines, ¬ EndsQuoting (lex line) := by decide +kernel
  have split : splitLines (unlines lines) = lines ++ [""] := by decide +kernel
  have resting : m.Resting := .boot booted
  have member : ∀ before line later, lines = before ++ line :: later → line ∈ lines := by
    intro before line later split
    rw [split]
    exact List.mem_append_right _ List.mem_cons_self
  obtain ⟨s, complaints, fed, _, _, quiet, same, _⟩ :=
    @sessions_and_texts_agree 100 lines s' ⟨false, false⟩ m resting failures false (unlines lines)
      "Hello!\n" "" m.output "" rfl (.inr split) ran read
      (fun before line later _ split _ _ => names line (member before line later split))
      (fun before line later split _ => quotes line (member before line later split))
  refine ⟨m, failures, s, s', booted, ran, fed, ?_, same⟩
  have lengths := congrArg List.length quiet
  rw [List.length_map, List.length_map] at lengths
  exact lengths.trans count

end Repl

end CommandLine

end LispMachine
