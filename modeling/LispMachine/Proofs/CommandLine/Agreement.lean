import LispMachine.Proofs.CommandLine.Transcript
import LispMachine.Proofs.Toplevel.Showing
import LispMachine.Proofs.Toplevel.Symbols

/-!
# Texts and the shell agree

Evaluating a text as a whole keeps the values of earlier forms on the work stack and shows
them at the end; the shell keeps nothing and shows each value at once. So the two collect
different cells. They agree all the same: without the values that are kept the machines are
the same up to ties, and a value that is kept prints at the end as it did at first.
-/

namespace LispMachine

/-- A collection that spares the given roots spares any of them. -/
theorem Heap.Sweeps.fewer {h h' : Heap} {roots roots' : List Ref} (sweeps : h.Sweeps roots h')
    (fewer : roots' ⊆ roots) : h.Sweeps roots' h' :=
  ⟨sweeps.tidy, sweeps.kept, fun r member => sweeps.root r (fewer member), sweeps.child⟩

namespace Machine

/-! ## Machines side by side -/

/-- Without the values that the first machine keeps above `base` on its work stack, and but
    for the output, the machines are the same up to ties. -/
structure Beside (base : List Ref) (ties : Ties) (m n : Machine) : Prop where
  twins : (m.alone base).Twins true ties (n.alone base)
  pinned : ∃ pins, m.top.stack = pins ++ base
  bare : n.top.stack = base
  resting₁ : m.Resting
  resting₂ : n.Resting
  registered : m.Registered

section

variable {base pins : List Ref} {ties : Ties} {m n : Machine} {form form' : Ref}

theorem Beside.refl (resting : m.Resting) (registered : m.Registered) :
    m.Beside m.top.stack m.heap.selfTies m where
  twins := by
    have twins := resting.intact.twins
    exact ⟨twins.store, twins.registry, twins.top, twins.callers, twins.user, twins.truth, rfl,
      twins.maxFrames⟩
  pinned := ⟨[], rfl⟩
  bare := rfl
  resting₁ := resting
  resting₂ := resting
  registered := registered

/-- What the second machine has printed does not matter. -/
theorem Beside.withOutput₂ (beside : m.Beside base ties n) (output : String) :
    m.Beside base ties (n.withOutput output) where
  twins := beside.twins
  pinned := beside.pinned
  bare := beside.bare
  resting₁ := beside.resting₁
  resting₂ := beside.resting₂.withOutput output
  registered := beside.registered

/-- The first machine may keep another value. -/
theorem Beside.push (beside : m.Beside base ties n) {value : Ref} (held : m.heap.Held value) :
    (m.modifyBottom fun stack => value :: stack).Beside base ties n := by
  have resting := beside.resting₁.push held
  rw [modifyBottom_push beside.resting₁.idle] at resting ⊢
  obtain ⟨pins, stack⟩ := beside.pinned
  refine ⟨beside.twins, ⟨value :: pins, ?_⟩, beside.bare, resting, beside.resting₂, beside.registered⟩
  simp [withTop, Frame.push, stack]

theorem Beside.held (beside : m.Beside base ties n) {a b : Ref} (tied : Tied ties a b) :
    m.heap.Held a ∧ n.heap.Held b := beside.twins.heap.paired.held tied

theorem Beside.display (beside : m.Beside base ties n) {a b : Ref} (tied : Tied ties a b) :
    m.display a = n.display b := beside.twins.display tied

/-! ## What goes on -/

/-- What the first machine does in between: it prints the text, keeps the values on its work
    stack and perhaps others, and the values that it keeps print as before. -/
structure Proceeds (text : String) (m m' : Machine) : Prop where
  output : m'.output = m.output ++ text
  stack : ∃ pins, m'.top.stack = pins ++ m.top.stack
  shows : ∀ value ∈ m.top.stack, m'.display value = m.display value

theorem Proceeds.refl (m : Machine) : m.Proceeds "" m :=
  ⟨String.append_empty.symm, ⟨[], rfl⟩, fun _ _ => rfl⟩

theorem Proceeds.trans {m' m'' : Machine} {text text' : String} (first : m.Proceeds text m')
    (second : m'.Proceeds text' m'') : m.Proceeds (text ++ text') m'' where
  output := by rw [second.output, first.output, String.append_assoc]
  stack := by
    obtain ⟨pins, eq⟩ := first.stack
    obtain ⟨more, eq'⟩ := second.stack
    exact ⟨more ++ pins, by rw [eq', eq, List.append_assoc]⟩
  shows value member := by
    obtain ⟨pins, eq⟩ := first.stack
    rw [second.shows value (by rw [eq]; exact List.mem_append_right _ member), first.shows value member]

theorem Proceeds.push {m' : Machine} {text : String} (proceeds : m.Proceeds text m') (value : Ref) :
    m.Proceeds text (m'.withTop (m'.top.push value)) where
  output := proceeds.output
  stack := by
    obtain ⟨pins, eq⟩ := proceeds.stack
    exact ⟨value :: pins, by rw [List.cons_append, ← eq]; rfl⟩
  shows := proceeds.shows

/-- What both machines have done side by side: the same text has been printed. -/
structure Went (base : List Ref) (ties : Ties) (text : String) (m n m' n' : Machine) : Prop where
  beside : m'.Beside base ties n'
  proceeds : m.Proceeds text m'
  output : n'.output = n.output ++ text

/-! ## Reading -/

/-- Two reads that go together: tied forms or none, the same failure, or a limit. -/
inductive ReadTogether (base : List Ref) (m n : Machine) :
    Except ReadError (Option Ref) × Reader × Machine →
      Except ReadError (Option Ref) × Reader × Machine → Prop where
  | ended {ties : Ties} {reader : Reader} {m' n' : Machine} : Went base ties "" m n m' n' →
      ReadTogether base m n (.ok none, reader, m') (.ok none, reader, n')
  | form {ties : Ties} {reader : Reader} {form form' : Ref} {m' n' : Machine} :
      Went base ties "" m n m' n' → Tied ties form form' →
      ReadTogether base m n (.ok (some form), reader, m') (.ok (some form'), reader, n')
  | failed {ties : Ties} {reader reader' : Reader} {e : ReadError} {m' n' : Machine} :
      Went base ties "" m n m' n' → ReadTogether base m n (.error e, reader, m') (.error e, reader', n')
  | limit₁ {e : ReadError} {reader : Reader} {m' : Machine}
      {other : Except ReadError (Option Ref) × Reader × Machine} :
      e.isLimit = true → ReadTogether base m n (.error e, reader, m') other
  | limit₂ {e : ReadError} {reader : Reader} {n' : Machine}
      {other : Except ReadError (Option Ref) × Reader × Machine} :
      e.isLimit = true → ReadTogether base m n other (.error e, reader, n')

theorem readForm_alone (stack : List Ref) (reader : Reader) (m : Machine) :
    readForm reader (m.alone stack) =
      ((readForm reader m).1, (readForm reader m).2.1, (readForm reader m).2.2.alone stack) := by
  have same : (m.alone stack).store = m.store := rfl
  simp only [readForm, same]
  cases Reader.read (reader, m.store) <;> rfl

theorem readForm_rest (reader : Reader) (m : Machine) :
    m.SameFrames (readForm reader m).2.2 ∧ (readForm reader m).2.2.output = m.output := by
  unfold readForm
  dsimp only
  cases Reader.read (reader, m.store) <;> exact ⟨⟨rfl, rfl⟩, rfl⟩

theorem Resting.registered_readForm (resting : m.Resting) (registered : m.Registered) (reader : Reader) :
    (Machine.readForm reader m).2.2.Registered ∧
      ∀ value, m.Shows value → (Machine.readForm reader m).2.2.display value = m.display value := by
  have names := (readForm_develops reader resting.safe.toOrderly).names
  obtain ⟨kept, _⟩ := resting.readForm_keeps reader
  exact ⟨registered.keeps names, fun value shows =>
    resting.display_eq registered names (fun r reached => kept r reached.live) shows⟩

/-- The machines stay side by side while they read. -/
theorem Beside.readForm (beside : m.Beside base ties n) (reader : Reader) {ties' : Ties}
    (twins : ((Machine.readForm reader m).2.2.alone base).Twins true ties'
      ((Machine.readForm reader n).2.2.alone base)) :
    Went base ties' "" m n (Machine.readForm reader m).2.2 (Machine.readForm reader n).2.2 := by
  obtain ⟨frames, output⟩ := readForm_rest reader m
  obtain ⟨frames', output'⟩ := readForm_rest reader n
  obtain ⟨registered, shows⟩ := beside.resting₁.registered_readForm beside.registered reader
  refine ⟨⟨twins, ?_, ?_, ?_, ?_, registered⟩, ⟨?_, ⟨[], ?_⟩, fun value member => ?_⟩, ?_⟩
  · rw [frames.top]
    exact beside.pinned
  · rw [frames'.top]
    exact beside.bare
  · exact (Resting.readForm beside.resting₁ reader).1
  · exact (Resting.readForm beside.resting₂ reader).1
  · rw [output, String.append_empty]
  · rw [frames.top, List.nil_append]
  · exact shows value (beside.resting₁.shows_root (mem_stack_roots member))
  · rw [output', String.append_empty]

/-- A read does the same in both machines, as long as neither runs out of cells. -/
theorem Beside.reads (beside : m.Beside base ties n) (reader : Reader) :
    ReadTogether base m n (Machine.readForm reader m) (Machine.readForm reader n) := by
  have both := readForm_twins beside.twins reader
  have went := @Beside.readForm base ties m n beside reader
  rw [readForm_alone, readForm_alone] at both
  generalize Machine.readForm reader m = r, Machine.readForm reader n = r' at both went ⊢
  rcases r with ⟨outcome, reader₁, m₁⟩
  rcases r' with ⟨outcome', reader₂, n₁⟩
  generalize twin : m₁.alone base = p, twin' : n₁.alone base = q at both
  cases both with
  | limit₁ reached _ => exact .limit₁ reached
  | limit₂ reached _ => exact .limit₂ reached
  | failed _ _ still =>
      subst twin twin'
      exact .failed (went still.twins)
  | read _ sub still related =>
      subst twin twin'
      cases related with
      | none => exact .ended (went still.twins)
      | some tied => exact .form (went still.twins) tied

/-! ## Forms -/

/-- Two results of a form that go together: tied values, the same failure, or a limit. -/
inductive Together (base : List Ref) (m n : Machine) :
    EStateM.Result (Stop EvalError) Machine Ref → EStateM.Result (Stop EvalError) Machine Ref → Prop where
  | ok {ties : Ties} {text : String} {a b : Ref} {m' n' : Machine} :
      Went base ties text m n m' n' → Tied ties a b → Together base m n (.ok a m') (.ok b n')
  | error {ties : Ties} {text : String} {e : Stop EvalError} {m' n' : Machine} :
      Went base ties text m n m' n' → Together base m n (.error e m') (.error e n')
  | limit₁ {e : Stop EvalError} {m' : Machine} {other : EStateM.Result (Stop EvalError) Machine Ref} :
      e.AtLimit (EvalError.isLimit true) → Together base m n (.error e m') other
  | limit₂ {e : Stop EvalError} {n' : Machine} {other : EStateM.Result (Stop EvalError) Machine Ref} :
      e.AtLimit (EvalError.isLimit true) → Together base m n other (.error e n')

/-- The machine that is about to evaluate a form, with nothing else on its work stack but
    `base`. -/
def parked (base : List Ref) (form : Ref) (m : Machine) : Machine :=
  (m.withTop (m.top.push form)).collectIfDue.alone (form :: base)

theorem Resting.parked_top (resting : m.Resting) (form : Ref) :
    (m.parked base form).top = { m.top with stack := form :: base } := by
  have prepared := prepared_collectIfDue resting.idle resting.safe.heap.ready form
  rw [modifyBottom_push resting.idle] at prepared
  have top := prepared.frames.top
  simp only [parked, alone, top]
  rfl

theorem roots_alone (stack : m.top.stack = pins ++ base) (form : Ref) :
    ((m.alone base).withTop ((m.alone base).top.push form)).roots ⊆
      (m.withTop (m.top.push form)).roots := by
  intro r member
  refine mem_roots_withTop.2 ((mem_roots_withTop.1 member).imp id (Or.imp ?_ id))
  intro inside
  simp only [Frame.roots, Frame.codeRoots, Frame.push, alone, List.mem_append, List.mem_cons, stack] at inside ⊢
  tauto

/-- What comes before the form is evaluated keeps the machines the same up to ties: the first
    one may free less. -/
theorem Beside.parked (beside : m.Beside base ties n) {form form' : Ref} (tied : Tied ties form form') :
    ∃ ties', (m.parked base form).Twins true ties' (n.parked base form') ∧ Tied ties' form form' := by
  obtain ⟨pins, stack⟩ := beside.pinned
  have stack' : n.top.stack = [] ++ base := beside.bare
  obtain ⟨h, journal, eq, sweeps⟩ :=
    collectIfDue_eq (m.withTop (m.top.push form)) beside.resting₁.intact.tidy
  obtain ⟨k, journal', eq', sweeps'⟩ :=
    collectIfDue_eq (n.withTop (n.top.push form')) beside.resting₂.intact.tidy
  have twins := beside.twins.withTop (beside.twins.top.push tied)
  obtain ⟨ties', heaps, kept⟩ :=
    twins.heap.sweep (sweeps.fewer (roots_alone stack form)) (sweeps'.fewer (roots_alone stack' form'))
  refine ⟨ties', ?_, ?_⟩
  · unfold Machine.parked
    rw [eq, eq']
    exact (twins.imp heaps kept).withJournal journal journal'
  · exact kept form (mem_stack_roots List.mem_cons_self) form' (mem_stack_roots List.mem_cons_self) tied

/-- The machine at rest after a form, without the values that it keeps. -/
theorem twins_resume (resting : m.Resting) (resting' : n.Resting) {s t : Machine}
    (still : s.Still true (m.parked base form, n.parked base form') ties t) :
    ((m.resume s).alone base).Twins true ties ((n.resume t).alone base) := by
  have twins := still.twins
  have tops := twins.top
  rw [still.frames₁.top, still.frames₂.top, resting.parked_top, resting'.parked_top] at tops
  refine ⟨twins.store, twins.registry, ⟨?_, tops.locals, tops.activity, tops.home⟩, twins.callers,
    twins.user, twins.truth, rfl, twins.maxFrames⟩
  exact (List.forall₂_cons.1 tops.stack).2

/-- What both machines have done when they are at rest again. -/
theorem Beside.went (beside : m.Beside base ties n) {ties' : Ties} {s t : Machine}
    (still : s.Still true (m.parked base form, n.parked base form') ties' t)
    (resting₁ : (m.resume s).Resting) (resting₂ : (n.resume t).Resting)
    (registered : (m.resume s).Registered)
    (shows : ∀ value, m.Shows value → (m.resume s).display value = m.display value) :
    Went base ties' s.output m n (m.resume s) (n.resume t) where
  beside := ⟨twins_resume beside.resting₁ beside.resting₂ still, beside.pinned, beside.bare, resting₁,
    resting₂, registered⟩
  proceeds := ⟨rfl, ⟨[], rfl⟩, fun value member =>
    shows value (beside.resting₁.shows_root (mem_stack_roots member))⟩
  output := by rw [still.twins.output, resume]

/-- A form does the same in both machines, as long as neither runs out of cells. -/
theorem Beside.evalForm (beside : m.Beside base ties n) (host host' : Host) (fuel fuel' : Nat)
    (tied : Tied ties form form') :
    Together base m n (evalFormWith host fuel form m) (evalFormWith host' fuel' form' n) := by
  obtain ⟨held, held'⟩ := beside.held tied
  have rests₁ := (beside.resting₁.evalFormWith host fuel held).1
  have rests₂ := (beside.resting₂.evalFormWith host' fuel' held').1
  have names := keepsNames_evalFormWith host fuel form beside.resting₁.safe
  have registered := beside.registered.keeps names
  have shows : ∀ value, m.Shows value →
      (after (evalFormWith host fuel form m)).display value = m.display value := fun value shows =>
    beside.resting₁.display_eq beside.registered names
      (fun r reached => beside.resting₁.evalFormWith_keeps host fuel form reached) shows
  obtain ⟨ties₁, parked, tied₁⟩ := beside.parked tied
  have user : n.user = m.user := beside.twins.user.symm
  have first : evalFormWith host fuel form m =
      mapState m.resume (evalNoted host fuel m.user form (m.parked base form)) :=
    evalFormWith_alone host fuel form beside.resting₁.idle beside.resting₁.safe.heap.ready _
  have second : evalFormWith host' fuel' form' n =
      mapState n.resume (evalNoted host' fuel' n.user form' (n.parked base form')) :=
    evalFormWith_alone host' fuel' form' beside.resting₂.idle beside.resting₂.safe.heap.ready _
  have ran := @evaluated_in (m.parked base form, n.parked base form') true ties₁ host host' fuel fuel'
    m.user form form' tied₁ ties₁ (List.Subset.refl _) _ _ ⟨parked, .refl _, .refl _⟩
  rw [first] at rests₁ registered shows
  rw [second, user] at rests₂
  rw [first, second, user]
  unfold evalNoted at rests₁ rests₂ registered shows ⊢
  generalize Machine.evalIn host fuel m.user form _ = r, Machine.evalIn host' fuel' m.user form' _ = r'
    at ran rests₁ rests₂ registered shows ⊢
  cases ran with
  | limit₁ reached _ => exact .limit₁ reached
  | limit₂ reached _ => exact .limit₂ reached
  | ok done =>
      obtain ⟨ties₂, _, still, related⟩ := done
      exact .ok (beside.went still rests₁ rests₂ registered shows) related
  | @error e s t failed =>
      obtain ⟨ties₂, _, still⟩ := failed
      obtain ⟨journal, noted⟩ := noteFailure_eq e s
      obtain ⟨journal', noted'⟩ := noteFailure_eq e t
      have still' := still.withJournal journal journal'
      rw [← noted, ← noted'] at still'
      exact .error (beside.went still' rests₁ rests₂ registered shows)

end

/-! ## Texts -/

/-- The texts of the forms that are evaluated, each as it was read. -/
def formsOf (fuel : Nat) : Nat → Reader → Machine → List String
  | 0, _, _ => []
  | count + 1, reader, m =>
      match readForm reader m with
      | (.ok (some form), reader, m) =>
          m.display form ::
            match evalForm fuel form m with
            | .ok value m => formsOf fuel count reader (m.modifyBottom fun stack => value :: stack)
            | .error (.failed _) m => formsOf fuel count reader m
            | .error .outOfFuel _ => []
      | _ => []

end Machine

namespace CommandLine

open Machine

/-- Entries of forms that were read, and then at most one where nothing could be read. -/
inductive Stops : List Entry → Prop where
  | nil : Stops []
  | unread (e : ReadError) : Stops [⟨none, "", .error (.read e)⟩]
  | cons {entry : Entry} {entries : List Entry} : entry.form.isSome → Stops entries →
      Stops (entry :: entries)

/-- No form of the transcript has failed for want of a cell. -/
def Transcript.HasRoom (t : Transcript) : Prop :=
  ∀ entry ∈ t.entries, ∀ e, entry.outcome = .error e → e.isLimit true = false

/-- The results of the forms agree with the transcript: at the end they show what it says, and
    the same has been printed. -/
structure Agrees (base : List Ref) (results : List FormResult) (t : Transcript) (m m' : Machine) :
    Prop where
  beside : ∃ ties, m'.Beside base ties t.last
  shown : results.map m'.shown = t.entries.map Entry.outcome
  proceeds : m.Proceeds (String.join (t.entries.map Entry.printed)) m'

section

variable {base : List Ref} {ties : Ties} {m m' n : Machine}

theorem Transcript.HasRoom.of_after {t : Transcript} {entry : Entry} (room : (t.after entry).HasRoom) :
    t.HasRoom := fun other member => room other (List.mem_cons_of_mem _ member)

theorem Transcript.HasRoom.not_limit {t : Transcript} {entry : Entry} {e : EvalError}
    (room : t.HasRoom) (member : entry ∈ t.entries) (failed : entry.outcome = .error e) :
    e.isLimit true ≠ true := by
  rw [room entry member e failed]
  exact Bool.false_ne_true

/-- A form before the others, after which they agree. -/
theorem Agrees.after {m₁ : Machine} {results : List FormResult} {t : Transcript} {r : FormResult}
    {entry : Entry} (agrees : Agrees base results t m₁ m') (shown : m'.shown r = entry.outcome)
    (proceeds : m.Proceeds entry.printed m₁) : Agrees base (r :: results) (t.after entry) m m' where
  beside := agrees.beside
  shown := by simp only [List.map_cons, Transcript.after, shown, agrees.shown]
  proceeds := by
    have both := proceeds.trans agrees.proceeds
    simpa only [Transcript.after, List.map_cons, String.join_cons] using both

/-- The forms of a text, evaluated one after the other by both machines. The induction is on
    the forms; the first machine keeps more and more values, and the ties change. -/
theorem evalForms_agrees {fuel fuel' count : Nat} {reader : Reader} {results all : List FormResult}
    {t : Transcript} (beside : m.Beside base ties n)
    (done : Machine.evalForms fuel count reader results m = some (all, m'))
    (written : transcribe fuel' count reader n = some t) (unlimited : Unlimited true all)
    (room : t.HasRoom) :
    ∃ more, all = more.reverse ++ results ∧
      formsOf fuel count reader m = t.entries.filterMap Entry.form ∧ Agrees base more t m m' := by
  induction count generalizing reader results m n t ties with
  | zero =>
      cases done
      cases written
      exact ⟨[], rfl, rfl, ⟨ties, beside⟩, rfl, .refl _⟩
  | succ count ih =>
      have read := beside.reads reader
      unfold Machine.evalForms at done
      unfold transcribe at written
      unfold formsOf
      generalize Machine.readForm reader m = r, Machine.readForm reader n = r' at read done written ⊢
      cases read with
      | @limit₁ e _ _ _ reached =>
          cases done
          exact (unlimited.not_limit List.mem_cons_self reached).elim
      | @limit₂ e _ _ _ reached =>
          cases written
          exact (room.not_limit List.mem_cons_self rfl reached).elim
      | @failed _ _ _ e _ _ went =>
          cases done
          cases written
          exact ⟨[.error (.read e)], rfl, rfl, ⟨_, went.beside⟩, rfl, went.proceeds⟩
      | ended went =>
          cases done
          cases written
          exact ⟨[], rfl, rfl, ⟨_, went.beside⟩, rfl, went.proceeds⟩
      | @form _ _ form form' m₁ n₁ before tied =>
          have ran := (before.beside.withOutput₂ "").evalForm (serve fuel) (serve fuel') fuel fuel' tied
          have texts : m₁.display form = n₁.display form' := before.beside.display tied
          dsimp only [Machine.evalForm] at done written ⊢
          generalize evalFormWith (serve fuel) fuel form m₁ = r,
            evalFormWith (serve fuel') fuel' form' (n₁.withOutput "") = r' at ran done written ⊢
          cases ran with
          | @limit₁ e _ _ reached =>
              cases e with
              | outOfFuel => cases done
              | failed e =>
                  exact (unlimited.not_limit (evalForms_results done List.mem_cons_self) reached).elim
          | @limit₂ e _ _ reached =>
              cases e with
              | outOfFuel => cases written
              | failed e =>
                  obtain ⟨_, _, rfl⟩ := Option.map_eq_some_iff.1 written
                  exact (room.not_limit List.mem_cons_self rfl reached).elim
          | @error _ text e m₂ n₂ went =>
              cases e with
              | outOfFuel => cases done
              | failed e =>
                  obtain ⟨t', more, rfl⟩ := Option.map_eq_some_iff.1 written
                  obtain ⟨results', split, forms, agrees⟩ := ih went.beside done more room.of_after
                  refine ⟨.error e :: results', by simp [split], ?_, agrees.after rfl ?_⟩
                  · simp [Transcript.after, forms, texts]
                  · rw [show n₂.output = "" ++ text from went.output]
                    exact before.proceeds.trans went.proceeds
          | @ok _ text value value' m₂ n₂ went tied₂ =>
              obtain ⟨t', more, rfl⟩ := Option.map_eq_some_iff.1 written
              have held := (went.beside.held tied₂).1
              have pushed := modifyBottom_push went.beside.resting₁.idle value
              obtain ⟨results', split, forms, agrees⟩ := ih (went.beside.push held) done more room.of_after
              rw [pushed] at agrees
              have kept : m'.display value = n₂.display value' :=
                (agrees.proceeds.shows value List.mem_cons_self).trans (went.beside.display tied₂)
              refine ⟨.ok value :: results', by simp [split], ?_,
                agrees.after (congrArg Except.ok kept) ?_⟩
              · simp [Transcript.after, forms, texts]
              · rw [show n₂.output = "" ++ text from went.output]
                exact (before.proceeds.trans went.proceeds).push value

/-- A transcript says no more once there is nothing to read. -/
theorem stops_transcribe {fuel count : Nat} {reader : Reader} {t : Transcript}
    (written : transcribe fuel count reader m = some t) : Stops t.entries := by
  induction count generalizing reader m t with
  | zero =>
      cases written
      exact .nil
  | succ count ih =>
      unfold transcribe at written
      generalize Machine.readForm reader m = read at written
      rcases read with ⟨_ | _ | form, reader₁, m₁⟩
      · cases written
        exact .unread _
      · cases written
        exact .nil
      · dsimp only at written
        generalize Machine.evalForm fuel form (m₁.withOutput "") = r at written
        rcases r with ⟨value, m₂⟩ | ⟨e, m₂⟩
        · obtain ⟨t', more, rfl⟩ := Option.map_eq_some_iff.1 written
          exact .cons rfl (ih more)
        · cases e with
          | outOfFuel => cases written
          | failed e =>
              obtain ⟨t', more, rfl⟩ := Option.map_eq_some_iff.1 written
              exact .cons rfl (ih more)

theorem failures_of_shown {results : List FormResult} {entries : List Entry}
    (shown : results.map m.shown = entries.map Entry.outcome) :
    (results.filter fun r => !r.isOk).length = (entries.filter Entry.failed).length := by
  have failed : ∀ r, (!r.isOk) = (m.shown r).isOk.not := by
    intro r
    cases r <;> rfl
  have failed' : Entry.failed = fun entry => entry.outcome.isOk.not := by
    funext entry
    unfold Entry.failed
    cases entry.outcome <;> rfl
  have count := congrArg (fun outcomes => (outcomes.filter fun r => r.isOk.not).length) shown
  simp only [List.filter_map, List.length_map, Function.comp_def] at count
  simpa only [failed, failed'] using count

/-- Evaluating a text and giving it to the shell come to the same, in every state that a fresh
    machine reaches, unless a form fails for want of a cell. Both evaluate the same forms, up
    to the first that cannot be read. Form by form, the value that the shell shows at once is
    what the result shows at the end, and failures are the same; the shell counts them. What
    the machines know is the same up to ties, and nothing stays on their work stacks. -/
theorem texts_and_the_shell_agree (inUse : m.InUse) {fuel fuel' failures : Nat}
    {source errors : String} {results : List FormResult} {m₁ : Machine} {s : Shell}
    (done : Machine.evalText fuel source m = some (results, m₁))
    (ran : Shell.evalSource fuel' true source ⟨m, errors⟩ = some (failures, s))
    (unlimited : Unlimited true results)
    (room : ∀ t, transcript fuel' source m = some t → t.HasRoom) :
    ∃ entries : List Entry,
      (transcript fuel' source m).map Transcript.entries = some entries ∧ Stops entries ∧
      formsOf fuel ((lex source).length + 1) (.ofSource source) m = entries.filterMap Entry.form ∧
      results.map m₁.shown = entries.map Entry.outcome ∧
      failures = (results.filter fun r => !r.isOk).length ∧
      s.errors = errors ++ String.join (entries.map Entry.complaint) ∧
      s.machine.output = m.output ++ String.join (entries.map (Entry.output true)) ∧
      m₁.output = m.output ++ String.join (entries.map Entry.printed) ∧
      (∃ ties, (m₁.withOutput "").Twins true ties (s.machine.withOutput "")) ∧
      m₁.bottom.stack = m.bottom.stack ∧ s.machine.bottom.stack = m.bottom.stack := by
  have resting := inUse.resting
  rw [Shell.evalSource_eq fuel' true source resting errors] at ran
  obtain ⟨t, written, wrote⟩ := Option.map_eq_some_iff.1 ran
  cases wrote
  unfold Machine.evalText at done
  dsimp only at done
  split at done
  · cases done
  · next all m' evaluated =>
      cases done
      have unlimited' : Unlimited true all := fun e member => unlimited e (List.mem_reverse.2 member)
      obtain ⟨more, split, forms, agrees⟩ :=
        evalForms_agrees (.refl resting inUse.registered.2) evaluated written unlimited' (room t written)
      rw [List.append_nil] at split
      obtain ⟨ties, beside⟩ := agrees.beside
      obtain ⟨pins, stack⟩ := agrees.proceeds.stack
      have idle := beside.resting₁.idle
      have height : m.bottom.stack.length = m.top.stack.length := by rw [bottom_idle resting.idle]
      have dropped : (m'.modifyBottom fun stack => stack.drop (stack.length - m.bottom.stack.length)) =
          m'.withTop { m'.top with stack := m.top.stack } := by
        rw [modifyBottom_idle idle, stack, height, List.length_append, Nat.add_sub_cancel,
          List.drop_left]
      have shown : more.map m'.shown = t.entries.map Entry.outcome := agrees.shown
      rw [split, List.reverse_reverse, dropped]
      refine ⟨t.entries, by rw [written]; rfl, stops_transcribe written, forms, shown,
        (failures_of_shown shown).symm, rfl, rfl, agrees.proceeds.output, ⟨ties, ?_⟩, ?_, ?_⟩
      · have bare : t.last.alone m.top.stack = t.last.withOutput "" := by
          rw [← beside.bare]
          rfl
        have twins := beside.twins
        rw [bare] at twins
        exact twins
      · have bottom := @bottom_idle (m'.withTop { m'.top with stack := m.top.stack }) idle
        rw [bottom_idle resting.idle, bottom]
        rfl
      · have bottom := @bottom_idle (t.shell true m.output errors).machine beside.resting₂.idle
        rw [bottom_idle resting.idle, bottom]
        exact beside.bare

end

/-- A text in a fresh machine, both ways: what its results show at the end, and the transcript
    of the shell. -/
def bothWays (config : Config) (source : String) :
    Option (List (Except EvalError String) × List Entry) :=
  match boot config none with
  | .error _ => none
  | .ok m =>
      match Machine.evalText 100 source m, transcript 100 source m with
      | some (results, m₁), some t => some (results.map m₁.shown, t.entries)
      | _, _ => none

theorem bothWays_eq {config : Config} {source : String}
    {outcomes : List (Except EvalError String)} {entries : List Entry}
    (both : bothWays config source = some (outcomes, entries)) :
    ∃ m results m₁ t, boot config none = .ok m ∧
      Machine.evalText 100 source m = some (results, m₁) ∧ transcript 100 source m = some t ∧
      results.map m₁.shown = outcomes ∧ t.entries = entries := by
  unfold bothWays at both
  split at both
  · cases both
  · next m booted =>
      split at both
      · next results m₁ t done written =>
          cases both
          exact ⟨m, results, m₁, t, booted, done, written, rfl, rfl⟩
      · cases both

/-- A text that prints, fails and ends where it cannot be read, in a machine that collects
    before every form. -/
theorem texts_and_the_shell_agree_sample :
    let source := "(cons 1 '(2 a)) (car 5) (print (cons 3 4)) )"
    ∃ m results m₁ s, m.InUse ∧ Machine.evalText 100 source m = some (results, m₁) ∧
      Shell.evalSource 100 true source ⟨m, ""⟩ = some (2, s) ∧ (results.filter fun r => !r.isOk).length = 2 ∧
      s.machine.output = m.output ++ "(1 2 a)\n(3 . 4)\n(3 . 4)\n" ∧
      m₁.output = m.output ++ "(3 . 4)\n" := by
  intro source
  have both : bothWays { arenaSize := 8 } source =
      some ([.ok "(1 2 a)", .error (.runtime (.typeError "car" "list" "5")), .ok "(3 . 4)",
          .error (.read (.unbalancedClose 43))],
        [⟨some "(cons 1 (quote (2 a)))", "", .ok "(1 2 a)"⟩,
          ⟨some "(car 5)", "", .error (.runtime (.typeError "car" "list" "5"))⟩,
          ⟨some "(print (cons 3 4))", "(3 . 4)\n", .ok "(3 . 4)"⟩,
          ⟨none, "", .error (.read (.unbalancedClose 43))⟩]) := by decide +kernel
  obtain ⟨m, results, m₁, t, booted, done, written, shown, entries⟩ := bothWays_eq both
  have inUse : m.InUse := .boot booted
  have ran := Shell.evalSource_eq 100 true source inUse.resting ""
  rw [written] at ran
  have unlimited : Unlimited true results := by
    intro e member
    have inside : .error e ∈ results.map m₁.shown := List.mem_map.2 ⟨.error e, member, rfl⟩
    rw [shown] at inside
    simp only [List.mem_cons, List.not_mem_nil, or_false, Except.error.injEq, reduceCtorEq,
      false_or] at inside
    rcases inside with rfl | rfl <;> rfl
  have room : ∀ t, transcript 100 source m = some t → t.HasRoom := by
    intro t' written' entry member e failed
    cases written.symm.trans written'
    rw [entries] at member
    simp only [List.mem_cons, List.not_mem_nil, or_false] at member
    rcases member with rfl | rfl | rfl | rfl <;> cases failed <;> rfl
  have count : t.failures = 2 := by
    rw [Transcript.failures, entries]
    rfl
  rw [Option.map_some, count] at ran
  obtain ⟨entries', same, _, _, _, failures, _, output, printed, _⟩ :=
    texts_and_the_shell_agree inUse done ran unlimited room
  rw [written, Option.map_some, entries] at same
  cases same
  exact ⟨m, results, m₁, _, inUse, done, ran, failures.symm, output, printed⟩

end CommandLine

end LispMachine
