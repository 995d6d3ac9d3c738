import LispMachine.Proofs.Reader.Acceptance

/-!
# Reading a text in parts

Positions play no part in reading but in what an error says. So a text may be cut where a
read has stopped: the front gives the forms read so far, and the rest gives what reading
would have gone on with.
-/

namespace LispMachine

/-! ## Positions -/

/-- The error with every position so many bytes later. -/
def ReadError.shift (n : Nat) : ReadError → ReadError
  | lex e span => lex e (span.shift n)
  | unbalancedClose offset => unbalancedClose (offset + n)
  | unexpectedEnd => unexpectedEnd
  | misplacedDot offset => misplacedDot (offset + n)
  | heap e => heap e

/-- The context with its dot so many bytes later. -/
def Context.shift (n : Nat) : Context → Context
  | quote => quote
  | list items => list items
  | tail dot items => tail (dot + n) items
  | close dot items last => close (dot + n) items last

/-- What remains to be done, so many bytes later. -/
def Progress.shift (n : Nat) : Progress → Progress
  | more contexts => more (contexts.map (Context.shift n))
  | done form => done form

namespace Reader

/-- The reader with a text of so many bytes before its own. -/
def shift (n : Nat) (reader : Reader) : Reader :=
  ⟨reader.ahead.map (Lexeme.shift n), reader.offset + n, reader.length + n⟩

/-- The outcome so many bytes later. -/
def shifted {α σ : Type} (value : α → α) (state : σ → σ) (n : Nat) :
    EStateM.Result ReadError σ α → EStateM.Result ReadError σ α
  | .ok a s => .ok (value a) (state s)
  | .error e s => .error (e.shift n) (state s)

/-- The outcome of a step so many bytes later. -/
abbrev shiftStep (n : Nat) :
    EStateM.Result ReadError Store Progress → EStateM.Result ReadError Store Progress :=
  shifted (Progress.shift n) id n

/-- The outcome of a read so many bytes later. -/
abbrev shiftRead (n : Nat) :
    EStateM.Result ReadError (Reader × Store) (Option Ref) →
      EStateM.Result ReadError (Reader × Store) (Option Ref) :=
  shifted id (fun p => (p.1.shift n, p.2)) n

section

variable (n : Nat) (contexts : List Context) (s : Store)

/-- A step that fails for want of room only has no positions to shift. -/
theorem bind_shift {α : Type} {x : EStateM ReadError Store α}
    {f g : α → EStateM ReadError Store Progress}
    (room : ∀ e s', x s = .error e s' → ∃ cause, e = .heap cause)
    (rest : ∀ a s', g a s' = shiftStep n (f a s')) : (x >>= g) s = shiftStep n ((x >>= f) s) := by
  rw [bind_apply, bind_apply]
  cases done : x s with
  | ok a s' => exact rest a s'
  | error e s' =>
      obtain ⟨cause, rfl⟩ := room e s' done
      rfl

theorem intern_error {name : String} {e : ReadError} {s' : Store}
    (failed : intern name s = .error e s') : ∃ cause, e = .heap cause := by
  unfold intern at failed
  split at failed
  · cases failed
  · cases failed
    exact ⟨_, rfl⟩

theorem onHeap_error {α : Type} {action : EStateM HeapError Heap α} {e : ReadError} {s' : Store}
    (failed : onHeap action s = .error e s') : ∃ cause, e = .heap cause := by
  unfold onHeap at failed
  split at failed
  · cases failed
  · cases failed
    exact ⟨_, rfl⟩

theorem plug_shift (form : Ref) :
    plug (contexts.map (Context.shift n)) form s = shiftStep n (plug contexts form s) := by
  induction contexts generalizing s form with
  | nil => rfl
  | cons context outer ih =>
      cases context with
      | quote =>
          refine bind_shift n s (fun _ _ => intern_error s) fun quote s₁ => ?_
          exact bind_shift n s₁ (fun _ _ => onHeap_error s₁) fun quoted s₂ => ih s₂ quoted
      | list items => rfl
      | tail dot items => rfl
      | close dot items last => rfl

theorem startForm_shift (token : Token) (start : Nat) :
    startForm (contexts.map (Context.shift n)) token (start + n) s =
      shiftStep n (startForm contexts token start s) := by
  cases token with
  | integer value => exact bind_shift n s (fun _ _ => onHeap_error s) fun form s₁ => plug_shift n contexts s₁ form
  | symbol name =>
      simp only [startForm]
      split
      · rfl
      · exact bind_shift n s (fun _ _ => intern_error s) fun form s₁ => plug_shift n contexts s₁ form
  | _ => rfl

theorem advance_shift (token : Token) (start : Nat) :
    advance (contexts.map (Context.shift n)) token (start + n) s =
      shiftStep n (advance contexts token start s) := by
  rcases contexts with _ | ⟨context, outer⟩
  · exact startForm_shift n [] s token start
  · cases context with
    | quote => exact startForm_shift n (.quote :: outer) s token start
    | tail dot items => exact startForm_shift n (.tail dot items :: outer) s token start
    | close dot items last =>
        cases token with
        | closeParen =>
            exact bind_shift n s (fun _ _ => onHeap_error s) fun form s₁ => plug_shift n outer s₁ form
        | _ => rfl
    | list items =>
        have begun := startForm_shift n (.list items :: outer) s token start
        simp only [List.map_cons, Context.shift] at begun
        simp only [List.map_cons, Context.shift, advance]
        split
        · exact bind_shift n s (fun _ _ => onHeap_error s) fun form s₁ => plug_shift n outer s₁ form
        · split <;> rfl
        · exact begun

theorem readFrom_shift (length : Nat) (ahead : List Lexeme) :
    readFrom (length + n) (contexts.map (Context.shift n)) (ahead.map (Lexeme.shift n)) s =
      shiftRead n (readFrom length contexts ahead s) := by
  induction ahead generalizing contexts s with
  | nil => cases contexts <;> rfl
  | cons lexeme ahead ih =>
      rcases lexeme with ⟨span, e | token⟩
      · rfl
      · have step := advance_shift n contexts s token span.start
        simp only [List.map_cons, Lexeme.shift, Span.shift, readFrom]
        rw [step]
        cases advance contexts token span.start s with
        | error e s₁ => rfl
        | ok progress s₁ =>
            cases progress with
            | done form => rfl
            | more contexts => exact ih contexts s₁

theorem read_shift (reader : Reader) :
    read (reader.shift n, s) = shiftRead n (read (reader, s)) :=
  readFrom_shift n [] s reader.length reader.ahead

end

/-- What so many reads yield, one after the other. A read that fails does not stop the next
    one. -/
def outcomes : Nat → Reader × Store → List (EStateM.Result ReadError (Reader × Store) (Option Ref))
  | 0, _ => []
  | count + 1, p => read p :: outcomes count (after (read p))

theorem outcomes_shift (n count : Nat) (reader : Reader) (s : Store) :
    outcomes count (reader.shift n, s) = (outcomes count (reader, s)).map (shiftRead n) := by
  induction count generalizing reader s with
  | zero => rfl
  | succ count ih =>
      rw [outcomes, outcomes, read_shift, List.map_cons]
      cases read (reader, s) with
      | ok form p => exact congrArg _ (ih p.1 p.2)
      | error e p => exact congrArg _ (ih p.1 p.2)

/-! ## Cuts -/

/-- A text may be cut where reads have come to. -/
theorem reads_cut {source : String} {s : Store} {forms : List Ref} {q : Reader × Store}
    (reads : Reads (ofSource source, s) forms q) :
    ∃ pre post, source = pre ++ post ∧ pre.utf8ByteSize = q.1.offset ∧
      lex source = lex pre ++ q.1.ahead ∧ readAll pre s = .ok forms q.2 ∧
      q.1 = (ofSource post).shift q.1.offset := by
  obtain ⟨used, rest, s', split, rfl, same⟩ := reads.consumed
  obtain ⟨pre, post, rfl, size, front, back⟩ := lex_cut split
  refine ⟨pre, post, rfl, size, by rw [front]; exact split, ?_, ?_⟩
  · have whole := same [] pre.utf8ByteSize
    rw [List.append_nil, ← front] at whole
    have ended := (readAll_of_reads whole).1 _ rfl
    exact ended
  · simp [ofSource, shift, back, size, String.utf8ByteSize_append, Nat.add_comm]

/-! ## The grammar -/

/-- Why reading a text stops with an error, and where it stops. -/
inductive Fails (source : String) : ReadError → Reader → Prop where
  /-- The text ends within a form. -/
  | unfinished {reader : Reader} : reader.ahead = [] → reader.offset = source.utf8ByteSize →
      Viable ((lex source).map Lexeme.token) →
      (∀ ds, ¬ Spells ((lex source).map Lexeme.token) ds) → Fails source .unexpectedEnd reader
  /-- The lexeme consumed last is the first with which no sequence of forms begins. -/
  | refused {reader : Reader} (used : List Lexeme) {lexeme : Lexeme} {e : ReadError} :
      lex source = used ++ lexeme :: reader.ahead → reader.offset = lexeme.span.stop →
      Viable (used.map Lexeme.token) → ¬ Viable ((used ++ [lexeme]).map Lexeme.token) →
      Blame used lexeme e → Fails source e reader

/-- A read that fails after others stops where the tokens of the whole text cease to be the
    beginning of a sequence of forms. -/
theorem fails_of_reads {source : String} {s : Store} {forms : List Ref} {p q : Reader × Store}
    {e : ReadError} (consistent : s.Consistent) (reads : Reads (ofSource source, s) forms p)
    (failed : read p = .error e q) : (∃ cause, e = .heap cause) ∨ Fails source e q.1 := by
  obtain ⟨later, before, ds, split, spelled, _⟩ := reads.spells consistent
  have whole : p.1.length = source.utf8ByteSize := by
    obtain ⟨_, _, _, _, rfl, _⟩ := reads.consumed
    rfl
  have reading := read_reading p.1 later.consistent
  rw [failed] at reading
  cases reading with
  | full => exact Or.inl ⟨_, rfl⟩
  | unfinished viable incomplete =>
      rw [List.nil_append] at viable incomplete
      refine Or.inr (.unfinished rfl whole ?_ fun es all => ?_)
      · rw [split, List.map_append]
        exact (viable_append_iff spelled).2 viable
      · rw [split, List.map_append] at all
        obtain ⟨rest, spelled'⟩ := spelled.of_append all
        exact incomplete rest spelled'
  | @refused used rest lexeme _ s' split' viable ended blame =>
      rw [List.nil_append] at viable ended blame
      refine Or.inr (.refused (before ++ used) ?_ rfl ?_ ?_ (blame.before before))
      · rw [split, split', List.append_assoc]
      · rw [List.map_append]
        exact (viable_append_iff spelled).2 viable
      · rw [List.append_assoc, List.map_append]
        exact mt (viable_append_iff spelled).1 ended

/-- Reads in a row consume all the text, or the next one fails. -/
theorem readAll_cases (source : String) {s : Store} (consistent : s.Consistent) :
    (∃ forms s', readAll source s = .ok forms s' ∧ s.Precedes s' ∧
      ∃ ds, Spells ((lex source).map Lexeme.token) ds ∧ List.Forall₂ s'.Denotes forms ds) ∨
    ∃ forms p e q, readAll source s = .error e q.2 ∧ Reads (ofSource source, s) forms p ∧
      read p = .error e q ∧ ((∃ cause, e = .heap cause) ∨ Fails source e q.1) := by
  obtain ⟨forms, p, reads, stops⟩ := exists_reads (ofSource source) s
  cases last : read p with
  | error e q =>
      exact Or.inr ⟨forms, p, e, q, (readAll_of_reads reads).2 e q last, reads, last,
        fails_of_reads consistent reads last⟩
  | ok form q =>
      cases form with
      | some form => exact absurd last (stops form q)
      | none =>
          have done := (readAll_of_reads reads).1 q last
          obtain ⟨later, used, ds, split, spelled, all⟩ := reads.spells consistent
          have reading := read_reading p.1 later.consistent
          rw [last] at reading
          cases reading with
          | ended _ none =>
              rw [none, List.append_nil] at split
              subst split
              exact Or.inl ⟨forms, p.2, done, later, ds, spelled, all⟩

/-- A heap without a limit does not run out. -/
theorem readAll_room {source : String} {s : Store} (consistent : s.Consistent)
    (unlimited : s.heap.maxArenas = none) (cause : HeapError) (s' : Store) :
    readAll source s ≠ .error (.heap cause) s' := by
  intro full
  rcases readAll_cases source consistent with
    ⟨_, _, done, _⟩ | ⟨forms, p, e, q, failed, reads, last, _⟩
  · rw [done] at full
    cases full
  · rw [failed] at full
    cases full
    have later := (reads.spells consistent).1
    exact read_room later.consistent (later.limit.trans unlimited) cause q last

theorem Fails.not_spells {source : String} {e : ReadError} {reader : Reader}
    (fails : Fails source e reader) (ds : List Datum) : ¬ Spells ((lex source).map Lexeme.token) ds := by
  cases fails with
  | unfinished _ _ _ incomplete => exact incomplete ds
  | refused used split _ _ ended _ =>
      intro spelled
      refine ended ⟨reader.ahead.map Lexeme.token, ds, ?_⟩
      rw [split] at spelled
      simpa using spelled

/-- Reading all of a text succeeds exactly when its tokens are a sequence of forms, and then
    with the data that they spell. A read consumes the tokens of one form, the text may be cut
    between reads, and reading fails upon the first token with which no sequence of forms
    begins, or at the end of the text within a form. Nothing else fails but a limited heap. -/
theorem accepts_exactly_the_grammar (source : String) {s : Store} (consistent : s.Consistent)
    (room : s.heap.maxArenas = none ∨ ∀ cause s', readAll source s ≠ .error (.heap cause) s') :
    ((∃ forms s', readAll source s = .ok forms s') ↔
      ∃ ds, Spells ((lex source).map Lexeme.token) ds) ∧
    (∀ forms s', readAll source s = .ok forms s' → s.Precedes s' ∧
      ∃ ds, Spells ((lex source).map Lexeme.token) ds ∧ List.Forall₂ s'.Denotes forms ds) ∧
    (∀ forms p form q, Reads (ofSource source, s) forms p → read p = .ok (some form) q →
      ∃ used d, p.1.ahead = used ++ q.1.ahead ∧ Spells (used.map Lexeme.token) [d] ∧
        q.2.Denotes form d) ∧
    (∀ forms q, Reads (ofSource source, s) forms q →
      ∃ pre post, source = pre ++ post ∧ pre.utf8ByteSize = q.1.offset ∧
        lex source = lex pre ++ q.1.ahead ∧ readAll pre s = .ok forms q.2 ∧
        ∀ count, outcomes count q = (outcomes count (ofSource post, q.2)).map (shiftRead q.1.offset)) ∧
    ∀ e s', readAll source s = .error e s' →
      ∃ forms p q, Reads (ofSource source, s) forms p ∧ read p = .error e q ∧ q.2 = s' ∧
        Fails source e q.1 := by
  replace room := room.elim (readAll_room consistent) id
  have ends := readAll_cases source consistent
  refine ⟨⟨?_, ?_⟩, ?_, ?_, ?_, ?_⟩
  · rintro ⟨forms, s', done⟩
    rcases ends with ⟨_, _, _, _, ds, spelled, _⟩ | ⟨_, _, _, _, failed, _⟩
    · exact ⟨ds, spelled⟩
    · rw [done] at failed
      cases failed
  · rintro ⟨ds, spelled⟩
    rcases ends with ⟨forms, s', done, _⟩ | ⟨_, _, e, q, failed, _, _, ⟨cause, rfl⟩ | fails⟩
    · exact ⟨forms, s', done⟩
    · exact absurd failed (room cause q.2)
    · exact absurd spelled (fails.not_spells ds)
  · intro forms s' done
    rcases ends with ⟨_, _, same, later, found⟩ | ⟨_, _, _, _, failed, _⟩
    · rw [done] at same
      cases same
      exact ⟨later, found⟩
    · rw [done] at failed
      cases failed
  · intro forms p form q reads done
    have reading := read_reading p.1 (reads.spells consistent).1.consistent
    rw [done] at reading
    cases reading with
    | @form used rest lexeme _ d s' split spelled _ denotes =>
        exact ⟨used ++ [lexeme], d, by rw [split]; simp, spelled, denotes⟩
  · intro forms q reads
    obtain ⟨pre, post, split, size, lexed, done, rest⟩ := reads_cut reads
    refine ⟨pre, post, split, size, lexed, done, fun count => ?_⟩
    have same := outcomes_shift q.1.offset count (ofSource post) q.2
    rw [← rest] at same
    exact same
  · intro e s' failed
    rcases ends with ⟨_, _, done, _⟩ | ⟨forms, p, e', q, same, reads, last, ⟨cause, rfl⟩ | fails⟩
    · rw [failed] at done
      cases done
    · exact absurd same (room cause q.2)
    · rw [failed] at same
      cases same
      exact ⟨forms, p, q, reads, last, rfl, fails⟩

theorem accepts_exactly_the_grammar_sample :
    let source := "(a 'b . (1 a)) a (c . d e)"
    let s := Store.ofHeap (.ofArenaSize 8)
    (s.Consistent ∧ s.heap.maxArenas = none) ∧
      ∃ e s', readAll source s = .error e s' ∧
        ∃ forms p q, Reads (ofSource source, s) forms p ∧ read p = .error e q ∧ q.2 = s' ∧
          Fails source e q.1 := by
  intro source s
  have consistent : s.Consistent := Store.consistent_ofHeap (Heap.wellFormed_ofArenaSize 8)
  obtain ⟨s', failed⟩ : ∃ s', readAll source s = .error (.misplacedDot 20) s' := by
    have outcome : (match readAll source s with
        | .ok _ _ => none
        | .error e _ => some e) = some (.misplacedDot 20) := by decide +kernel
    cases done : readAll source s with
    | ok forms s' =>
        rw [done] at outcome
        cases outcome
    | error e s' =>
        rw [done] at outcome
        cases outcome
        exact ⟨s', rfl⟩
  have all := accepts_exactly_the_grammar source consistent (.inl rfl)
  exact ⟨⟨consistent, rfl⟩, _, s', failed, all.2.2.2.2 _ s' failed⟩

end Reader

end LispMachine
