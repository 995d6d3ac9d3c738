import LispMachine.Proofs.Reader.Denotation
import LispMachine.Proofs.Reader.Lexing

/-!
# What the reader accepts

The reader takes the steps of the parser: its open contexts denote what the parser has
open, it goes on exactly when the parser does, and the form that it hands out denotes the
datum that the parser finds. So a read consumes the tokens of one form, and a read that
fails stops at the first token with which no sequence of forms begins.
-/

namespace LispMachine

/-- The offset is that of a dot among the lexemes. -/
def DotAt (lexemes : List Lexeme) (offset : Nat) : Prop :=
  ∃ dot ∈ lexemes, dot.token = .ok (.symbol ".") ∧ dot.span.start = offset

/-- What the reader says when a lexeme is out of place after others. -/
inductive Blame (used : List Lexeme) (lexeme : Lexeme) : ReadError → Prop where
  | fault {e : LexError} : lexeme.token = .error e → Blame used lexeme (.lex e lexeme.span)
  | close : lexeme.token = .ok .closeParen →
      Blame used lexeme (.unbalancedClose lexeme.span.start)
  | dot {token : Token} {offset : Nat} : lexeme.token = .ok token → token ≠ .closeParen →
      DotAt (used ++ [lexeme]) offset → Blame used lexeme (.misplacedDot offset)

/-- The context denotes the form that is open. Its dot is among the lexemes. -/
inductive Context.Denotes (s : Store) (used : List Lexeme) : Context → Pending → Prop where
  | quote : Denotes s used .quote .quote
  | list {items : List Ref} {ds : List Datum} : List.Forall₂ s.Denotes items ds →
      Denotes s used (.list items) (.list ds)
  | tail {dot : Nat} {items : List Ref} {ds : List Datum} : DotAt used dot →
      List.Forall₂ s.Denotes items ds → Denotes s used (.tail dot items) (.tail ds)
  | close {dot : Nat} {items : List Ref} {ds : List Datum} {last : Ref} {d : Datum} :
      DotAt used dot → List.Forall₂ s.Denotes items ds → s.Denotes last d →
      Denotes s used (.close dot items last) (.close ds d)

/-- The contexts denote what is open, innermost first. -/
abbrev DenoteAll (s : Store) (used : List Lexeme) : List Context → List Pending → Prop :=
  List.Forall₂ (Context.Denotes s used)

/-- What remains to be done denotes what the parser has open and found. -/
inductive Progress.Denotes (s : Store) (used : List Lexeme) : Progress → Parser → Prop where
  | more {context : Context} {x : Pending} {contexts : List Context} {pending : List Pending} :
      context.Denotes s used x → DenoteAll s used contexts pending →
      Denotes s used (.more (context :: contexts)) ⟨x :: pending, []⟩
  | done {form : Ref} {d : Datum} : s.Denotes form d → Denotes s used (.done form) ⟨[], [d]⟩

section

variable {s s' : Store} {used : List Lexeme} {contexts : List Context} {pending : List Pending}

theorem DotAt.append {offset : Nat} (dot : DotAt used offset) (more : List Lexeme) :
    DotAt (used ++ more) offset := by
  obtain ⟨lexeme, member, rest⟩ := dot
  exact ⟨lexeme, List.mem_append_left _ member, rest⟩

theorem Blame.before {lexeme : Lexeme} {e : ReadError} (blame : Blame used lexeme e)
    (before : List Lexeme) : Blame (before ++ used) lexeme e := by
  cases blame with
  | fault meant => exact .fault meant
  | close meant => exact .close meant
  | dot meant noClose dot =>
      obtain ⟨cited, member, rest⟩ := dot
      refine .dot meant noClose ⟨cited, ?_, rest⟩
      rw [List.append_assoc]
      exact List.mem_append_right _ member

theorem Context.Denotes.later {context : Context} {x : Pending} (denotes : context.Denotes s used x)
    (later : s.Precedes s') (more : List Lexeme) : context.Denotes s' (used ++ more) x := by
  cases denotes with
  | quote => exact .quote
  | list items => exact .list (Store.forall₂_later items later)
  | tail dot items => exact .tail (dot.append more) (Store.forall₂_later items later)
  | close dot items last =>
      exact .close (dot.append more) (Store.forall₂_later items later) (last.later later)

theorem DenoteAll.later (all : DenoteAll s used contexts pending) (later : s.Precedes s')
    (more : List Lexeme) : DenoteAll s' (used ++ more) contexts pending :=
  all.imp fun _ _ denotes => denotes.later later more

end

namespace Reader

/-! ## One step -/

section

variable {s : Store} {used : List Lexeme} {contexts : List Context} {pending : List Pending}

/-- The reader goes the way of the parser. -/
abbrev Agrees (s : Store) (used : List Lexeme) (next : Option Parser) (bad : ReadError → Prop) :
    EStateM.Result ReadError Store Progress → Prop :=
  Leads s (fun progress s' => ∃ p, next = some p ∧ progress.Denotes s' used p)
    fun e => next = none ∧ bad e

/-- A form that may come next is taken. -/
theorem plug_agrees (consistent : s.Consistent) {form : Ref} {d : Datum}
    (all : DenoteAll s used contexts pending) (accept : Accepting pending)
    (denotes : s.Denotes form d) {bad : ReadError → Prop} :
    Agrees s used (Parser.give [] pending d) bad (plug contexts form s) := by
  induction contexts generalizing s pending form d with
  | nil =>
      cases all
      exact leads_pure consistent ⟨_, rfl, .done denotes⟩
  | cons context contexts ih =>
      cases all with
      | @cons _ x _ pending head rest =>
          cases head with
          | quote =>
              refine (leads_intern consistent _).bind fun quote s₁ later quoted => ?_
              have items := List.Forall₂.cons quoted (.cons (denotes.later later) .nil)
              refine (leads_listWithTail later.consistent items .null).bind fun _ s₂ later' made => ?_
              have rest' := DenoteAll.later rest (later.trans later') []
              rw [List.append_nil] at rest'
              have given := ih later'.consistent rest' accept.outer made
              exact given
          | list items =>
              exact leads_pure consistent ⟨_, rfl, .more (.list (.cons denotes items)) rest⟩
          | tail dot items =>
              exact leads_pure consistent ⟨_, rfl, .more (.close dot items denotes) rest⟩
          | close dot items last => cases accept _ List.mem_cons_self

variable (lexeme : Lexeme) {token : Token}

theorem startForm_agrees (consistent : s.Consistent) (all : DenoteAll s used contexts pending)
    (accept : Accepting pending) (meant : lexeme.token = .ok token) :
    Agrees s (used ++ [lexeme]) (Parser.startForm ⟨pending, []⟩ token) (Blame used lexeme)
      (startForm contexts token lexeme.span.start s) := by
  cases token with
  | openParen =>
      exact leads_pure consistent ⟨_, rfl, .more (.list .nil) (all.later consistent.refl _)⟩
  | closeParen => exact leads_throw consistent ⟨rfl, .close meant⟩
  | quote => exact leads_pure consistent ⟨_, rfl, .more .quote (all.later consistent.refl _)⟩
  | integer value =>
      refine (leads_integer consistent value).bind fun form s₁ later made => ?_
      exact plug_agrees later.consistent (all.later later _) accept made
  | symbol name =>
      unfold startForm Parser.startForm
      dsimp only
      split
      · next dot =>
          subst dot
          have here : DotAt (used ++ [lexeme]) lexeme.span.start :=
            ⟨lexeme, List.mem_append_right _ List.mem_cons_self, meant, rfl⟩
          exact leads_throw consistent ⟨rfl, .dot meant nofun here⟩
      · refine (leads_intern consistent name).bind fun form s₁ later made => ?_
        exact plug_agrees later.consistent (all.later later _) accept made

theorem advance_dot (items : List Ref) (outer : List Context) (start : Nat) :
    advance (.list items :: outer) (.symbol ".") start =
      if items = [] then throw (.misplacedDot start)
      else pure (.more (.tail start items :: outer)) := rfl

theorem advance_item (noClose : token ≠ .closeParen) (noDot : token ≠ .symbol ".")
    (items : List Ref) (outer : List Context) (start : Nat) :
    advance (.list items :: outer) token start = startForm (.list items :: outer) token start := by
  unfold advance
  dsimp only
  split
  · exact absurd rfl noClose
  · exact absurd rfl noDot
  · rfl

/-- One token. -/
theorem advance_agrees (consistent : s.Consistent) (all : DenoteAll s used contexts pending)
    (accept : Accepting pending.tail) (meant : lexeme.token = .ok token) :
    Agrees s (used ++ [lexeme]) (Parser.take ⟨pending, []⟩ token) (Blame used lexeme)
      (advance contexts token lexeme.span.start s) := by
  have closed : ∀ {outer : List Context} {outer' : List Pending} {items : List Ref}
      {ds : List Datum} {last : Ref} {d : Datum},
      DenoteAll s used outer outer' → Accepting outer' →
      List.Forall₂ s.Denotes items ds → s.Denotes last d →
      Agrees s (used ++ [lexeme]) (Parser.give [] outer' (.listWithTail ds.reverse d))
        (Blame used lexeme) ((onHeap (Heap.listWithTail items.reverse last) >>= plug outer) s) := by
    intro outer outer' items ds last d rest accept all denotes
    refine (leads_listWithTail consistent (List.forall₂_reverse_iff.2 all) denotes).bind
      fun form s₁ later made => ?_
    exact plug_agrees later.consistent (rest.later later _) accept made
  cases all with
  | nil => exact startForm_agrees lexeme consistent .nil nofun meant
  | @cons context x contexts pending head rest =>
      have begun : x.accepts = true → Agrees s (used ++ [lexeme])
          (Parser.startForm ⟨x :: pending, []⟩ token) (Blame used lexeme)
          (startForm (context :: contexts) token lexeme.span.start s) := fun accepts =>
        startForm_agrees lexeme consistent (.cons head rest) (.cons accepts accept) meant
      cases head with
      | quote => exact begun rfl
      | tail dot items => exact begun rfl
      | @close dot items ds last d cited all denotes =>
          by_cases close : token = .closeParen
          · subst close
            exact closed rest accept all denotes
          · have refused : Agrees s (used ++ [lexeme]) none (Blame used lexeme)
                ((throw (.misplacedDot dot) : EStateM ReadError Store Progress) s) :=
              leads_throw consistent ⟨rfl, .dot meant close (cited.append _)⟩
            cases token with
            | closeParen => exact absurd rfl close
            | _ => exact refused
      | @list items ds all =>
          have same : items = [] ↔ ds = [] := by
            rw [← List.length_eq_zero_iff, all.length_eq, List.length_eq_zero_iff]
          by_cases noClose : token = .closeParen
          · subst noClose
            exact closed rest accept all .null
          · by_cases noDot : token = .symbol "."
            · subst noDot
              have here : DotAt (used ++ [lexeme]) lexeme.span.start :=
                ⟨lexeme, List.mem_append_right _ List.mem_cons_self, meant, rfl⟩
              have next : Parser.take ⟨.list ds :: pending, []⟩ (.symbol ".") =
                  if ds = [] then none else some ⟨.tail ds :: pending, []⟩ := rfl
              rw [advance_dot, next]
              simp only [same]
              split
              · exact leads_throw consistent ⟨rfl, .dot meant nofun here⟩
              · refine leads_pure consistent ⟨_, rfl, .more (.tail here all) ?_⟩
                exact DenoteAll.later rest consistent.refl _
            · rw [advance_item noClose noDot, Parser.take_of_open rfl noClose noDot]
              exact begun rfl

end

/-! ## One form -/

/-- What a read comes to that has consumed the lexemes `before` of a form. -/
inductive Reading (length : Nat) (s : Store) (before ahead : List Lexeme) :
    EStateM.Result ReadError (Reader × Store) (Option Ref) → Prop where
  /-- No form is left. -/
  | ended : before = [] → ahead = [] → Reading length s before ahead (.ok none (⟨[], length, length⟩, s))
  /-- The lexemes consumed are those of one form, which has been made. -/
  | form (used : List Lexeme) {rest : List Lexeme} {lexeme : Lexeme} {form : Ref} {d : Datum}
      {s' : Store} :
      ahead = used ++ lexeme :: rest →
      Spells ((before ++ used ++ [lexeme]).map Lexeme.token) [d] → s.Precedes s' →
      s'.Denotes form d →
      Reading length s before ahead (.ok (some form) (⟨rest, lexeme.span.stop, length⟩, s'))
  /-- The text ends within a form. -/
  | unfinished {s' : Store} : Viable ((before ++ ahead).map Lexeme.token) →
      (∀ ds, ¬ Spells ((before ++ ahead).map Lexeme.token) ds) → s.Precedes s' →
      Reading length s before ahead (.error .unexpectedEnd (⟨[], length, length⟩, s'))
  /-- The last lexeme consumed is the first with which no sequence of forms begins. -/
  | refused (used : List Lexeme) {rest : List Lexeme} {lexeme : Lexeme} {e : ReadError}
      {s' : Store} :
      ahead = used ++ lexeme :: rest → Viable ((before ++ used).map Lexeme.token) →
      ¬ Viable ((before ++ used ++ [lexeme]).map Lexeme.token) → Blame (before ++ used) lexeme e →
      s.Precedes s' →
      Reading length s before ahead (.error e (⟨rest, lexeme.span.stop, length⟩, s'))
  /-- The heap has run out, as it may when there is a limit. -/
  | full {cause : HeapError} {reader : Reader} {s' : Store} : s.heap.maxArenas ≠ none →
      s.Precedes s' →
      Reading length s before ahead (.error (.heap cause) (reader, s'))

section

variable {length : Nat} {s s' : Store} {before ahead : List Lexeme} {lexeme : Lexeme}
  {result : EStateM.Result ReadError (Reader × Store) (Option Ref)}

/-- One more lexeme has been consumed. -/
theorem Reading.step (later : s.Precedes s')
    (reading : Reading length s' (before ++ [lexeme]) ahead result) :
    Reading length s before (lexeme :: ahead) result := by
  cases reading with
  | ended none _ => cases List.append_ne_nil_of_right_ne_nil before (List.cons_ne_nil _ _) none
  | form used split spelled later' denotes =>
      refine .form (lexeme :: used) ?_ ?_ (later.trans later') denotes
      · rw [split, List.cons_append]
      · simpa using spelled
  | unfinished viable incomplete later' =>
      refine .unfinished ?_ ?_ (later.trans later')
      · simpa using viable
      · simpa using incomplete
  | refused used split viable ended blame later' =>
      refine .refused (lexeme :: used) ?_ ?_ ?_ ?_ (later.trans later')
      · rw [split, List.cons_append]
      · simpa using viable
      · simpa using ended
      · simpa using blame
  | full limited later' =>
      rw [later.limit] at limited
      exact .full limited (later.trans later')

end

open LispMachine.Parser in
/-- The induction is on the lexemes ahead. The invariant: the lexemes consumed have led the
    parser to what the contexts denote. -/
theorem readFrom_reading (length : Nat) {s : Store} {before ahead : List Lexeme}
    {contexts : List Context} {pending : List Pending} (ts : List Token)
    (consistent : s.Consistent) (all : DenoteAll s before contexts pending)
    (meant : before.map Lexeme.token = ts.map .ok) (taken : takeAll ts start = some ⟨pending, []⟩) :
    Reading length s before ahead (readFrom length contexts ahead s) := by
  have viable : Viable (before.map Lexeme.token) := viable_iff.2 ⟨ts, _, meant, taken⟩
  induction ahead generalizing s before contexts pending ts with
  | nil =>
      cases all with
      | nil =>
          have none : Forms ts [] := forms_iff.2 taken
          cases none
          exact .ended (List.map_eq_nil_iff.1 meant) rfl
      | cons head rest =>
          refine .unfinished (by simpa using viable) ?_ consistent.refl
          rintro ds ⟨us, same, forms⟩
          rw [List.append_nil, meant] at same
          obtain rfl := (List.map_inj_right fun _ _ => Except.ok.inj).1 same
          have ended := forms_iff.1 forms
          rw [taken] at ended
          cases ended
  | cons lexeme ahead ih =>
      rcases lexeme with ⟨span, e | token⟩
      · refine .refused [] rfl (by simpa using viable) ?_ (.fault rfl) consistent.refl
        simpa using not_viable_of_fault
      · have accept := (Parsed.start.takeAll taken).accepting
        have step : Agrees s (before ++ [⟨span, .ok token⟩]) (Parser.take ⟨pending, []⟩ token)
            (Blame before ⟨span, .ok token⟩) (advance contexts token span.start s) :=
          advance_agrees ⟨span, .ok token⟩ consistent all accept rfl
        have meant' : (before ++ [(⟨span, .ok token⟩ : Lexeme)]).map Lexeme.token =
            (ts ++ [token]).map .ok := by
          simp [meant]
        have taken' : takeAll (ts ++ [token]) start = Parser.take ⟨pending, []⟩ token := by
          rw [takeAll_append, taken, Option.bind_some, takeAll]
          cases Parser.take ⟨pending, []⟩ token <;> rfl
        unfold readFrom
        cases done : advance contexts token span.start s with
        | error e s' =>
            rw [done] at step
            obtain ⟨later, ⟨⟨cause, rfl⟩, limited⟩ | ⟨refused, blame⟩⟩ := step
            · exact .full limited later
            · refine .refused [] rfl (by simpa using viable) ?_ (by simpa using blame) later
              simpa [meant] using not_viable_of_take taken refused
        | ok progress s' =>
            rw [done] at step
            obtain ⟨later, p, next, denotes⟩ := step
            rw [next] at taken'
            cases denotes with
            | done denotes =>
                refine .form [] rfl ⟨ts ++ [token], ?_, forms_iff.2 taken'⟩ later denotes
                simpa using meant'
            | more first rest =>
                have viable' := viable_iff.2 ⟨_, _, meant', taken'⟩
                exact .step later (ih _ later.consistent (.cons first rest) meant' taken' viable')

/-- A read consumes the lexemes of one form, or it fails at the first lexeme with which no
    sequence of forms begins, or within a form at the end of the text. -/
theorem read_reading (reader : Reader) {s : Store} (consistent : s.Consistent) :
    Reading reader.length s [] reader.ahead (read (reader, s)) :=
  readFrom_reading reader.length [] consistent .nil rfl rfl

/-- A heap without a limit does not run out. -/
theorem read_room {reader : Reader} {s : Store} (consistent : s.Consistent)
    (unlimited : s.heap.maxArenas = none) (cause : HeapError) (p : Reader × Store) :
    read (reader, s) ≠ .error (.heap cause) p := by
  intro failed
  have reading := read_reading reader consistent
  rw [failed] at reading
  cases reading with
  | refused _ _ _ _ blame => cases blame
  | full limited => exact limited unlimited

/-! ## Every form -/

/-- A read depends on nothing but the lexemes that it consumes. -/
theorem readFrom_form {length : Nat} {contexts : List Context} {ahead : List Lexeme} {s : Store}
    {form : Ref} {q : Reader × Store}
    (done : readFrom length contexts ahead s = .ok (some form) q) :
    ∃ used lexeme rest s', ahead = used ++ lexeme :: rest ∧
      q = (⟨rest, lexeme.span.stop, length⟩, s') ∧
      ∀ rest' length', readFrom length' contexts (used ++ lexeme :: rest') s =
        .ok (some form) (⟨rest', lexeme.span.stop, length'⟩, s') := by
  induction ahead generalizing contexts s with
  | nil => cases contexts <;> cases done
  | cons lexeme ahead ih =>
      rcases lexeme with ⟨span, e | token⟩
      · cases done
      · unfold readFrom at done
        cases step : advance contexts token span.start s with
        | error e s₁ =>
            rw [step] at done
            cases done
        | ok progress s₁ =>
            rw [step] at done
            cases progress with
            | done made =>
                cases done
                refine ⟨[], ⟨span, .ok token⟩, ahead, s₁, rfl, rfl, fun rest length' => ?_⟩
                rw [List.nil_append, readFrom, step]
            | more contexts' =>
                obtain ⟨used, lexeme, rest, s', rfl, stands, same⟩ := ih done
                refine ⟨⟨span, .ok token⟩ :: used, lexeme, rest, s', rfl, stands,
                  fun rest length' => ?_⟩
                rw [List.cons_append, readFrom, step]
                exact same rest length'

/-- So many reads in a row succeed with these forms. -/
inductive Reads : Reader × Store → List Ref → Reader × Store → Prop where
  | nil (p : Reader × Store) : Reads p [] p
  | cons {p q r : Reader × Store} {form : Ref} {forms : List Ref} :
      read p = .ok (some form) q → Reads q forms r → Reads p (form :: forms) r

section

variable {ahead : List Lexeme} {offset length : Nat} {s : Store} {forms : List Ref}
  {q : Reader × Store}

/-- Reads depend on nothing but the lexemes that they consume. -/
theorem Reads.consumed (reads : Reads (⟨ahead, offset, length⟩, s) forms q) :
    ∃ used rest s', ahead = used ++ rest ∧ q = (⟨rest, reached offset used, length⟩, s') ∧
      ∀ rest' length', Reads (⟨used ++ rest', offset, length'⟩, s) forms
        (⟨rest', reached offset used, length'⟩, s') := by
  generalize begun : ((⟨ahead, offset, length⟩ : Reader), s) = p at reads
  induction reads generalizing ahead offset s with
  | nil p =>
      cases begun
      exact ⟨[], ahead, s, rfl, rfl, fun rest length' => .nil _⟩
  | @cons _ q _ form forms done _ ih =>
      cases begun
      obtain ⟨used, lexeme, rest, s₁, rfl, rfl, same⟩ := readFrom_form done
      obtain ⟨used', rest', s₂, rfl, rfl, same'⟩ := ih rfl
      have stop : reached offset (used ++ [lexeme]) = lexeme.span.stop := by simp [reached]
      refine ⟨used ++ [lexeme] ++ used', rest', s₂, by simp, ?_, fun rest length' => ?_⟩
      · rw [reached_append, stop]
      · rw [reached_append, stop]
        refine .cons ?_ (same' rest length')
        have first := same (used' ++ rest) length'
        simpa [read] using first

/-- Reads consume the lexemes of as many forms as they succeed with. -/
theorem Reads.spells (reads : Reads (⟨ahead, offset, length⟩, s) forms q)
    (consistent : s.Consistent) :
    s.Precedes q.2 ∧ ∃ used ds, ahead = used ++ q.1.ahead ∧ Spells (used.map Lexeme.token) ds ∧
      List.Forall₂ q.2.Denotes forms ds := by
  generalize begun : ((⟨ahead, offset, length⟩ : Reader), s) = p at reads
  induction reads generalizing ahead offset s with
  | nil p =>
      cases begun
      exact ⟨consistent.refl, [], [], rfl, ⟨[], rfl, .nil⟩, .nil⟩
  | @cons _ q r form forms done _ ih =>
      cases begun
      have reading := read_reading ⟨ahead, offset, length⟩ consistent
      rw [done] at reading
      cases reading with
      | @form used rest lexeme _ d s₁ split spelled later denotes =>
          obtain ⟨later', used', ds, split', spelled', all⟩ := ih later.consistent rfl
          refine ⟨later.trans later', used ++ [lexeme] ++ used', d :: ds, ?_, ?_,
            .cons (denotes.later later') all⟩
          · rw [show ahead = used ++ lexeme :: rest from split, split']
            simp
          · rw [List.map_append]
            exact spelled.append spelled'

/-- Each form takes at least one lexeme, so that reads come to an end. -/
theorem exists_reads (reader : Reader) (s : Store) :
    ∃ forms p, Reads (reader, s) forms p ∧ ∀ form q, read p ≠ .ok (some form) q := by
  rcases reader with ⟨ahead, offset, length⟩
  induction size : ahead.length using Nat.strong_induction_on generalizing ahead offset s with
  | _ n ih =>
      by_cases stops : ∀ form q, read (⟨ahead, offset, length⟩, s) ≠ .ok (some form) q
      · exact ⟨[], _, .nil _, stops⟩
      · push Not at stops
        obtain ⟨form, q, done⟩ := stops
        obtain ⟨used, lexeme, rest, s₁, split, rfl, _⟩ := readFrom_form done
        have less : rest.length < n := by
          rw [← size, show ahead = used ++ lexeme :: rest from split, List.length_append,
            List.length_cons]
          omega
        obtain ⟨forms, p, reads, stops⟩ := ih _ less s₁ rest lexeme.span.stop rfl
        exact ⟨form :: forms, p, .cons done reads, stops⟩

/-- Reading all goes on where reads have come to. -/
theorem readMany_of_reads {bound : Nat} (found : List Ref)
    (reads : Reads (⟨ahead, offset, length⟩, s) forms q) (enough : ahead.length < bound) :
    ∃ bound', q.1.ahead.length < bound' ∧
      readMany bound ⟨ahead, offset, length⟩ s found =
        readMany bound' q.1 q.2 (forms.reverse ++ found) := by
  generalize begun : ((⟨ahead, offset, length⟩ : Reader), s) = p at reads
  induction reads generalizing ahead offset s bound found with
  | nil p =>
      cases begun
      exact ⟨bound, enough, rfl⟩
  | @cons _ q r form forms done _ ih =>
      cases begun
      obtain ⟨used, lexeme, rest, s₁, split, rfl, _⟩ := readFrom_form done
      obtain ⟨n, rfl⟩ : ∃ n, bound = n + 1 := ⟨bound - 1, by omega⟩
      have enough' : rest.length < n := by
        rw [show ahead = used ++ lexeme :: rest from split, List.length_append,
          List.length_cons] at enough
        omega
      obtain ⟨bound', less, same⟩ := ih (form :: found) enough' rfl
      refine ⟨bound', less, ?_⟩
      rw [readMany, done]
      dsimp only
      rw [same, List.reverse_cons, List.append_assoc]
      rfl

end

/-- Reading all succeeds when reads in a row come to the end of the text, with the forms that
    they find. -/
theorem readAll_of_reads {source : String} {s : Store} {forms : List Ref} {p : Reader × Store}
    (reads : Reads (ofSource source, s) forms p) :
    (∀ q, read p = .ok none q → readAll source s = .ok forms q.2) ∧
      ∀ e q, read p = .error e q → readAll source s = .error e q.2 := by
  obtain ⟨bound, less, same⟩ := readMany_of_reads [] reads (Nat.lt_succ_self _)
  obtain ⟨n, rfl⟩ : ∃ n, bound = n + 1 := ⟨bound - 1, by omega⟩
  have all : readAll source s = readMany (n + 1) p.1 p.2 (forms.reverse ++ []) := same
  rw [all, readMany]
  constructor
  · rintro q done
    rw [done]
    simp
  · rintro e q done
    rw [done]

end Reader

end LispMachine
