import LispMachine.Proofs.Heap.Height
import LispMachine.Proofs.Reader.Cutting
import LispMachine.Proofs.Reader.Words

/-!
# Reading what has been printed

The text of a datum lexes to tokens that spell the datum, and the printer writes that text
for every value that denotes it. So a value that is printed and read back comes out with
the same structure, as long as the names of its symbols read back as symbols.
-/

namespace LispMachine

/-! ## Readable data -/

/-- Every symbol of the datum has the name of a word other than the dot. -/
def Datum.Readable : Datum → Prop
  | null => True
  | integer _ => True
  | symbol name => Wordlike name ∧ name ≠ "."
  | pair car cdr => car.Readable ∧ cdr.Readable

namespace Datum

/-- The text of a datum that is not a pair. -/
def atom : Datum → String
  | integer value => toString value.toInt
  | symbol name => name
  | _ => "()"

/-- What follows an item of a list when the rest is not a pair. -/
def closing : Datum → String
  | null => ")"
  | d => " . " ++ d.atom ++ ")"

mutual

/-- The text of a datum. -/
def text : Datum → String
  | pair car cdr => "(" ++ car.text ++ cdr.rest
  | d => d.atom

/-- The text of the rest of a list. -/
def rest : Datum → String
  | pair car cdr => " " ++ car.text ++ cdr.rest
  | d => d.closing

end

end Datum

/-! ## Values that denote data -/

namespace Heap

variable {h : Heap} {r : Ref}

/-- The value is an empty list, an integer, a symbol or a pair. -/
def IsPart (h : Heap) (r : Ref) : Prop :=
  r = .null ∨ (∃ value, h.cell? r = some (.scalar (.integer value))) ∨
    (∃ name, h.symbol? r = some name) ∨ ∃ car cdr, h.pair? r = some (car, cdr)

theorem Denotes.bounded {d : Datum} (denotes : h.Denotes r d) : ∃ n, Bounded h.HasHalf n r := by
  have leaf : ∀ {r : Ref}, h.pair? r = none → ∃ n, Bounded h.HasHalf n r := by
    intro r plain
    refine ⟨0, ?_⟩
    rintro next ⟨car, cdr, halves, _⟩
    rw [plain] at halves
    cases halves
  induction denotes with
  | null => exact leaf rfl
  | integer found => exact leaf (by simp only [pair?, found])
  | symbol named => exact leaf (by simp only [pair?, symbol?_eq_some.1 named])
  | pair found _ _ ihCar ihCdr =>
      obtain ⟨n, within⟩ := ihCar
      obtain ⟨m, within'⟩ := ihCdr
      refine ⟨max n m + 1, ?_⟩
      rintro next ⟨car, cdr, halves, which⟩
      rw [pair?_eq_some.2 found] at halves
      cases halves
      rcases which with rfl | rfl
      · exact within.mono (le_max_left n m)
      · exact within'.mono (le_max_right n m)

/-- The values that denote data are those made of such parts without a cycle. -/
theorem exists_denotes_iff : (∃ d, h.Denotes r d) ↔
    ∀ s, Relation.ReflTransGen h.HasHalf r s →
      h.IsPart s ∧ ¬ Relation.TransGen h.HasHalf s s := by
  constructor
  · rintro ⟨d, denotes⟩ s way
    have reached : ∃ e, h.Denotes s e := by
      induction way with
      | refl => exact ⟨d, denotes⟩
      | tail _ step ih =>
          obtain ⟨e, denotes⟩ := ih
          obtain ⟨car, cdr, halves, which⟩ := step
          cases denotes with
          | null => cases halves
          | integer found => simp [pair?, found] at halves
          | symbol named => simp [pair?, symbol?_eq_some.1 named] at halves
          | pair found first second =>
              rw [pair?_eq_some.2 found] at halves
              cases halves
              rcases which with rfl | rfl
              · exact ⟨_, first⟩
              · exact ⟨_, second⟩
    obtain ⟨e, denotes⟩ := reached
    obtain ⟨n, within⟩ := denotes.bounded
    refine ⟨?_, within.acyclic⟩
    cases denotes with
    | null => exact Or.inl rfl
    | integer found => exact Or.inr (Or.inl ⟨_, found⟩)
    | symbol named => exact Or.inr (Or.inr (Or.inl ⟨_, named⟩))
    | pair found _ _ => exact Or.inr (Or.inr (Or.inr ⟨_, _, pair?_eq_some.2 found⟩))
  · intro parts
    have within : Bounded h.HasHalf ((Finset.range h.cells.size).image Ref.ofSlot).card r := by
      refine bounded_of_acyclic (fun s t _ step => ?_) fun s way => (parts s way).2
      obtain ⟨car, cdr, halves, _⟩ := step
      obtain ⟨slot, small, rfl⟩ := lt_size_of_pair? halves
      exact Finset.mem_image_of_mem _ (Finset.mem_range.2 small)
    have leaf_or_pair : ∀ {r : Ref}, h.IsPart r →
        (∃ d, h.Denotes r d) ∨ ∃ car cdr, h.pair? r = some (car, cdr) := by
      rintro r (rfl | ⟨value, found⟩ | ⟨name, named⟩ | pair)
      · exact Or.inl ⟨_, .null⟩
      · exact Or.inl ⟨_, .integer found⟩
      · exact Or.inl ⟨_, .symbol named⟩
      · exact Or.inr pair
    generalize Finset.card _ = n at within
    induction n generalizing r with
    | zero =>
        rcases leaf_or_pair (parts r .refl).1 with done | ⟨car, cdr, halves⟩
        · exact done
        · exact absurd ⟨car, cdr, halves, Or.inl rfl⟩ (within car)
    | succ n ih =>
        rcases leaf_or_pair (parts r .refl).1 with done | ⟨car, cdr, halves⟩
        · exact done
        · have first : h.HasHalf r car := ⟨car, cdr, halves, Or.inl rfl⟩
          have second : h.HasHalf r cdr := ⟨car, cdr, halves, Or.inr rfl⟩
          obtain ⟨a, denotes⟩ := ih (fun s way => parts s (.head first way)) (within car first)
          obtain ⟨b, denotes'⟩ := ih (fun s way => parts s (.head second way)) (within cdr second)
          exact ⟨_, .pair (pair?_eq_some.1 halves) denotes denotes'⟩

end Heap

/-! ## Printing -/

namespace Printer

variable {h : Heap} {r : Ref} {d : Datum}

theorem write_scalar {s : Scalar} {modules : Registry} (found : h.cell? r = some (.scalar s))
    (bound : Nat) (out : String) :
    write h modules (bound + 2) out r = some (out ++ scalar h modules s) ∧
      writeRest h modules (bound + 2) out r = some (out ++ (" . " ++ scalar h modules s ++ ")")) := by
  have other : r ≠ .null := by
    rintro rfl
    cases found
  have plain : h.pair? r = none := by simp only [Heap.pair?, found]
  have same : leaf h modules r = scalar h modules s := by
    rw [leaf, if_neg (mt (Ref.isNull_iff r).1 other), found]
  refine ⟨by rw [write_leaf plain, same], ?_⟩
  rw [writeRest_leaf other plain, write_leaf plain, same, Option.map_some]
  simp [← String.toList_inj]

/-- With enough steps the printer writes the text of the datum. -/
theorem write_denotes (denotes : h.Denotes r d) (modules : Registry) :
    ∃ enough, ∀ bound out, enough ≤ bound → write h modules bound out r = some (out ++ d.text) ∧
      writeRest h modules bound out r = some (out ++ d.rest) := by
  induction denotes with
  | null =>
      refine ⟨1, fun bound out enough => ?_⟩
      obtain ⟨n, rfl⟩ : ∃ n, bound = n + 1 := ⟨bound - 1, by omega⟩
      exact ⟨write_null, writeRest_null⟩
  | integer found =>
      refine ⟨2, fun bound out enough => ?_⟩
      obtain ⟨n, rfl⟩ : ∃ n, bound = n + 2 := ⟨bound - 2, by omega⟩
      exact write_scalar found n out
  | symbol named =>
      refine ⟨2, fun bound out enough => ?_⟩
      obtain ⟨n, rfl⟩ : ∃ n, bound = n + 2 := ⟨bound - 2, by omega⟩
      exact write_scalar (Heap.symbol?_eq_some.1 named) n out
  | pair found _ _ ihCar ihCdr =>
      obtain ⟨n, item⟩ := ihCar
      obtain ⟨m, others⟩ := ihCdr
      have halves := Heap.pair?_eq_some.2 found
      refine ⟨max n m + 1, fun bound out enough => ?_⟩
      obtain ⟨k, rfl⟩ : ∃ k, bound = k + 1 := ⟨bound - 1, by omega⟩
      constructor
      · rw [write_pair halves, (item k _ (by omega)).1, Option.bind_some, (others k _ (by omega)).2]
        simp [Datum.text, ← String.toList_inj]
      · rw [writeRest_pair halves, (item k _ (by omega)).1, Option.bind_some,
          (others k _ (by omega)).2]
        simp [Datum.rest, ← String.toList_inj]

/-- The printer writes the text of the datum that a value denotes. -/
theorem display_denotes (denotes : h.Denotes r d) (modules : Registry) :
    display h modules r = d.text := by
  obtain ⟨enough, written⟩ := write_denotes denotes modules
  have done := (written (max enough (h.cells.size + 2)) "" (le_max_left _ _)).1
  rw [write_eq (le_max_right _ _)] at done
  rw [display, done, Option.getD_some]
  exact String.empty_append

end Printer

/-! ## Lexing -/

namespace Datum

/-- The text of the rest of a list begins with a character that ends a word. -/
theorem rest_begins (d : Datum) :
    ∃ c more, d.rest.toList = c :: more ∧ isWordChar c = false := by
  cases d with
  | null => exact ⟨')', [], rfl, by decide⟩
  | integer value => exact ⟨' ', _, by simp [rest, closing]; rfl, by decide⟩
  | symbol name => exact ⟨' ', _, by simp [rest, closing]; rfl, by decide⟩
  | pair car cdr => exact ⟨' ', _, by simp [rest]; rfl, by decide⟩

/-- The text of a dotted tail. -/
theorem scans_closing {word : List Char} {token : Token} (scans : Scans word [token]) :
    Scans (' ' :: '.' :: ' ' :: (word ++ [')'])) [.symbol ".", token, .closeParen] := by
  have dot : Scans ['.'] [.symbol "."] := scans_word (List.cons_ne_nil _ _)
    (by simpa using (by decide : isWordChar '.' = true)) rfl
  have last : Scans (word ++ [')']) ([token] ++ [.closeParen]) :=
    scans.append (by decide) scans_nil.close
  exact (dot.append (by decide) last.space).space

/-- The text of a readable datum is scanned as tokens of the datum. -/
theorem scans_text {d : Datum} (readable : d.Readable) :
    (∃ ts, Scans d.text.toList ts ∧ Forms ts [d]) ∧
      ∃ ts, Scans d.rest.toList ts ∧ ∀ inner items, items ≠ [] → Forms inner items →
        Forms (.openParen :: inner ++ ts) [.listWithTail items d] := by
  have tail : ∀ (d : Datum) (token : Token), Forms [token] [d] → ∀ inner items, items ≠ [] →
      Forms inner items →
      Forms (.openParen :: inner ++ [.symbol ".", token, .closeParen]) [.listWithTail items d] := by
    intro d token one inner items some_ inside
    simpa using Forms.dotted inside some_ one .nil
  induction d with
  | null =>
      refine ⟨⟨_, scans_nil.close.open_, .list .nil .nil⟩, _, scans_nil.close, ?_⟩
      intro inner items _ inside
      exact .list inside .nil
  | integer value =>
      obtain ⟨spelled, some_, words⟩ := classify_integer value
      have scans := scans_word some_ words spelled
      refine ⟨⟨_, scans, .integer value .nil⟩, _, ?_, tail _ _ (.integer value .nil)⟩
      simpa [rest, closing, atom] using scans_closing scans
  | symbol name =>
      obtain ⟨word, other⟩ := readable
      have some_ : name.toList ≠ [] := fun empty =>
        word.nonempty (String.toList_inj.1 (empty.trans String.toList_empty.symm))
      have scans := scans_word some_ (fun c member => isWordChar_iff.2 (word.plain c member))
        word.classify
      refine ⟨⟨_, scans, .symbol other .nil⟩, _, ?_, tail _ _ (.symbol other .nil)⟩
      simpa [rest, closing, atom] using scans_closing scans
  | pair car cdr ihCar ihCdr =>
      obtain ⟨⟨ts, scans, one⟩, _⟩ := ihCar readable.1
      obtain ⟨_, us, scans', others⟩ := ihCdr readable.2
      obtain ⟨c, more, begins, ends⟩ := cdr.rest_begins
      rw [begins] at scans'
      have both := scans.append ends scans'
      rw [← begins] at both
      rw [← String.toList_append] at both
      refine ⟨⟨.openParen :: (ts ++ us), ?_, ?_⟩, ts ++ us, ?_, ?_⟩
      · rw [text, String.append_assoc, String.toList_append]
        exact both.open_
      · exact others ts [car] (List.cons_ne_nil _ _) one
      · rw [rest, String.append_assoc, String.toList_append]
        exact both.space
      · intro inner items _ inside
        have whole := others (inner ++ ts) (items ++ [car]) (by simp) (inside.append one)
        simpa [listWithTail] using whole

/-- The tokens of the text of a readable datum are those of the datum. -/
theorem spells_text {d : Datum} (readable : d.Readable) :
    Spells ((lex d.text).map Lexeme.token) [d] := by
  obtain ⟨ts, scans, forms⟩ := (scans_text readable).1
  have lexed := scans.lex
  rw [String.ofList_toList] at lexed
  exact ⟨ts, lexed, forms⟩

end Datum

/-- Tokens with names of words spell readable data. -/
theorem Forms.readable {ts : List Token} {ds : List Datum} (forms : Forms ts ds)
    (words : ∀ name, Token.symbol name ∈ ts → Wordlike name) : ∀ d ∈ ds, d.Readable := by
  have readable_listWithTail : ∀ {items : List Datum} {tail : Datum}, (∀ d ∈ items, d.Readable) →
      tail.Readable → (Datum.listWithTail items tail).Readable := by
    intro items tail all last
    induction items with
    | nil => exact last
    | cons item items ih =>
        obtain ⟨first, others⟩ := List.forall_mem_cons.1 all
        exact ⟨first, ih others⟩
  have quote : Wordlike Keyword.quote.name ∧ Keyword.quote.name ≠ "." :=
    ⟨.of_classify (by decide : Keyword.quote.name.toList ≠ [])
      (List.all_eq_true.1 (by decide : Keyword.quote.name.toList.all isWordChar = true)) (by decide),
      by decide⟩
  induction forms with
  | nil => exact nofun
  | integer value _ ih =>
      refine List.forall_mem_cons.2 ⟨trivial, ih fun name member => ?_⟩
      exact words name (List.mem_cons_of_mem _ member)
  | symbol other _ ih =>
      refine List.forall_mem_cons.2 ⟨⟨words _ List.mem_cons_self, other⟩, ih fun name member => ?_⟩
      exact words name (List.mem_cons_of_mem _ member)
  | quote _ ih =>
      obtain ⟨one, others⟩ := List.forall_mem_cons.1 (ih fun name member => words name
        (List.mem_cons_of_mem _ member))
      exact List.forall_mem_cons.2 ⟨⟨quote, one, trivial⟩, others⟩
  | list inside _ ihInside ih =>
      refine List.forall_mem_cons.2 ⟨readable_listWithTail (ihInside ?_) trivial, ih ?_⟩
      · exact fun name member => words name (by simp [member])
      · exact fun name member => words name (by simp [member])
  | dotted inside some last _ ihInside ihLast ih =>
      have tail := ihLast (fun name member => words name (by simp [member])) _ List.mem_cons_self
      refine List.forall_mem_cons.2 ⟨readable_listWithTail (ihInside ?_) tail, ih ?_⟩
      · exact fun name member => words name (by simp [member])
      · exact fun name member => words name (by simp [member])

namespace Reader

/-! ## Reading -/

/-- A text of one form is read as that form, and then there is no other. -/
theorem read_one {source : String} {d : Datum} {s : Store} (consistent : s.Consistent)
    (spelled : Spells ((lex source).map Lexeme.token) [d])
    (room : ∀ cause p, read (ofSource source, s) ≠ .error (.heap cause) p) :
    ∃ form p q, read (ofSource source, s) = .ok (some form) p ∧ s.Precedes p.2 ∧
      p.2.Denotes form d ∧ read p = .ok none q := by
  have reading := read_reading (ofSource source) consistent
  cases done : read (ofSource source, s) with
  | error e p =>
      rw [done] at reading
      cases reading with
      | unfinished _ incomplete => exact absurd spelled (incomplete [d])
      | refused used split _ ended =>
          refine absurd ?_ ended
          rw [show lex source = _ from split] at spelled
          exact ⟨_, [d], by simpa using spelled⟩
      | full => exact absurd done (room _ _)
  | ok form p =>
      rw [done] at reading
      cases reading with
      | ended _ none =>
          rw [show lex source = [] from none] at spelled
          obtain ⟨ts, none, forms⟩ := spelled
          obtain rfl := List.map_eq_nil_iff.1 none.symm
          cases forms
      | @form used rest lexeme form e s' split one later denotes =>
          have whole : (lex source).map Lexeme.token =
              ([] ++ used ++ [lexeme]).map Lexeme.token ++ rest.map Lexeme.token := by
            rw [show lex source = _ from split]
            simp
          rw [whole] at spelled
          obtain ⟨others, spelled'⟩ := one.of_append spelled
          have same := (one.append spelled').unique spelled
          simp only [List.cons_append, List.nil_append, List.cons.injEq] at same
          obtain ⟨rfl, rfl⟩ := same
          obtain ⟨ts, none, forms⟩ := spelled'
          cases forms
          obtain rfl := List.map_eq_nil_iff.1 none
          exact ⟨form, _, _, rfl, later, denotes, rfl⟩

/-- The reader has come from the start of the text by reads, whether they failed or not. -/
inductive Over (source : String) : Reader → Prop where
  | start : Over source (ofSource source)
  | next {reader : Reader} (s : Store) : Over source reader →
      Over source (after (read (reader, s))).1

theorem readFrom_suffix (length : Nat) (contexts : List Context) (ahead : List Lexeme) (s : Store) :
    (after (readFrom length contexts ahead s)).1.ahead <:+ ahead := by
  induction ahead generalizing contexts s with
  | nil => cases contexts <;> exact List.suffix_refl _
  | cons lexeme ahead ih =>
      rcases lexeme with ⟨span, e | token⟩
      · exact List.suffix_cons _ _
      · unfold readFrom
        cases advance contexts token span.start s with
        | error e s' => exact List.suffix_cons _ _
        | ok progress s' =>
            cases progress with
            | done form => exact List.suffix_cons _ _
            | more contexts => exact (ih contexts s').trans (List.suffix_cons _ _)

/-- A reader over a text has a rest of its lexemes ahead. -/
theorem Over.suffix {source : String} {reader : Reader} (along : Over source reader) :
    reader.ahead <:+ lex source := by
  induction along with
  | start => exact List.suffix_refl _
  | @next reader s _ ih => exact (readFrom_suffix reader.length [] reader.ahead s).trans ih

/-- A form that is read from a text denotes a readable datum. -/
theorem read_readable {source : String} {reader : Reader} {s : Store} {form : Ref}
    {p : Reader × Store} (along : Over source reader) (consistent : s.Consistent)
    (done : read (reader, s) = .ok (some form) p) :
    ∃ d, d.Readable ∧ s.Precedes p.2 ∧ p.2.Denotes form d := by
  have reading := read_reading reader consistent
  rw [done] at reading
  cases reading with
  | @form used rest lexeme form d s' split spelled later denotes =>
      obtain ⟨ts, same, forms⟩ := spelled
      refine ⟨d, forms.readable (fun name member => ?_) d List.mem_cons_self, later, denotes⟩
      have among : Except.ok (Token.symbol name) ∈ ([] ++ used ++ [lexeme]).map Lexeme.token := by
        rw [same]
        exact List.mem_map_of_mem member
      obtain ⟨carrier, within, token⟩ := List.mem_map.1 among
      refine proper_of_mem_lex (along.suffix.subset ?_) name token
      rw [split]
      simp only [List.nil_append, List.mem_append, List.mem_singleton] at within
      rcases within with inside | rfl
      · exact List.mem_append_left _ inside
      · exact List.mem_append_right _ List.mem_cons_self

/-- The form that a read has found, with what is left. -/
def form? : EStateM.Result ReadError (Reader × Store) (Option Ref) → Option (Ref × Reader × Store)
  | .ok (some form) p => some (form, p)
  | _ => none

theorem form?_eq_some {result : EStateM.Result ReadError (Reader × Store) (Option Ref)}
    {form : Ref} {p : Reader × Store} (found : form? result = some (form, p)) :
    result = .ok (some form) p := by
  cases result with
  | error e q => cases found
  | ok read q =>
      cases read with
      | none => cases found
      | some form =>
          cases found
          rfl

/-- A value is printed as a text of one form, which reads back as a value of the same
    structure, unless a limited heap runs out. Every form that is read from a text is such a
    value, so that it is printed, read and printed again as the same text. -/
theorem print_then_read_is_identity :
    (∀ (h : Heap) (r : Ref) (d : Datum) (modules : Registry) (s : Store), h.Denotes r d →
      d.Readable → s.Consistent → (s.heap.maxArenas = none ∨
        ∀ cause p, read (ofSource (Printer.display h modules r), s) ≠ .error (.heap cause) p) →
      ∃ form p q, read (ofSource (Printer.display h modules r), s) = .ok (some form) p ∧
        p.2.heap.Denotes form d ∧ read p = .ok none q) ∧
    ∀ (source : String) (reader : Reader) (s : Store) (form : Ref) (p : Reader × Store),
      Over source reader → s.Consistent → read (reader, s) = .ok (some form) p →
      ∃ d, d.Readable ∧ p.2.heap.Denotes form d ∧
        ∀ (modules modules' : Registry) (s' : Store), s'.Consistent →
          (s'.heap.maxArenas = none ∨ ∀ cause p',
            read (ofSource (Printer.display p.2.heap modules form), s') ≠ .error (.heap cause) p') →
          ∃ form' p' q, read (ofSource (Printer.display p.2.heap modules form), s') =
              .ok (some form') p' ∧ p'.2.heap.Denotes form' d ∧ read p' = .ok none q ∧
            Printer.display p'.2.heap modules' form' = Printer.display p.2.heap modules form := by
  have once : ∀ (h : Heap) (r : Ref) (d : Datum) (modules : Registry) (s : Store), h.Denotes r d →
      d.Readable → s.Consistent → (s.heap.maxArenas = none ∨
        ∀ cause p, read (ofSource (Printer.display h modules r), s) ≠ .error (.heap cause) p) →
      ∃ form p q, read (ofSource (Printer.display h modules r), s) = .ok (some form) p ∧
        p.2.heap.Denotes form d ∧ read p = .ok none q := by
    intro h r d modules s denotes readable consistent room
    replace room := room.elim (read_room consistent) id
    rw [Printer.display_denotes denotes] at room ⊢
    obtain ⟨form, p, q, done, later, denotes', last⟩ :=
      read_one consistent (Datum.spells_text readable) room
    exact ⟨form, p, q, done, denotes'.heap later.consistent, last⟩
  refine ⟨once, fun source reader s form p along consistent done => ?_⟩
  obtain ⟨d, readable, later, made⟩ := read_readable along consistent done
  have denotes := made.heap later.consistent
  refine ⟨d, readable, denotes, fun modules modules' s' consistent' room => ?_⟩
  obtain ⟨form', p', q, done', denotes', last⟩ :=
    once p.2.heap form d modules s' denotes readable consistent' room
  refine ⟨form', p', q, done', denotes', last, ?_⟩
  rw [Printer.display_denotes denotes, Printer.display_denotes denotes']

theorem print_then_read_is_identity_sample :
    let source := "('a (-9223372036854775808 . b) () . c) d"
    let s := Store.ofHeap (.ofArenaSize 8)
    let modules := Registry.empty
    (s.Consistent ∧ s.heap.maxArenas = none) ∧
      ∃ form p d, read (ofSource source, s) = .ok (some form) p ∧ d.Readable ∧
        p.2.heap.Denotes form d ∧
        ∃ form' p' q, read (ofSource (Printer.display p.2.heap modules form), s) =
            .ok (some form') p' ∧ p'.2.heap.Denotes form' d ∧ read p' = .ok none q := by
  intro source s modules
  have consistent : s.Consistent := Store.consistent_ofHeap (Heap.wellFormed_ofArenaSize 8)
  obtain ⟨⟨form, p⟩, found⟩ : ∃ found, form? (read (ofSource source, s)) = some found :=
    Option.isSome_iff_exists.1 (by decide +kernel)
  have done := form?_eq_some found
  obtain ⟨d, readable, denotes, _⟩ :=
    print_then_read_is_identity.2 source _ s form p .start consistent done
  exact ⟨⟨consistent, rfl⟩, form, p, d, done, readable, denotes,
    print_then_read_is_identity.1 p.2.heap form d modules s denotes readable consistent (.inl rfl)⟩

end Reader

end LispMachine
