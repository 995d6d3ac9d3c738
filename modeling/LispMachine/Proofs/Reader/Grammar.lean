import LispMachine.Store
import LispMachine.Token

/-!
# The grammar of data

What tokens stand for, said without the reader: `Forms` relates a sequence of tokens to
the data that it spells. A parser with one step for each token decides the grammar. It
stops at the first token after which no continuation is a sequence of forms.
-/

namespace LispMachine

/-- A value that a program text may spell. -/
inductive Datum where
  | null
  | integer (value : Int64)
  | symbol (name : String)
  | pair (car cdr : Datum)
deriving DecidableEq

namespace Datum

/-- A list with a last tail. -/
def listWithTail (items : List Datum) (tail : Datum) : Datum := items.foldr pair tail

/-- A proper list. -/
def list (items : List Datum) : Datum := listWithTail items null

/-- The list that a quote mark stands for. -/
def quoted (d : Datum) : Datum := list [symbol Keyword.quote.name, d]

end Datum

/-- The tokens are a sequence of forms that spell the data, one datum each. A form is an
    integer, a symbol other than the dot, a quote mark and a form, a list of forms, or a
    list of at least one form with a dot and a last form. -/
inductive Forms : List Token → List Datum → Prop where
  | nil : Forms [] []
  | integer {ts : List Token} {ds : List Datum} (value : Int64) : Forms ts ds →
      Forms (.integer value :: ts) (.integer value :: ds)
  | symbol {ts : List Token} {ds : List Datum} {name : String} : name ≠ "." → Forms ts ds →
      Forms (.symbol name :: ts) (.symbol name :: ds)
  | quote {ts : List Token} {d : Datum} {ds : List Datum} : Forms ts (d :: ds) →
      Forms (.quote :: ts) (d.quoted :: ds)
  | list {inner ts : List Token} {items ds : List Datum} : Forms inner items → Forms ts ds →
      Forms (.openParen :: inner ++ .closeParen :: ts) (.list items :: ds)
  | dotted {inner last ts : List Token} {items ds : List Datum} {tail : Datum} :
      Forms inner items → items ≠ [] → Forms last [tail] → Forms ts ds →
      Forms (.openParen :: inner ++ .symbol "." :: last ++ .closeParen :: ts)
        (.listWithTail items tail :: ds)

/-- The outcomes of the lexer spell the data: they are the tokens of forms, and no fault
    is among them. -/
def Spells (outcomes : List (Except LexError Token)) (ds : List Datum) : Prop :=
  ∃ ts, outcomes = ts.map .ok ∧ Forms ts ds

/-- The outcomes of the lexer are the beginning of a sequence of forms. -/
def Viable (outcomes : List (Except LexError Token)) : Prop :=
  ∃ more ds, Spells (outcomes ++ more) ds

theorem Forms.append {ts us : List Token} {ds es : List Datum} (first : Forms ts ds)
    (second : Forms us es) : Forms (ts ++ us) (ds ++ es) := by
  induction first with
  | nil => exact second
  | integer value _ ih => exact .integer value ih
  | symbol other _ ih => exact .symbol other ih
  | quote _ ih => exact .quote ih
  | list inside _ _ ih => simpa using Forms.list inside ih
  | dotted inside some last _ _ _ ih => simpa using Forms.dotted inside some last ih

/-! ## The parser -/

/-- A form that is still open. Items are kept newest first. -/
inductive Pending where
  /-- After a quote mark. -/
  | quote
  /-- Inside a list, after these items. -/
  | list (items : List Datum)
  /-- After the dot, before the tail. -/
  | tail (items : List Datum)
  /-- After the tail, before the closing parenthesis. -/
  | close (items : List Datum) (tail : Datum)

/-- Whether a form may come next. -/
def Pending.accepts : Pending → Bool
  | close _ _ => false
  | _ => true

/-- A form may come next within each of these. -/
def Accepting (pending : List Pending) : Prop := ∀ x ∈ pending, x.accepts = true

theorem Accepting.cons {x : Pending} {outer : List Pending} (accepts : x.accepts = true)
    (accept : Accepting outer) : Accepting (x :: outer) :=
  List.forall_mem_cons.2 ⟨accepts, accept⟩

theorem Accepting.outer {x : Pending} {outer : List Pending} (accept : Accepting (x :: outer)) :
    Accepting outer := (List.forall_mem_cons.1 accept).2

/-- What is open, innermost first, and the data that are complete, newest first. -/
structure Parser where
  pending : List Pending
  found : List Datum

namespace Parser

/-- Whether a form may come next. -/
def isOpen (p : Parser) : Bool := (p.pending.head?.map Pending.accepts).getD true

/-- The parser before any token. -/
def start : Parser := ⟨[], []⟩

/-- Hands a datum to what is open. -/
def give (found : List Datum) : List Pending → Datum → Option Parser
  | [], d => some ⟨[], d :: found⟩
  | .quote :: outer, d => give found outer d.quoted
  | .list items :: outer, d => some ⟨.list (d :: items) :: outer, found⟩
  | .tail items :: outer, d => some ⟨.close items d :: outer, found⟩
  | .close _ _ :: _, _ => none

/-- Takes a token that begins a form. -/
def startForm (p : Parser) : Token → Option Parser
  | .openParen => some ⟨.list [] :: p.pending, p.found⟩
  | .closeParen => none
  | .quote => some ⟨.quote :: p.pending, p.found⟩
  | .integer value => give p.found p.pending (.integer value)
  | .symbol name => if name = "." then none else give p.found p.pending (.symbol name)

/-- Takes one token. -/
def take (p : Parser) (token : Token) : Option Parser :=
  match p.pending with
  | .close items tail :: outer =>
      match token with
      | .closeParen => give p.found outer (.listWithTail items.reverse tail)
      | _ => none
  | .list items :: outer =>
      match token with
      | .closeParen => give p.found outer (.list items.reverse)
      | .symbol "." => if items = [] then none else some ⟨.tail items :: outer, p.found⟩
      | token => p.startForm token
  | _ => p.startForm token

/-- Takes tokens one after the other. -/
def takeAll : List Token → Parser → Option Parser
  | [], p => some p
  | token :: ts, p => (p.take token).bind (takeAll ts)

/-- Hands data over one after the other. -/
def giveAll : List Datum → Parser → Option Parser
  | [], p => some p
  | d :: ds, p => (give p.found p.pending d).bind (giveAll ds)

theorem takeAll_append (ts us : List Token) (p : Parser) :
    takeAll (ts ++ us) p = (takeAll ts p).bind (takeAll us) := by
  induction ts generalizing p with
  | nil => rfl
  | cons token ts ih =>
      simp only [List.cons_append, takeAll, Option.bind_assoc]
      exact Option.bind_congr fun p _ => ih p

/-! ### Every sequence of forms is accepted -/

section

variable {p : Parser}

theorem take_of_open {token : Token} (open_ : p.isOpen = true) (noClose : token ≠ .closeParen)
    (noDot : token ≠ .symbol ".") : p.take token = p.startForm token := by
  rcases p with ⟨_ | ⟨x, outer⟩, found⟩
  · rfl
  · cases x with
    | quote => rfl
    | tail items => rfl
    | close items tail => cases open_
    | list items =>
        unfold take
        dsimp only
        split
        · exact absurd rfl noClose
        · exact absurd rfl noDot
        · rfl

/-- Where no form may come next, only a closing parenthesis may. -/
theorem take_of_closing {token : Token} (closing : p.isOpen = false) (noClose : token ≠ .closeParen) :
    p.take token = none := by
  rcases p with ⟨_ | ⟨x, outer⟩, found⟩
  · cases closing
  · cases x with
    | close items tail =>
        cases token with
        | closeParen => exact absurd rfl noClose
        | _ => rfl
    | _ => cases closing

theorem give_of_closing (closing : p.isOpen = false) (d : Datum) : give p.found p.pending d = none := by
  rcases p with ⟨_ | ⟨x, outer⟩, found⟩
  · cases closing
  · cases x with
    | close items tail => rfl
    | _ => cases closing

theorem take_integer (value : Int64) :
    p.take (.integer value) = give p.found p.pending (.integer value) := by
  cases open_ : p.isOpen with
  | true => exact take_of_open open_ nofun nofun
  | false =>
      rw [give_of_closing open_]
      exact take_of_closing open_ nofun

theorem take_symbol {name : String} (other : name ≠ ".") :
    p.take (.symbol name) = give p.found p.pending (.symbol name) := by
  cases open_ : p.isOpen with
  | true =>
      have begun : p.take (.symbol name) = p.startForm (.symbol name) :=
        take_of_open open_ nofun (by simp [other])
      rw [begun, startForm, if_neg other]
  | false =>
      rw [give_of_closing open_]
      exact take_of_closing open_ nofun

theorem giveAll_list (items ds : List Datum) (outer : List Pending) (found : List Datum) :
    giveAll ds ⟨.list items :: outer, found⟩ = some ⟨.list (ds.reverse ++ items) :: outer, found⟩ := by
  induction ds generalizing items with
  | nil => rfl
  | cons d ds ih =>
      rw [giveAll, give, Option.bind_some, ih]
      simp

theorem takeAll_of_closing {token : Token} {d : Datum} {ts : List Token} {ds : List Datum}
    (closing : p.isOpen = false) (noClose : token ≠ .closeParen) :
    takeAll (token :: ts) p = giveAll (d :: ds) p := by
  rw [takeAll, giveAll, take_of_closing closing noClose, give_of_closing closing]
  rfl

/-- Tokens of forms do the same as handing over the data that they spell. -/
theorem takeAll_of_forms {ts : List Token} {ds : List Datum} (forms : Forms ts ds) :
    takeAll ts p = giveAll ds p := by
  induction forms generalizing p with
  | nil => rfl
  | integer value _ ih =>
      rw [takeAll, take_integer, giveAll]
      exact Option.bind_congr fun p _ => ih
  | symbol other _ ih =>
      rw [takeAll, take_symbol other, giveAll]
      exact Option.bind_congr fun p _ => ih
  | @quote ts d ds _ ih =>
      cases open_ : p.isOpen with
      | false => exact takeAll_of_closing open_ nofun
      | true =>
          have begun : p.take .quote = p.startForm .quote := take_of_open open_ nofun nofun
          rw [takeAll, begun, startForm, Option.bind_some, ih]
          rfl
  | @list inner ts items ds _ _ ihInner ih =>
      cases open_ : p.isOpen with
      | false => exact takeAll_of_closing open_ nofun
      | true =>
          have begun : p.take .openParen = p.startForm .openParen := take_of_open open_ nofun nofun
          rw [List.cons_append, takeAll, begun, startForm, Option.bind_some, takeAll_append, ihInner,
            giveAll_list, Option.bind_some, takeAll, giveAll]
          simp only [take, List.append_nil, List.reverse_reverse]
          exact Option.bind_congr fun p _ => ih
  | @dotted inner last ts items ds tail _ some _ _ ihInner ihLast ih =>
      cases open_ : p.isOpen with
      | false => exact takeAll_of_closing open_ nofun
      | true =>
          have begun : p.take .openParen = p.startForm .openParen := take_of_open open_ nofun nofun
          have items_ : items.reverse ≠ [] := by simpa using some
          rw [List.append_assoc, List.cons_append, takeAll, begun, startForm, Option.bind_some,
            takeAll_append, ihInner, giveAll_list, Option.bind_some, List.cons_append, takeAll,
            giveAll]
          simp only [take, List.append_nil, items_, if_false, Option.bind_some]
          rw [takeAll_append, ihLast]
          simp only [giveAll, give, Option.bind_some, takeAll, take, List.reverse_reverse]
          exact Option.bind_congr fun p _ => ih

theorem giveAll_top (ds found : List Datum) :
    giveAll ds ⟨[], found⟩ = some ⟨[], ds.reverse ++ found⟩ := by
  induction ds generalizing found with
  | nil => rfl
  | cons d ds ih =>
      rw [giveAll, give, Option.bind_some, ih]
      simp

end

/-! ### What is accepted is a sequence of forms -/

/-- The tokens leave these forms open. -/
inductive Opened : List Token → List Pending → Prop where
  | top : Opened [] []
  | quote {ts : List Token} {outer : List Pending} : Opened ts outer →
      Accepting outer → Opened (ts ++ [.quote]) (.quote :: outer)
  | list {ts inner : List Token} {outer : List Pending} {items : List Datum} : Opened ts outer →
      Accepting outer → Forms inner items.reverse →
      Opened (ts ++ .openParen :: inner) (.list items :: outer)
  | tail {ts inner : List Token} {outer : List Pending} {items : List Datum} : Opened ts outer →
      Accepting outer → Forms inner items.reverse → items ≠ [] →
      Opened (ts ++ .openParen :: inner ++ [.symbol "."]) (.tail items :: outer)
  | close {ts inner last : List Token} {outer : List Pending} {items : List Datum} {d : Datum} :
      Opened ts outer → Accepting outer → Forms inner items.reverse →
      items ≠ [] → Forms last [d] →
      Opened (ts ++ .openParen :: inner ++ .symbol "." :: last) (.close items d :: outer)

/-- The parser has taken these tokens. -/
def Parsed (ts : List Token) (p : Parser) : Prop :=
  ∃ before opened, ts = before ++ opened ∧ Forms before p.found.reverse ∧ Opened opened p.pending

/-- Only the innermost form may be one after which nothing but its end may come. -/
theorem Parsed.accepting {ts : List Token} {p : Parser} (parsed : Parsed ts p) :
    Accepting p.pending.tail := by
  obtain ⟨_, _, _, _, opened⟩ := parsed
  rcases p with ⟨pending, found⟩
  dsimp only at opened
  cases opened with
  | top => exact nofun
  | quote _ accept => exact accept
  | list _ accept _ => exact accept
  | tail _ accept _ _ => exact accept
  | close _ accept _ _ _ => exact accept

theorem Parsed.start : Parsed [] start := ⟨[], [], rfl, .nil, .top⟩

section

variable {before ts us : List Token} {found : List Datum} {pending : List Pending} {p p' : Parser}

/-- A form joins what is open. -/
theorem Opened.give (opened : Opened ts pending) (forms : Forms before found.reverse) {d : Datum}
    (one : Forms us [d]) (done : Parser.give found pending d = some p') :
    Parsed (before ++ ts ++ us) p' := by
  induction opened generalizing us d with
  | top =>
      cases done
      exact ⟨before ++ us, [], by simp, by simpa using forms.append one, .top⟩
  | quote _ _ ih =>
      have quoted := ih (.quote one) done
      simpa using quoted
  | @list ts inner _ _ outside accept inside _ =>
      cases done
      refine ⟨before, ts ++ .openParen :: (inner ++ us), by simp, forms, .list outside accept ?_⟩
      simpa using inside.append one
  | @tail ts inner _ _ outside accept inside some _ =>
      cases done
      exact ⟨before, ts ++ .openParen :: inner ++ .symbol "." :: us, by simp, forms,
        .close outside accept inside some one⟩
  | close => cases done

theorem Opened.startForm (opened : Opened ts pending) (accept : Accepting pending)
    (forms : Forms before found.reverse) {token : Token}
    (done : Parser.startForm ⟨pending, found⟩ token = some p') :
    Parsed (before ++ ts ++ [token]) p' := by
  cases token with
  | openParen =>
      cases done
      exact ⟨before, _, by simp, forms, .list opened accept .nil⟩
  | closeParen => cases done
  | quote =>
      cases done
      exact ⟨before, _, by simp, forms, .quote opened accept⟩
  | integer value => exact opened.give forms (.integer value .nil) done
  | symbol name =>
      unfold Parser.startForm at done
      dsimp only at done
      split at done
      · cases done
      · next other => exact opened.give forms (.symbol other .nil) done

/-- One more token. -/
theorem Parsed.take (parsed : Parsed ts p) {token : Token} (done : p.take token = some p') :
    Parsed (ts ++ [token]) p' := by
  obtain ⟨before, opened, rfl, forms, held⟩ := parsed
  rcases p with ⟨pending, found⟩
  dsimp only at forms held
  cases held with
  | top => exact Opened.top.startForm nofun forms done
  | quote outside accept =>
      exact (Opened.quote outside accept).startForm (.cons rfl accept) forms done
  | tail outside accept inside some =>
      exact (Opened.tail outside accept inside some).startForm
        (.cons rfl accept) forms done
  | list outside accept inside =>
      unfold Parser.take at done
      dsimp only at done
      split at done
      · have closed := outside.give forms (.list inside .nil) done
        simpa using closed
      · split at done
        · cases done
        · next some =>
            cases done
            exact ⟨before, _, by simp, forms, .tail outside accept inside some⟩
      · exact (Opened.list outside accept inside).startForm
          (.cons rfl accept) forms done
  | close outside accept inside some last =>
      unfold Parser.take at done
      dsimp only at done
      split at done
      · have closed := outside.give forms (.dotted inside (by simpa using some) last .nil) done
        simpa using closed
      · cases done

theorem Parsed.takeAll (parsed : Parsed ts p) (done : Parser.takeAll us p = some p') :
    Parsed (ts ++ us) p' := by
  induction us generalizing ts p with
  | nil =>
      cases done
      simpa using parsed
  | cons token us ih =>
      obtain ⟨next, taken, rest⟩ := Option.bind_eq_some_iff.1 done
      simpa using ih (parsed.take taken) rest

/-- What has been begun can be brought to an end, once a form that may come next has
    come. -/
theorem give_completes (accept : Accepting pending) (found : List Datum) (d : Datum) :
    ∃ more found', (give found pending d).bind (Parser.takeAll more) = some ⟨[], found'⟩ := by
  induction pending generalizing d with
  | nil => exact ⟨[], d :: found, rfl⟩
  | cons x outer ih =>
      have rest := ih accept.outer
      cases x with
      | quote => exact rest d.quoted
      | list items =>
          obtain ⟨more, found', done⟩ := rest (.list (d :: items).reverse)
          exact ⟨.closeParen :: more, found', done⟩
      | tail items =>
          obtain ⟨more, found', done⟩ := rest (.listWithTail items.reverse d)
          exact ⟨.closeParen :: more, found', done⟩
      | close items tail => cases accept _ List.mem_cons_self

theorem Opened.completes (opened : Opened ts pending) (found : List Datum) :
    ∃ more found', Parser.takeAll more ⟨pending, found⟩ = some ⟨[], found'⟩ := by
  -- The empty list is a form that may come next wherever one may.
  have empty : Accepting pending → ∃ more found',
      Parser.takeAll more ⟨pending, found⟩ = some ⟨[], found'⟩ := by
    intro accept
    obtain ⟨more, found', done⟩ := give_completes accept found .null
    have forms : Forms [.openParen, .closeParen] [.null] := Forms.list .nil .nil
    refine ⟨[.openParen, .closeParen] ++ more, found', ?_⟩
    rw [takeAll_append, takeAll_of_forms forms, giveAll]
    rw [Option.bind_assoc]
    exact done
  cases opened with
  | top => exact ⟨[], found, rfl⟩
  | quote _ accept => exact empty (.cons rfl accept)
  | list _ accept _ => exact empty (.cons rfl accept)
  | tail _ accept _ _ => exact empty (.cons rfl accept)
  | @close _ _ _ outer items d _ accept =>
      obtain ⟨more, found', done⟩ := give_completes accept found (.listWithTail items.reverse d)
      exact ⟨.closeParen :: more, found', done⟩

end

/-! ### Forms that have been found have no influence -/

/-- The parser with these data found before. -/
def following (p : Parser) (found : List Datum) : Parser := ⟨p.pending, p.found ++ found⟩

section

variable {p : Parser} (earlier : List Datum)

theorem give_following (found : List Datum) (pending : List Pending) (d : Datum) :
    give (found ++ earlier) pending d = (give found pending d).map (·.following earlier) := by
  induction pending generalizing d with
  | nil => rfl
  | cons x outer ih =>
      cases x with
      | quote => exact ih d.quoted
      | _ => rfl

theorem startForm_following (token : Token) :
    (p.following earlier).startForm token = (p.startForm token).map (·.following earlier) := by
  cases token with
  | integer value => exact give_following earlier p.found p.pending _
  | symbol name =>
      simp only [startForm]
      split
      · rfl
      · exact give_following earlier p.found p.pending _
  | _ => rfl

theorem take_following (token : Token) :
    (p.following earlier).take token = (p.take token).map (·.following earlier) := by
  rcases p with ⟨_ | ⟨x, outer⟩, found⟩
  · exact startForm_following earlier token
  · cases x with
    | quote => exact startForm_following earlier token
    | tail items => exact startForm_following earlier token
    | close items tail =>
        cases token with
        | closeParen => exact give_following earlier found outer _
        | _ => rfl
    | list items =>
        unfold take
        dsimp only [following]
        split
        · exact give_following earlier found outer _
        · split <;> rfl
        · exact startForm_following (p := ⟨.list items :: outer, found⟩) earlier token

theorem takeAll_following (ts : List Token) :
    takeAll ts (p.following earlier) = (takeAll ts p).map (·.following earlier) := by
  induction ts generalizing p with
  | nil => rfl
  | cons token ts ih =>
      rw [takeAll, takeAll, take_following]
      cases p.take token with
      | none => rfl
      | some p => exact ih

end

end Parser

open LispMachine.Parser

/-- The parser decides the grammar, and finds the data. -/
theorem forms_iff {ts : List Token} {ds : List Datum} :
    Forms ts ds ↔ takeAll ts start = some ⟨[], ds.reverse⟩ := by
  constructor
  · intro forms
    rw [takeAll_of_forms forms, start, giveAll_top, List.append_nil]
  · intro done
    obtain ⟨before, opened, rfl, forms, held⟩ := Parsed.start.takeAll done
    cases held
    simpa using forms

theorem takeAll_after_forms {ts us : List Token} {ds : List Datum} (forms : Forms ts ds) :
    takeAll (ts ++ us) start = (takeAll us start).map (·.following ds.reverse) := by
  rw [takeAll_append, forms_iff.1 forms, Option.bind_some]
  exact takeAll_following (p := start) ds.reverse us

/-- Tokens spell one sequence of data at most. -/
theorem Forms.unique {ts : List Token} {ds es : List Datum} (first : Forms ts ds)
    (second : Forms ts es) : ds = es := by
  have same := (forms_iff.1 first).symm.trans (forms_iff.1 second)
  simpa using same

theorem Spells.unique {outcomes : List (Except LexError Token)} {ds es : List Datum}
    (first : Spells outcomes ds) (second : Spells outcomes es) : ds = es := by
  obtain ⟨ts, rfl, forms⟩ := first
  obtain ⟨us, same, forms'⟩ := second
  obtain rfl : ts = us := (List.map_inj_right fun _ _ => Except.ok.inj).1 same
  exact forms.unique forms'

/-- The parser stops at the first token after which no continuation is a sequence of
    forms. -/
theorem viable_iff {outcomes : List (Except LexError Token)} :
    Viable outcomes ↔ ∃ ts p, outcomes = ts.map .ok ∧ takeAll ts start = some p := by
  constructor
  · rintro ⟨more, ds, all, spelled, forms⟩
    obtain ⟨ts, us, rfl, rfl, rfl⟩ := List.map_eq_append_iff.1 spelled.symm
    have done := forms_iff.1 forms
    rw [takeAll_append] at done
    obtain ⟨p, taken, _⟩ := Option.bind_eq_some_iff.1 done
    exact ⟨ts, p, rfl, taken⟩
  · rintro ⟨ts, p, rfl, taken⟩
    obtain ⟨before, opened, _, _, held⟩ := Parsed.start.takeAll taken
    obtain ⟨more, found, done⟩ := held.completes p.found
    refine ⟨more.map .ok, found.reverse, ts ++ more, by rw [List.map_append], forms_iff.2 ?_⟩
    rw [List.reverse_reverse, takeAll_append, taken]
    exact done

theorem not_viable_of_take {ts : List Token} {token : Token} {p : Parser}
    (taken : takeAll ts start = some p) (refused : p.take token = none) :
    ¬ Viable (ts.map .ok ++ [.ok token]) := by
  rw [viable_iff]
  rintro ⟨us, q, same, all⟩
  obtain rfl : us = ts ++ [token] :=
    (List.map_inj_right fun _ _ => Except.ok.inj).1 (same.symm.trans (by simp))
  rw [takeAll_append, taken, Option.bind_some, takeAll, refused] at all
  cases all

theorem not_viable_of_fault {outcomes : List (Except LexError Token)} {e : LexError} :
    ¬ Viable (outcomes ++ [.error e]) := by
  rw [viable_iff]
  rintro ⟨us, q, same, _⟩
  have member : Except.error e ∈ us.map Except.ok := same ▸ List.mem_append_right _ List.mem_cons_self
  simp at member

/-- What spells a sequence of forms can be left out of account. -/
theorem viable_append_iff {before outcomes : List (Except LexError Token)} {ds : List Datum}
    (spelled : Spells before ds) : Viable (before ++ outcomes) ↔ Viable outcomes := by
  obtain ⟨ts, rfl, forms⟩ := spelled
  rw [viable_iff, viable_iff]
  constructor
  · rintro ⟨all, p, same, taken⟩
    obtain ⟨us, rest, rfl, equal, rfl⟩ := List.map_eq_append_iff.1 same.symm
    obtain rfl : us = ts := (List.map_inj_right fun _ _ => Except.ok.inj).1 equal
    rw [takeAll_after_forms forms] at taken
    obtain ⟨q, taken, _⟩ := Option.map_eq_some_iff.1 taken
    exact ⟨rest, q, rfl, taken⟩
  · rintro ⟨rest, p, rfl, taken⟩
    refine ⟨ts ++ rest, p.following ds.reverse, by rw [List.map_append], ?_⟩
    rw [takeAll_after_forms forms, taken]
    rfl

theorem Spells.append {before outcomes : List (Except LexError Token)} {ds es : List Datum}
    (first : Spells before ds) (second : Spells outcomes es) :
    Spells (before ++ outcomes) (ds ++ es) := by
  obtain ⟨ts, rfl, forms⟩ := first
  obtain ⟨us, rfl, forms'⟩ := second
  exact ⟨ts ++ us, by rw [List.map_append], forms.append forms'⟩

theorem Spells.of_append {before outcomes : List (Except LexError Token)} {ds es : List Datum}
    (first : Spells before ds) (all : Spells (before ++ outcomes) es) :
    ∃ rest, Spells outcomes rest := by
  obtain ⟨ts, rfl, forms⟩ := first
  obtain ⟨both, same, forms'⟩ := all
  obtain ⟨us, rest, rfl, equal, rfl⟩ := List.map_eq_append_iff.1 same.symm
  obtain rfl : us = ts := (List.map_inj_right fun _ _ => Except.ok.inj).1 equal
  rw [forms_iff, takeAll_after_forms forms] at forms'
  obtain ⟨p, taken, ended⟩ := Option.map_eq_some_iff.1 forms'
  refine ⟨p.found.reverse, rest, rfl, forms_iff.2 ?_⟩
  rcases p with ⟨pending, found⟩
  obtain rfl : pending = [] := congrArg Parser.pending ended
  rw [taken, List.reverse_reverse]

end LispMachine
