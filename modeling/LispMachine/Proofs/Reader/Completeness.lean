import LispMachine.Proofs.Reader.Balance

/-!
# Texts that are complete

The depth of a text is counted over all its lexemes, the reader stops at the first that it
refuses. Up to there the two go together: the forms that have been read are balanced, and
within a form as many lists are open as the count says. So a text with a list open at its end
is never read without an error, and a text without one ends within a form only after quote
marks that have nothing to quote.
-/

namespace LispMachine

namespace Reader

/-! ## Steps do not speak of the end of the text -/

/-- An action that does not fail for want of text. -/
def Unending {α : Type} (action : EStateM ReadError Store α) : Prop :=
  ∀ s s', action s ≠ .error .unexpectedEnd s'

section

variable {α β : Type}

theorem Unending.bind {action : EStateM ReadError Store α} {next : α → EStateM ReadError Store β}
    (first : Unending action) (second : ∀ a, Unending (next a)) : Unending (action >>= next) := by
  intro s s' failed
  rw [bind_apply] at failed
  cases done : action s with
  | ok a s₁ =>
      rw [done] at failed
      exact second a s₁ s' failed
  | error e s₁ =>
      rw [done] at failed
      cases failed
      exact first s _ done

theorem unending_pure (a : α) : Unending (pure a) := by
  intro s s' failed
  cases failed

theorem unending_throw {e : ReadError} (other : e ≠ .unexpectedEnd) :
    Unending (throw e : EStateM ReadError Store α) := by
  intro s s' failed
  cases failed
  exact other rfl

theorem unending_intern (name : String) : Unending (intern name) := by
  intro s s' failed
  obtain ⟨cause, same⟩ := intern_error s failed
  cases same

theorem unending_onHeap (action : EStateM HeapError Heap α) : Unending (onHeap action) := by
  intro s s' failed
  obtain ⟨cause, same⟩ := onHeap_error s failed
  cases same

end

theorem unending_plug (contexts : List Context) (form : Ref) : Unending (plug contexts form) := by
  induction contexts generalizing form with
  | nil => exact unending_pure _
  | cons context outer ih =>
      cases context with
      | quote =>
          apply (unending_intern _).bind
          intro quote
          exact (unending_onHeap _).bind fun quoted => ih quoted
      | list items => exact unending_pure _
      | tail dot items => exact unending_pure _
      | close dot items last => exact unending_throw nofun

theorem unending_startForm (contexts : List Context) (token : Token) (start : Nat) :
    Unending (startForm contexts token start) := by
  cases token with
  | openParen => exact unending_pure _
  | closeParen => exact unending_throw nofun
  | quote => exact unending_pure _
  | integer value => exact (unending_onHeap _).bind fun form => unending_plug contexts form
  | symbol name =>
      unfold startForm
      dsimp only
      split
      · exact unending_throw nofun
      · exact (unending_intern name).bind fun form => unending_plug contexts form

theorem unending_advance (contexts : List Context) (token : Token) (start : Nat) :
    Unending (advance contexts token start) := by
  unfold advance
  split
  · split
    · exact (unending_onHeap _).bind fun form => unending_plug _ form
    · exact unending_throw nofun
  · split
    · exact (unending_onHeap _).bind fun form => unending_plug _ form
    · split
      · exact unending_throw nofun
      · exact unending_pure _
    · exact unending_startForm _ _ _
  · exact unending_startForm _ _ _

/-! ## Open lists -/

section

variable {contexts contexts' : List Context} {token : Token} {s s' : Store}

/-- A form that does not complete what is open has been put into a list. -/
theorem openLists_of_plug {form : Ref} (done : plug contexts form s = .ok (.more contexts') s') :
    0 < openLists contexts' := by
  induction contexts generalizing form s with
  | nil => cases done
  | cons context outer ih =>
      cases context with
      | quote =>
          obtain ⟨_, _, _, made⟩ := bind_eq_ok done
          obtain ⟨_, _, _, plugged⟩ := bind_eq_ok made
          exact ih plugged
      | list items =>
          cases done
          exact Nat.succ_pos _
      | tail dot items =>
          cases done
          exact Nat.succ_pos _
      | close dot items last => cases done

theorem openLists_of_startForm {start : Nat}
    (done : startForm contexts token start s = .ok (.more contexts') s') :
    token = .quote ∨ 0 < openLists contexts' := by
  cases token with
  | openParen =>
      cases done
      exact .inr (Nat.succ_pos _)
  | closeParen => cases done
  | quote => exact .inl rfl
  | integer value =>
      obtain ⟨_, _, _, plugged⟩ := bind_eq_ok done
      exact .inr (openLists_of_plug plugged)
  | symbol name =>
      unfold startForm at done
      dsimp only at done
      split at done
      · cases done
      · obtain ⟨_, _, _, plugged⟩ := bind_eq_ok done
        exact .inr (openLists_of_plug plugged)

/-- After a token within a form a list is open, unless the token was a quote mark. -/
theorem openLists_of_advance {start : Nat}
    (done : advance contexts token start s = .ok (.more contexts') s') :
    token = .quote ∨ 0 < openLists contexts' := by
  unfold advance at done
  split at done
  · split at done
    · obtain ⟨_, _, _, plugged⟩ := bind_eq_ok done
      exact .inr (openLists_of_plug plugged)
    · cases done
  · split at done
    · obtain ⟨_, _, _, plugged⟩ := bind_eq_ok done
      exact .inr (openLists_of_plug plugged)
    · split at done
      · cases done
      · cases done
        exact .inr (Nat.succ_pos _)
    · exact openLists_of_startForm done
  · exact openLists_of_startForm done

end

/-! ## The end of a text -/

section

variable {length : Nat} {contexts : List Context} {ahead : List Lexeme} {s : Store}
  {q : Reader × Store}

/-- A form that the text cuts off, though all its parentheses balance, consists of quote
    marks. The induction is on the lexemes ahead; as many lists are open as the count says. -/
theorem readFrom_cutOff (failed : readFrom length contexts ahead s = .error .unexpectedEnd q)
    (balanced : ahead.foldl depthAfter (openLists contexts) = 0) :
    openLists contexts = 0 ∧ (contexts ≠ [] ∨ ahead ≠ []) ∧
      ∀ lexeme ∈ ahead, lexeme.token = .ok .quote := by
  induction ahead generalizing contexts s with
  | nil =>
      cases contexts with
      | nil => cases failed
      | cons context outer => exact ⟨balanced, .inl (List.cons_ne_nil _ _), nofun⟩
  | cons lexeme ahead ih =>
      rcases lexeme with ⟨span, e | token⟩
      · cases failed
      · unfold readFrom at failed
        cases step : advance contexts token span.start s with
        | error e s₁ =>
            rw [step] at failed
            cases failed
            exact absurd step (unending_advance contexts token span.start s s₁)
        | ok progress s₁ =>
            rw [step] at failed
            cases progress with
            | done form => cases failed
            | more contexts' =>
                obtain ⟨counted, _, _⟩ := advance_fits span step
                rw [List.foldl_cons, ← counted] at balanced
                obtain ⟨none, _, quotes⟩ := ih failed balanced
                have quote : token = .quote := by
                  rcases openLists_of_advance step with quote | some
                  · exact quote
                  · omega
                subst quote
                refine ⟨counted.symm.trans none, .inr (List.cons_ne_nil _ _), ?_⟩
                exact List.forall_mem_cons.2 ⟨rfl, quotes⟩

end

/-- Forms that have been read are balanced. -/
theorem Reads.depth {p q : Reader × Store} {forms : List Ref} (reads : Reads p forms q) :
    p.1.ahead.foldl depthAfter 0 = q.1.ahead.foldl depthAfter 0 := by
  induction reads with
  | nil p => rfl
  | cons done _ ih =>
      have gives := gives_of_read done
      exact gives.depth.trans ih

/-- A text that is read without an error is complete. -/
theorem isComplete_of_readAll {source : String} {s s' : Store} {forms : List Ref}
    (done : readAll source s = .ok forms s') : isComplete source = true := by
  obtain ⟨found, p, reads, stops⟩ := exists_reads (ofSource source) s
  have depth : (lex source).foldl depthAfter 0 = p.1.ahead.foldl depthAfter 0 := reads.depth
  cases last : read p with
  | error e q =>
      rw [(readAll_of_reads reads).2 e q last] at done
      cases done
  | ok form q =>
      cases form with
      | some form => exact absurd last (stops form q)
      | none =>
          obtain ⟨_, ended, _⟩ := readFrom_none last
          rw [ended] at depth
          exact beq_iff_eq.2 depth

/-- Where a text ends within a form, the form begins where the forms before it have ended. -/
theorem reads_of_unexpectedEnd {source : String} {s s' : Store}
    (failed : readAll source s = .error .unexpectedEnd s') :
    ∃ forms p q, Reads (ofSource source, s) forms p ∧ read p = .error .unexpectedEnd q ∧ q.2 = s' := by
  obtain ⟨forms, p, reads, stops⟩ := exists_reads (ofSource source) s
  cases last : read p with
  | error e q =>
      rw [(readAll_of_reads reads).2 e q last] at failed
      cases failed
      exact ⟨forms, p, q, reads, last, rfl⟩
  | ok form q =>
      cases form with
      | some form => exact absurd last (stops form q)
      | none =>
          rw [(readAll_of_reads reads).1 q last] at failed
          cases failed

/-- Completeness agrees with the reader, for every text and every store. A text that is not
    complete is never read without an error. If the text ends within a form, then it is not
    complete or its last token is a quote mark; and if it is complete, no list has been cut in
    half: the lexemes after the forms that have been read are quote marks and nothing else. -/
theorem complete_texts_cut_no_list (source : String) (s : Store) :
    (isComplete source = false → ∃ e s', readAll source s = .error e s') ∧
    ∀ s', readAll source s = .error .unexpectedEnd s' →
      (isComplete source = false ∨ EndsQuoting (lex source)) ∧
      (isComplete source = true → ∃ forms p q, Reads (ofSource source, s) forms p ∧
        read p = .error .unexpectedEnd q ∧ q.2 = s' ∧ p.1.ahead ≠ [] ∧
        ∀ lexeme ∈ p.1.ahead, lexeme.token = .ok .quote) := by
  constructor
  · intro incomplete
    cases done : readAll source s with
    | error e s' => exact ⟨e, s', rfl⟩
    | ok forms s' =>
        rw [isComplete_of_readAll done] at incomplete
        cases incomplete
  · intro s' failed
    obtain ⟨forms, p, q, reads, last, stays⟩ := reads_of_unexpectedEnd failed
    have cutOff : isComplete source = true →
        p.1.ahead ≠ [] ∧ ∀ lexeme ∈ p.1.ahead, lexeme.token = .ok .quote := by
      intro complete
      have balanced : p.1.ahead.foldl depthAfter (openLists []) = 0 :=
        reads.depth.symm.trans (beq_iff_eq.1 complete)
      obtain ⟨_, begun, quotes⟩ := readFrom_cutOff last balanced
      exact ⟨begun.resolve_left fun some => some rfl, quotes⟩
    constructor
    · by_cases complete : isComplete source = true
      · right
        obtain ⟨some, quotes⟩ := cutOff complete
        have ends : EndsQuoting p.1.ahead := by
          unfold EndsQuoting
          rw [List.getLast?_eq_some_getLast some, Option.map_some, quotes _ (List.getLast_mem some)]
        obtain ⟨used, rest, _, split, rfl, _⟩ := reads.consumed
        have whole : lex source = used ++ rest := split
        rw [whole]
        exact ends.append used
      · left
        exact Bool.eq_false_iff.2 complete
    · intro complete
      obtain ⟨some, quotes⟩ := cutOff complete
      exact ⟨forms, p, q, reads, last, stays, some, quotes⟩

/-- A surplus closing parenthesis hides an open list from no one, and two quote marks wait for
    a form after a list that is whole. -/
theorem complete_texts_cut_no_list_sample :
    let s := Store.ofHeap (.ofArenaSize 8)
    (isComplete "a) \"((b . c)" = false ∧ ∃ e s', readAll "a) \"((b . c)" s = .error e s') ∧
      ∃ s', readAll "(a . (b)) '' ; c)" s = .error .unexpectedEnd s' ∧
        isComplete "(a . (b)) '' ; c)" = true ∧
        (isComplete "(a . (b)) '' ; c)" = false ∨ EndsQuoting (lex "(a . (b)) '' ; c)")) ∧
        ∃ forms p q, Reads (ofSource "(a . (b)) '' ; c)", s) forms p ∧
          read p = .error .unexpectedEnd q ∧ q.2 = s' ∧ p.1.ahead ≠ [] ∧
          ∀ lexeme ∈ p.1.ahead, lexeme.token = .ok .quote := by
  intro s
  have incomplete : isComplete "a) \"((b . c)" = false := by decide +kernel
  have complete : isComplete "(a . (b)) '' ; c)" = true := by decide +kernel
  have outcome : (match readAll "(a . (b)) '' ; c)" s with
      | .ok _ _ => none
      | .error e _ => some e) = some .unexpectedEnd := by decide +kernel
  refine ⟨⟨incomplete, (complete_texts_cut_no_list _ s).1 incomplete⟩, ?_⟩
  cases done : readAll "(a . (b)) '' ; c)" s with
  | ok forms s' =>
      rw [done] at outcome
      cases outcome
  | error e s' =>
      rw [done] at outcome
      cases outcome
      obtain ⟨ends, begun⟩ := (complete_texts_cut_no_list _ s).2 s' done
      exact ⟨s', rfl, complete, ends, begun complete⟩

end Reader

end LispMachine
