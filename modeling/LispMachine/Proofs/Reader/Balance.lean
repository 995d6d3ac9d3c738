import LispMachine.Proofs.Reader.Cutting

/-!
# Cutting a text where its parentheses balance

A newline ends whatever token or comment is in progress, so the lexemes of a text are those of
its lines. And where the parentheses of the front are balanced, the front does not end within
a form, unless its last token is a quote mark. So the forms of the front are read as if the
rest were not there.
-/

namespace LispMachine

/-! ## Lines -/

theorem Scanner.feed_newline (s : Scanner) :
    s.feed '\n' = idle (s.offset + 1) s.settle.lexemes.toList := by
  rcases s with ⟨offset, mode, lexemes⟩
  cases mode <;> rfl

/-- The lexemes of a text are those of its first line and those of the rest. -/
theorem lex_line (front rest : String) :
    ∃ n, lex (front.push '\n' ++ rest) = lex front ++ (lex rest).map (Lexeme.shift n) := by
  have chars : (front.push '\n' ++ rest).toList = front.toList ++ '\n' :: rest.toList := by
    simp [String.toList_push]
  refine ⟨(front.toList.foldl Scanner.feed Scanner.start).offset + 1, ?_⟩
  unfold lex
  rw [chars, lexChars, List.foldl_append, List.foldl_cons, Scanner.feed_newline,
    Scanner.lexemes_foldl_idle]
  rfl

theorem lex_push_newline (front : String) : lex (front.push '\n') = lex front := by
  obtain ⟨n, line⟩ := lex_line front ""
  rw [String.append_empty] at line
  rw [line]
  exact List.append_nil _

theorem Scanner.feed_blank {s : Scanner} {c : Char} (blank : Text.isBlank c = true)
    (between : s.mode = .between) (faults : ∀ lexeme ∈ s.lexemes, lexeme.token = .error .invalid) :
    (s.feed c).mode = .between ∧ ∀ lexeme ∈ (s.feed c).lexemes, lexeme.token = .error .invalid := by
  rcases s with ⟨offset, mode, lexemes⟩
  cases between
  have other : ∀ d : Char, Text.isBlank d = false → (c == d) = false := by
    intro d visible
    refine beq_eq_false_iff_ne.2 ?_
    rintro rfl
    rw [visible] at blank
    cases blank
  have noWord : isWordChar c = false := by simp [isWordChar, blank]
  simp only [feed, feedBetween, other '(' rfl, other ')' rfl, other '\x27' rfl, other ';' rfl, noWord,
    Bool.false_eq_true, if_false]
  split
  · exact ⟨rfl, faults⟩
  · refine ⟨rfl, fun lexeme member => ?_⟩
    rcases Array.mem_push.1 member with before | rfl
    · exact faults lexeme before
    · rfl

theorem Scanner.foldl_blank {s : Scanner} {text : List Char} (blank : ∀ c ∈ text, Text.isBlank c = true)
    (between : s.mode = .between) (faults : ∀ lexeme ∈ s.lexemes, lexeme.token = .error .invalid) :
    ∀ lexeme ∈ (text.foldl feed s).settle.lexemes, lexeme.token = .error .invalid := by
  induction text generalizing s with
  | nil =>
      rcases s with ⟨offset, mode, lexemes⟩
      cases between
      exact faults
  | cons c text ih =>
      obtain ⟨between', faults'⟩ := feed_blank (blank c List.mem_cons_self) between faults
      exact ih (fun d member => blank d (List.mem_cons_of_mem _ member)) between' faults'

/-- A line of blanks has no tokens. Blanks that may not stand between tokens are faults. -/
theorem lex_blank {line : String} (blank : ∀ c ∈ line.toList, Text.isBlank c = true) :
    ∀ lexeme ∈ lex line, lexeme.token = .error .invalid := by
  intro lexeme member
  exact Scanner.foldl_blank blank rfl (by simp [Scanner.start]) lexeme (Array.mem_toList_iff.1 member)

/-! ## Depth -/

theorem foldl_depthAfter_shift (depth n : Nat) (lexemes : List Lexeme) :
    (lexemes.map (Lexeme.shift n)).foldl depthAfter depth = lexemes.foldl depthAfter depth := by
  rw [List.foldl_map]
  rfl

/-- How many of the open forms are lists. -/
def openLists : List Context → Nat
  | [] => 0
  | .quote :: outer => openLists outer
  | _ :: outer => openLists outer + 1

/-- Where a token has led: as many lists are open as the depth says, and the innermost form is
    a quotation only if the token was a quote mark. -/
def Progress.Fits (depth : Nat) (quoting : Prop) : Progress → Prop
  | .more contexts =>
      openLists contexts = depth ∧ contexts ≠ [] ∧ (contexts.head? = some .quote → quoting)
  | .done _ => depth = 0

/-- The last of the lexemes is a quote mark. -/
def EndsQuoting (lexemes : List Lexeme) : Prop := lexemes.getLast?.map Lexeme.token = some (.ok .quote)

instance (lexemes : List Lexeme) : Decidable (EndsQuoting lexemes) :=
  inferInstanceAs (Decidable (lexemes.getLast?.map Lexeme.token = some (.ok .quote)))

theorem EndsQuoting.append {lexemes : List Lexeme} (ends : EndsQuoting lexemes) (before : List Lexeme) :
    EndsQuoting (before ++ lexemes) := by
  obtain ⟨last, found, quote⟩ := Option.map_eq_some_iff.1 ends
  unfold EndsQuoting
  rw [List.getLast?_append, found, Option.some_or, Option.map_some, quote]

namespace Reader

section

variable {contexts : List Context} {token : Token} {s s' : Store} {progress : Progress}

theorem plug_fits {form : Ref} (done : plug contexts form s = .ok progress s') (quoting : Prop) :
    progress.Fits (openLists contexts) quoting := by
  induction contexts generalizing form s with
  | nil =>
      cases done
      rfl
  | cons context outer ih =>
      cases context with
      | quote =>
          obtain ⟨_, _, _, made⟩ := bind_eq_ok done
          obtain ⟨_, _, _, plugged⟩ := bind_eq_ok made
          exact ih plugged
      | list items =>
          cases done
          exact ⟨rfl, List.cons_ne_nil _ _, nofun⟩
      | tail dot items =>
          cases done
          exact ⟨rfl, List.cons_ne_nil _ _, nofun⟩
      | close dot items last => cases done

theorem startForm_fits {start : Nat} (span : Span) (done : startForm contexts token start s = .ok progress s') :
    progress.Fits (depthAfter (openLists contexts) ⟨span, .ok token⟩) (token = .quote) := by
  cases token with
  | openParen =>
      cases done
      exact ⟨rfl, List.cons_ne_nil _ _, nofun⟩
  | closeParen => cases done
  | quote =>
      cases done
      exact ⟨rfl, List.cons_ne_nil _ _, fun _ => rfl⟩
  | integer value =>
      obtain ⟨_, _, _, plugged⟩ := bind_eq_ok done
      exact plug_fits plugged _
  | symbol name =>
      unfold startForm at done
      dsimp only at done
      split at done
      · cases done
      · obtain ⟨_, _, _, plugged⟩ := bind_eq_ok done
        exact plug_fits plugged _

/-- One token. -/
theorem advance_fits {start : Nat} (span : Span) (done : advance contexts token start s = .ok progress s') :
    progress.Fits (depthAfter (openLists contexts) ⟨span, .ok token⟩) (token = .quote) := by
  rcases contexts with _ | ⟨context, outer⟩
  · exact startForm_fits span done
  · cases context with
    | quote => exact startForm_fits span done
    | tail dot items => exact startForm_fits span done
    | close dot items last =>
        cases token with
        | closeParen =>
            obtain ⟨_, _, _, plugged⟩ := bind_eq_ok done
            exact plug_fits plugged _
        | _ => cases done
    | list items =>
        unfold advance at done
        dsimp only at done
        split at done
        · obtain ⟨_, _, _, plugged⟩ := bind_eq_ok done
          exact plug_fits plugged _
        · split at done
          · cases done
          · cases done
            exact ⟨rfl, List.cons_ne_nil _ _, nofun⟩
        · exact startForm_fits span done

variable {length stop : Nat} {ahead front rest later : List Lexeme} {form : Ref}

/-- A read that finds no form has found no lexeme. -/
theorem readFrom_none {q : Reader × Store} (done : readFrom length contexts ahead s = .ok none q) :
    contexts = [] ∧ ahead = [] ∧ q.2 = s := by
  induction ahead generalizing contexts s with
  | nil =>
      cases contexts with
      | nil =>
          cases done
          exact ⟨rfl, rfl, rfl⟩
      | cons context outer => cases done
  | cons lexeme ahead ih =>
      rcases lexeme with ⟨span, e | token⟩
      · cases done
      · unfold readFrom at done
        cases step : advance contexts token span.start s with
        | error e s₁ =>
            rw [step] at done
            cases done
        | ok progress s₁ =>
            rw [step] at done
            have fits := advance_fits span step
            cases progress with
            | done made => cases done
            | more contexts' => exact absurd (ih done).1 fits.2.1

/-- A read that succeeds has consumed balanced parentheses. -/
theorem readFrom_depth
    (done : readFrom length contexts ahead s = .ok (some form) (⟨later, stop, length⟩, s')) :
    ahead.foldl depthAfter (openLists contexts) = later.foldl depthAfter 0 := by
  induction ahead generalizing contexts s with
  | nil => cases contexts <;> cases done
  | cons lexeme ahead ih =>
      rcases lexeme with ⟨span, e | token⟩
      · cases done
      · unfold readFrom at done
        cases step : advance contexts token span.start s with
        | error e s₁ =>
            rw [step] at done
            cases done
        | ok progress s₁ =>
            rw [step] at done
            have fits := advance_fits span step
            cases progress with
            | done made =>
                cases done
                rw [List.foldl_cons, fits]
            | more contexts' => rw [List.foldl_cons, ← fits.1, ih done]

/-- A read that begins before the end of the front succeeds before its end, if no list is open
    there and no quote mark is pending. -/
theorem readFrom_within (begun : contexts ≠ [] ∨ front ≠ [])
    (balanced : front.foldl depthAfter (openLists contexts) = 0) (plain : ¬ EndsQuoting front)
    (unquoted : front = [] → contexts.head? ≠ some .quote)
    (done : readFrom length contexts (front ++ rest) s = .ok (some form) (⟨later, stop, length⟩, s')) :
    ∃ more, later = more ++ rest ∧ more <:+ front ∧
      readFrom length contexts front s = .ok (some form) (⟨more, stop, length⟩, s') := by
  induction front generalizing contexts s with
  | nil =>
      rcases contexts with _ | ⟨context, outer⟩
      · exact absurd rfl (begun.resolve_right fun some => some rfl)
      · cases context with
        | quote => exact absurd rfl (unquoted rfl)
        | _ => cases balanced
  | cons lexeme front ih =>
      rcases lexeme with ⟨span, e | token⟩
      · cases done
      · rw [List.cons_append] at done
        unfold readFrom at done ⊢
        cases step : advance contexts token span.start s with
        | error e s₁ =>
            rw [step] at done
            cases done
        | ok progress s₁ =>
            rw [step] at done
            have fits := advance_fits span step
            cases progress with
            | done made =>
                cases done
                exact ⟨front, rfl, List.suffix_cons _ _, rfl⟩
            | more contexts' =>
                obtain ⟨depth, some, quoting⟩ := fits
                rw [List.foldl_cons, ← depth] at balanced
                have plain' : ¬ EndsQuoting front := fun ends => plain (ends.append [_])
                have unquoted' : front = [] → contexts'.head? ≠ Option.some .quote := by
                  rintro rfl quote
                  exact plain (by rw [quoting quote]; rfl)
                obtain ⟨more, same, suffix, again⟩ :=
                  ih (.inl some) balanced plain' unquoted' done
                exact ⟨more, same, suffix.trans (List.suffix_cons _ _), again⟩

/-! ## Forms -/

/-- A read of the lexemes gives the form and leaves these lexemes and this store. Positions
    are left out. -/
def Gives (ahead : List Lexeme) (s : Store) (form : Ref) (later : List Lexeme) (s' : Store) : Prop :=
  ∃ length stop, readFrom length [] ahead s = .ok (some form) (⟨later, stop, length⟩, s')

theorem gives_of_read {reader : Reader} {q : Reader × Store}
    (done : read (reader, s) = .ok (some form) q) : Gives reader.ahead s form q.1.ahead q.2 := by
  obtain ⟨_, lexeme, rest, s', _, rfl, _⟩ := readFrom_form done
  exact ⟨reader.length, lexeme.span.stop, done⟩

/-- It does not matter what the reader thinks of positions. -/
theorem Gives.read (gives : Gives ahead s form later s') (offset length : Nat) :
    ∃ stop, Reader.read (⟨ahead, offset, length⟩, s) = .ok (some form) (⟨later, stop, length⟩, s') := by
  obtain ⟨_, stop, done⟩ := gives
  obtain ⟨used, lexeme, rest, s₁, rfl, stands, same⟩ := readFrom_form done
  cases stands
  exact ⟨_, same later length⟩

theorem Gives.shorter (gives : Gives ahead s form later s') : later.length < ahead.length := by
  obtain ⟨_, stop, done⟩ := gives
  obtain ⟨used, lexeme, rest, s₁, rfl, stands, same⟩ := readFrom_form done
  cases stands
  simp only [List.length_append, List.length_cons]
  omega

theorem Gives.depth (gives : Gives ahead s form later s') :
    ahead.foldl depthAfter 0 = later.foldl depthAfter 0 := by
  obtain ⟨_, _, done⟩ := gives
  exact readFrom_depth done

theorem Gives.unshift {n : Nat} (gives : Gives (ahead.map (Lexeme.shift n)) s form later s') :
    ∃ more, later = more.map (Lexeme.shift n) ∧ Gives ahead s form more s' := by
  obtain ⟨stop, done⟩ := gives.read n n
  have shifted := read_shift n s ⟨ahead, 0, 0⟩
  simp only [shift, Nat.zero_add] at shifted
  rw [shifted] at done
  cases first : Reader.read (⟨ahead, 0, 0⟩, s) with
  | error e q =>
      rw [first] at done
      cases done
  | ok found q =>
      rw [first] at done
      injection done with value state
      cases value
      have store : q.2 = s' := congrArg Prod.snd state
      exact ⟨q.1.ahead, (congrArg (fun p => p.1.ahead) state).symm, store ▸ gives_of_read first⟩

/-- The front alone gives the same form, if it is balanced and no quote mark is pending at its
    end. -/
theorem Gives.within (gives : Gives (front ++ rest) s form later s') (some : front ≠ [])
    (balanced : front.foldl depthAfter 0 = 0) (plain : ¬ EndsQuoting front) :
    ∃ more, later = more ++ rest ∧ more <:+ front ∧ Gives front s form more s' := by
  obtain ⟨length, stop, done⟩ := gives
  have closed : front.foldl depthAfter (openLists []) = 0 := balanced
  obtain ⟨more, same, suffix, again⟩ :=
    readFrom_within (.inr some) closed plain (fun none => absurd none some) done
  exact ⟨more, same, suffix, length, stop, again⟩

end

end Reader

end LispMachine
