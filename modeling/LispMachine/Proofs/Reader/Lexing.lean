import LispMachine.Token.Lexer
import Mathlib.Data.String.Basic

/-!
# Cutting a text between its lexemes

The scanner keeps nothing of the text before a lexeme but the bytes passed and the lexemes
found. So a text may be cut at the end of any lexeme: the lexemes of the front are those up
to there, and the lexemes of the rest are the others with their positions shifted.
-/

namespace LispMachine

/-! ## Positions -/

/-- The stretch of text so many bytes later. -/
def Span.shift (n : Nat) (span : Span) : Span := ⟨span.start + n, span.stop + n⟩

/-- The lexeme so many bytes later. -/
def Lexeme.shift (n : Nat) (lexeme : Lexeme) : Lexeme := ⟨lexeme.span.shift n, lexeme.token⟩

/-- The mode so many bytes later. -/
def ScanMode.shift (n : Nat) : ScanMode → ScanMode
  | between => between
  | comment => comment
  | word first letters => word (first + n) letters

@[simp] theorem Lexeme.shift_token (n : Nat) (lexeme : Lexeme) :
    (lexeme.shift n).token = lexeme.token := rfl

@[simp] theorem Lexeme.shift_zero (lexeme : Lexeme) : lexeme.shift 0 = lexeme := rfl

namespace Scanner

/-- The scanner with a text before that has so many bytes and these lexemes. -/
def resumed (s : Scanner) (n : Nat) (before : Array Lexeme) : Scanner :=
  ⟨s.offset + n, s.mode.shift n, before ++ s.lexemes.map (Lexeme.shift n)⟩

section

variable (s : Scanner) (n : Nat) (before : Array Lexeme) (c : Char)

theorem feedBetween_resumed :
    (s.resumed n before).feedBetween c = (s.feedBetween c).resumed n before := by
  rcases s with ⟨offset, mode, lexemes⟩
  simp only [feedBetween, resumed]
  split_ifs <;> simp [ScanMode.shift, Lexeme.shift, Span.shift, Nat.add_right_comm]

theorem settle_resumed : (s.resumed n before).settle = s.settle.resumed n before := by
  rcases s with ⟨offset, mode, lexemes⟩
  cases mode with
  | word first letters => simp [resumed, settle, ScanMode.shift, Lexeme.shift, Span.shift]
  | _ => rfl

theorem feed_resumed : (s.resumed n before).feed c = (s.feed c).resumed n before := by
  rcases s with ⟨offset, mode, lexemes⟩
  cases mode with
  | between => exact feedBetween_resumed _ n before c
  | comment =>
      simp only [resumed, feed, ScanMode.shift]
      split <;> simp [Nat.add_right_comm]
  | word first letters =>
      simp only [resumed, feed, ScanMode.shift]
      split
      · simp [Nat.add_right_comm]
      · have settled := settle_resumed ⟨offset, .word first letters, lexemes⟩ n before
        have fed := feedBetween_resumed (settle ⟨offset, .word first letters, lexemes⟩) n before c
        rw [← settled] at fed
        exact fed

/-- The same text is scanned the same way after any other. -/
theorem foldl_resumed (text : List Char) :
    text.foldl feed (s.resumed n before) = (text.foldl feed s).resumed n before := by
  induction text generalizing s with
  | nil => rfl
  | cons c text ih => rw [List.foldl_cons, feed_resumed, ih, List.foldl_cons]

end

/-- The scanner between two tokens. -/
def idle (offset : Nat) (found : List Lexeme) : Scanner := ⟨offset, .between, found.toArray⟩

/-- What is scanned from between two tokens does not depend on what was before. -/
theorem lexemes_foldl_idle (offset : Nat) (found : List Lexeme) (text : List Char) :
    (text.foldl feed (idle offset found)).settle.lexemes.toList =
      found ++ (lexChars text).toList.map (Lexeme.shift offset) := by
  have same : idle offset found = start.resumed offset found.toArray := by
    simp [idle, start, resumed, ScanMode.shift]
  rw [same, foldl_resumed, settle_resumed]
  simp [resumed, lexChars]

/-! ## Ends of lexemes -/

section

variable {s : Scanner} {c : Char} {text : List Char}

/-- A character that continues no word comes after its end. -/
theorem feed_settle (ends : ∀ first letters, s.mode = .word first letters → isWordChar c = false) :
    s.settle.feed c = s.feed c := by
  rcases s with ⟨offset, mode, lexemes⟩
  cases mode with
  | word first letters =>
      simp only [feed, ends first letters rfl]
      rfl
  | _ => rfl

/-- A character that continues no word is a token of its own, or it adds none. Then it may
    begin a word. -/
theorem feedBetween_cases (s : Scanner) (c : Char) :
    (∃ token, s.feedBetween c = ⟨s.offset + c.utf8Size, .between,
        s.lexemes.push ⟨⟨s.offset, s.offset + c.utf8Size⟩, token⟩⟩ ∧
        ∀ name, token ≠ .ok (.symbol name)) ∨
      ∃ mode, s.feedBetween c = ⟨s.offset + c.utf8Size, mode, s.lexemes⟩ ∧
        ∀ first letters, mode = .word first letters → letters = [c] ∧ isWordChar c = true := by
  rcases s with ⟨offset, mode, lexemes⟩
  simp only [feedBetween]
  split_ifs with _ _ _ _ _ letter
  · exact Or.inl ⟨_, rfl, nofun⟩
  · exact Or.inl ⟨_, rfl, nofun⟩
  · exact Or.inl ⟨_, rfl, nofun⟩
  · exact Or.inr ⟨_, rfl, nofun⟩
  · exact Or.inr ⟨_, rfl, nofun⟩
  · refine Or.inr ⟨_, rfl, ?_⟩
    rintro _ _ ⟨⟩
    exact ⟨rfl, letter⟩
  · exact Or.inl ⟨_, rfl, nofun⟩

theorem settle_settle (s : Scanner) : s.settle.settle = s.settle := by
  rcases s with ⟨offset, mode, lexemes⟩
  cases mode <;> rfl

theorem offset_settle (s : Scanner) : s.settle.offset = s.offset := by
  rcases s with ⟨offset, mode, lexemes⟩
  cases mode <;> rfl

theorem offset_feed (s : Scanner) (c : Char) : (s.feed c).offset = s.offset + c.utf8Size := by
  have between : ∀ t : Scanner, (t.feedBetween c).offset = t.offset + c.utf8Size := by
    intro t
    rcases feedBetween_cases t c with ⟨_, step, _⟩ | ⟨_, step, _⟩ <;> rw [step]
  rcases s with ⟨offset, mode, lexemes⟩
  cases mode with
  | between => exact between _
  | comment =>
      simp only [feed]
      split <;> rfl
  | word first letters =>
      simp only [feed]
      split
      · rfl
      · rw [between, offset_settle]

theorem offset_foldl (s : Scanner) (text : List Char) :
    (text.foldl feed s).offset = s.offset + String.utf8Len text := by
  induction text generalizing s with
  | nil => rfl
  | cons c text ih =>
      rw [List.foldl_cons, ih, offset_feed, String.utf8Len_cons]
      omega

/-- A character goes on with the text in progress, or what is in progress ends before it. -/
theorem feed_cases (s : Scanner) (c : Char) :
    (∃ mode, s.feed c = ⟨s.offset + c.utf8Size, mode, s.lexemes⟩) ∨
      (s.feed c = s.settle.feedBetween c ∧ s.settle.mode = .between) := by
  rcases s with ⟨offset, mode, lexemes⟩
  cases mode with
  | between => exact Or.inr ⟨rfl, rfl⟩
  | comment =>
      simp only [feed]
      split <;> exact Or.inl ⟨_, rfl⟩
  | word first letters =>
      simp only [feed]
      split
      · exact Or.inl ⟨_, rfl⟩
      · exact Or.inr ⟨rfl, rfl⟩

/-- What has been found stays. -/
theorem lexemes_settle (s : Scanner) :
    ∃ more, s.settle.lexemes.toList = s.lexemes.toList ++ more := by
  rcases s with ⟨offset, mode, lexemes⟩
  cases mode with
  | word first letters => exact ⟨_, Array.toList_push⟩
  | _ => exact ⟨[], (List.append_nil _).symm⟩

theorem lexemes_foldl (s : Scanner) (text : List Char) :
    ∃ more, (text.foldl feed s).settle.lexemes.toList = s.lexemes.toList ++ more := by
  induction text generalizing s with
  | nil => exact lexemes_settle s
  | cons c text ih =>
      obtain ⟨more, rest⟩ := ih (s.feed c)
      rw [List.foldl_cons, rest]
      rcases feed_cases s c with ⟨mode, step⟩ | ⟨step, _⟩
      · exact ⟨more, by rw [step]⟩
      · obtain ⟨settled, before⟩ := lexemes_settle s
        rcases feedBetween_cases s.settle c with ⟨token, step', _⟩ | ⟨mode, step', _⟩ <;>
          rw [step, step'] <;> simp [before]

/-! ## Cuts -/

/-- The text may be cut at the end of the last of the lexemes. -/
def Cuts (s : Scanner) (text : List Char) (used : List Lexeme) : Prop :=
  ∃ pre post offset, text = pre ++ post ∧ (pre.foldl feed s).settle = idle offset used ∧
    (post.foldl feed (idle offset used)).settle = (text.foldl feed s).settle ∧
    used.getLast?.map (fun lexeme => lexeme.span.stop) = some offset

theorem Cuts.cons {used : List Lexeme} (cuts : Cuts (s.feed c) text used) : Cuts s (c :: text) used := by
  obtain ⟨pre, post, offset, rfl, front, rest, last⟩ := cuts
  exact ⟨c :: pre, post, offset, rfl, front, rest, last⟩

theorem cuts_here {offset : Nat} {used : List Lexeme} (here : s.settle = idle offset used)
    (same : (text.foldl feed s.settle).settle = (text.foldl feed s).settle)
    (last : used.getLast?.map (fun lexeme => lexeme.span.stop) = some offset) : Cuts s text used :=
  ⟨[], text, offset, rfl, here, by rw [← here]; exact same, last⟩

/-- The word in progress is the last of the lexemes. -/
theorem cuts_word {used ahead more : List Lexeme} (coming : s.lexemes.size < used.length)
    (there : used.length ≤ s.settle.lexemes.size)
    (all : s.settle.lexemes.toList ++ more = used ++ ahead)
    (same : (text.foldl feed s.settle).settle = (text.foldl feed s).settle) : Cuts s text used := by
  rcases s with ⟨offset, mode, lexemes⟩
  cases mode with
  | word first letters =>
      have size : (lexemes.push ⟨⟨first, offset⟩, classify letters.reverse⟩).toList.length =
          used.length := by
        simp only [settle, Array.size_push, Array.toList_push, List.length_append,
          List.length_singleton, Array.length_toList] at there coming ⊢
        omega
      obtain rfl := List.append_inj_left all size
      exact cuts_here rfl same (by simp [settle])
  | between => exact absurd there (by simpa [settle] using coming)
  | comment => exact absurd there (by simpa [settle] using coming)

/-- The end of a lexeme is a place where the text may be cut. The induction is on the text;
    the lexeme in question is one that the scanner has not yet found. -/
theorem cuts_of_lexemes {used ahead : List Lexeme}
    (all : (text.foldl feed s).settle.lexemes.toList = used ++ ahead)
    (coming : s.lexemes.size < used.length) : Cuts s text used := by
  induction text generalizing s with
  | nil =>
      have there : used.length ≤ s.settle.lexemes.size := by
        rw [← Array.length_toList, show s.settle.lexemes.toList = used ++ ahead from all,
          List.length_append]
        omega
      exact cuts_word coming there (by rw [List.append_nil]; exact all) (settle_settle s)
  | cons c text ih =>
      rcases feed_cases s c with ⟨mode, step⟩ | ⟨step, between⟩
      · exact (ih all (by rw [step]; exact coming)).cons
      · have same : s.settle.feed c = s.feed c := by
          rw [step]
          rcases settled : s.settle with ⟨offset, mode, lexemes⟩
          rw [settled] at between
          cases between
          rfl
        by_cases there : used.length ≤ s.settle.lexemes.size
        · obtain ⟨more, found⟩ := lexemes_foldl s.settle (c :: text)
          rw [List.foldl_cons, same] at found
          exact cuts_word coming there (found.symm.trans all) (by rw [List.foldl_cons, same]; rfl)
        · refine Cuts.cons ?_
          rcases feedBetween_cases s.settle c with ⟨token, step', _⟩ | ⟨mode, step', _⟩
          · by_cases last : used.length = s.settle.lexemes.size + 1
            · obtain ⟨more, found⟩ := lexemes_foldl (s.feed c) text
              have whole := found.symm.trans all
              rw [step, step'] at whole ⊢
              obtain rfl := List.append_inj_left whole (by simp [last])
              exact cuts_here rfl rfl (by simp)
            · refine ih all ?_
              rw [step, step', Array.size_push]
              omega
          · refine ih all ?_
            rw [step, step']
            exact Nat.lt_of_not_le there

end

end Scanner

open Scanner

/-- The end of the last lexeme; the offset before when there is none. -/
def reached (offset : Nat) (used : List Lexeme) : Nat :=
  (used.getLast?.map fun lexeme => lexeme.span.stop).getD offset

theorem reached_append (offset : Nat) (used more : List Lexeme) :
    reached offset (used ++ more) = reached (reached offset used) more := by
  unfold reached
  rw [List.getLast?_append]
  cases more.getLast? <;> rfl

/-- A text may be cut at the end of each of its lexemes. -/
theorem lex_cut {source : String} {used ahead : List Lexeme} (all : lex source = used ++ ahead) :
    ∃ pre post, source = pre ++ post ∧ pre.utf8ByteSize = reached 0 used ∧ lex pre = used ∧
      (lex post).map (Lexeme.shift (reached 0 used)) = ahead := by
  by_cases empty : used = []
  · subst empty
    refine ⟨"", source, by simp, rfl, rfl, ?_⟩
    rw [all, List.nil_append]
    exact (List.map_congr_left fun lexeme _ => lexeme.shift_zero).trans (List.map_id _)
  · have cuts : Cuts start source.toList used := cuts_of_lexemes all (List.length_pos_iff.2 empty)
    obtain ⟨pre, post, offset, split, front, rest, last⟩ := cuts
    have stop : reached 0 used = offset := by rw [reached, last, Option.getD_some]
    have bytes : offset = String.utf8Len pre := by
      have passed := offset_foldl start pre
      rw [← offset_settle, front] at passed
      simpa [idle, start] using passed
    refine ⟨String.ofList pre, String.ofList post, ?_, ?_, ?_, ?_⟩
    · rw [← String.ofList_append, ← split, String.ofList_toList]
    · rw [String.utf8ByteSize_ofList, stop, bytes]
    · rw [lex, String.toList_ofList, lexChars, front, idle]
    · rw [stop, lex, String.toList_ofList]
      have found := lexemes_foldl_idle offset used post
      rw [rest] at found
      exact List.append_cancel_left (found.symm.trans all)

end LispMachine
