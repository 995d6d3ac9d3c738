import LispMachine.Proofs.Reader.Balance
import LispMachine.Proofs.Reader.Words

/-!
# Tiling a text

What stands at the front of a text is what the longest match of a rule takes off it, and an
integer is not taken as a symbol. So a text is laid out with tiles, each of them a token, a
fault of one character, a run of blanks or a comment. The scanner, which looks at one character
after the other, finds the tiles that are reported, each with the bytes that it covers.
-/

namespace LispMachine

/-! ## Lexical rules -/

/-- What the front of a text may be. -/
inductive Rule where
  | openParen
  | closeParen
  | quote
  | integer
  | symbol
  | blanks
  | comment

/-- The texts of a rule. -/
def Rule.Matches : Rule → List Char → Prop
  | openParen, text => text = ['(']
  | closeParen, text => text = [')']
  | quote, text => text = ['\x27']
  | integer, text => ∃ digits, digits ≠ [] ∧ digits.all Text.isDigit = true ∧
      (text = digits ∨ text = '-' :: digits)
  | symbol, text => text ≠ [] ∧ ∀ c ∈ text, isWordChar c = true
  | blanks, text => text ≠ [] ∧ ∀ c ∈ text, isSkipped c = true
  | comment, text => ∃ body, text = ';' :: body ∧ '\n' ∉ body

/-- The rule takes a text off the front of what is left, up to this rest: no rule matches a
    longer front, and an integer is not taken as a symbol. -/
structure Rule.Takes (rule : Rule) (text rest : List Char) : Prop where
  here : rule.Matches text
  longest : ∀ (other : Rule) (text' rest' : List Char), other.Matches text' →
    text' ++ rest' = text ++ rest → text'.length ≤ text.length
  symbol : rule = .symbol → ¬ Rule.integer.Matches text

/-- No rule matches a front of the text. -/
def Unmatched (text : List Char) : Prop :=
  ∀ (rule : Rule) (front rest : List Char), rule.Matches front → front ++ rest ≠ text

/-- A stretch of text and the rule that has taken it; without one it is a fault. -/
structure Tile where
  rule : Option Rule
  text : List Char

/-- The tiles of a text. -/
inductive Tiled : List Tile → List Char → Prop where
  | nil : Tiled [] []
  | taken {rule : Rule} {text rest : List Char} {tiles : List Tile} : rule.Takes text rest →
      Tiled tiles rest → Tiled (⟨some rule, text⟩ :: tiles) (text ++ rest)
  | fault {c : Char} {rest : List Char} {tiles : List Tile} : Unmatched (c :: rest) →
      Tiled tiles rest → Tiled (⟨none, [c]⟩ :: tiles) (c :: rest)

/-- The token of a tile, if it is reported. -/
def Tile.token? : Tile → Option (Except LexError Token)
  | ⟨some .openParen, _⟩ => some (.ok .openParen)
  | ⟨some .closeParen, _⟩ => some (.ok .closeParen)
  | ⟨some .quote, _⟩ => some (.ok .quote)
  | ⟨some .integer, text⟩ =>
      some <| match (integerLiteral? text).bind machineInt? with
        | some value => .ok (.integer value)
        | none => .error (.integerTooBig (String.ofList text))
  | ⟨some .symbol, text⟩ => some (.ok (.symbol (String.ofList text)))
  | ⟨some .blanks, _⟩ => none
  | ⟨some .comment, _⟩ => none
  | ⟨none, _⟩ => some (.error .invalid)

/-- What is reported of a tile that begins at an offset. -/
def Tile.lexemes (offset : Nat) (tile : Tile) : List Lexeme :=
  match tile.token? with
  | some token => [⟨⟨offset, offset + String.utf8Len tile.text⟩, token⟩]
  | none => []

/-- What is reported of tiles of which the first begins at an offset. -/
def lexemesOf (offset : Nat) : List Tile → List Lexeme
  | [] => []
  | tile :: tiles =>
      tile.lexemes offset ++ lexemesOf (offset + String.utf8Len tile.text) tiles

/-! ## Every text has tiles -/

/-- Characters with which a match may go on that has begun with a character. -/
def goesOn (first : Char) : Char → Bool :=
  if first == ';' then (· != '\n')
  else if isSkipped first then isSkipped
  else if isWordChar first then isWordChar
  else fun _ => false

theorem isWordChar_of_isSkipped {c : Char} (skipped : isSkipped c = true) :
    isWordChar c = false := by
  simp only [isSkipped, Bool.or_eq_true, beq_iff_eq] at skipped
  rcases skipped with (((rfl | rfl) | rfl) | rfl) | rfl <;> decide

theorem goesOn_skipped {c : Char} (skipped : isSkipped c = true) : goesOn c = isSkipped := by
  have other : (c == ';') = false := by
    rw [beq_eq_false_iff_ne]
    rintro rfl
    exact absurd skipped (by decide)
  simp [goesOn, other, skipped]

theorem goesOn_word {c : Char} (letter : isWordChar c = true) : goesOn c = isWordChar := by
  have other : (c == ';') = false := by
    rw [beq_eq_false_iff_ne]
    rintro rfl
    exact absurd letter (by decide)
  have kept : isSkipped c = false := by
    rw [← Bool.not_eq_true]
    intro skipped
    rw [isWordChar_of_isSkipped skipped] at letter
    cases letter
  simp [goesOn, other, kept, letter]

theorem Rule.Matches.symbol {text : List Char} (literal : Rule.integer.Matches text) :
    Rule.symbol.Matches text := by
  obtain ⟨digits, some_, all, spelled⟩ := literal
  have words : ∀ c ∈ digits, isWordChar c = true := fun c member =>
    isWordChar_of_isDigit (List.all_eq_true.1 all c member)
  rcases spelled with rfl | rfl
  · exact ⟨some_, words⟩
  · exact ⟨List.cons_ne_nil _ _, List.forall_mem_cons.2 ⟨by decide, words⟩⟩

theorem Rule.Matches.ne_nil {rule : Rule} {text : List Char} (here : rule.Matches text) :
    text ≠ [] := by
  cases rule with
  | openParen => exact here ▸ List.cons_ne_nil _ _
  | closeParen => exact here ▸ List.cons_ne_nil _ _
  | quote => exact here ▸ List.cons_ne_nil _ _
  | integer => exact here.symbol.1
  | symbol => exact here.1
  | blanks => exact here.1
  | comment =>
      obtain ⟨body, rfl, _⟩ := here
      exact List.cons_ne_nil _ _

/-- The first character of a match says with which others a rule may go on, all of them and
    no other. -/
theorem Rule.Matches.goes {rule : Rule} {c : Char} {text : List Char}
    (here : rule.Matches (c :: text)) :
    ∃ other : Rule, other.Matches (c :: text) ∧
      ∀ run : List Char, other.Matches (c :: run) ↔ ∀ d ∈ run, goesOn c d = true := by
  -- A token of one character goes on with none.
  have single : ∀ d run, c = d → goesOn d = (fun _ => false) →
      (c :: run = [d] ↔ ∀ e ∈ run, goesOn c e = true) := by
    rintro d run rfl stops
    rw [stops]
    simp [List.eq_nil_iff_forall_not_mem]
  have word : Rule.symbol.Matches (c :: text) → ∃ other : Rule, other.Matches (c :: text) ∧
      ∀ run : List Char, other.Matches (c :: run) ↔ ∀ d ∈ run, goesOn c d = true := by
    intro here
    have first := here.2 c List.mem_cons_self
    refine ⟨.symbol, here, fun run => ?_⟩
    rw [goesOn_word first]
    simp [Matches, first]
  cases rule with
  | openParen => exact ⟨.openParen, here, fun run => single _ run (List.cons.inj here).1 rfl⟩
  | closeParen => exact ⟨.closeParen, here, fun run => single _ run (List.cons.inj here).1 rfl⟩
  | quote => exact ⟨.quote, here, fun run => single _ run (List.cons.inj here).1 rfl⟩
  | integer => exact word here.symbol
  | symbol => exact word here
  | blanks =>
      have first := here.2 c List.mem_cons_self
      refine ⟨.blanks, here, fun run => ?_⟩
      rw [goesOn_skipped first]
      simp [Matches, first]
  | comment =>
      obtain ⟨body, same, inside⟩ := here
      cases same
      have goes : ∀ d : Char, goesOn ';' d = true ↔ d ≠ '\n' := fun d => bne_iff_ne
      refine ⟨.comment, ⟨text, rfl, inside⟩, fun run => ?_⟩
      simp only [goes]
      constructor
      · rintro ⟨body, same, inside⟩ d member rfl
        cases same
        exact inside member
      · intro more
        exact ⟨run, rfl, fun member => more _ member rfl⟩

/-- The front of a text is taken by a rule, or no rule matches it. -/
theorem exists_takes (c : Char) (rest : List Char) :
    (∃ rule : Rule, rule.Takes (c :: rest.takeWhile (goesOn c)) (rest.dropWhile (goesOn c))) ∨
      Unmatched (c :: rest) := by
  have run : ∀ d ∈ rest.takeWhile (goesOn c), goesOn c d = true :=
    List.all_eq_true.1 List.all_takeWhile
  have longest : ∀ (other : Rule) (text' rest' : List Char), other.Matches text' →
      text' ++ rest' = c :: rest.takeWhile (goesOn c) ++ rest.dropWhile (goesOn c) →
      text'.length ≤ (c :: rest.takeWhile (goesOn c)).length := by
    intro other text' rest' here same
    rw [List.cons_append, List.takeWhile_append_dropWhile] at same
    obtain ⟨d, text', rfl⟩ := List.exists_cons_of_ne_nil here.ne_nil
    rw [List.cons_append] at same
    obtain ⟨rfl, rfl⟩ := List.cons.inj same
    obtain ⟨_, matched, goes⟩ := here.goes
    rw [List.takeWhile_append_of_pos ((goes text').1 matched), List.length_cons, List.length_cons,
      List.length_append]
    omega
  by_cases matched : ∃ rule : Rule, rule.Matches (c :: rest.takeWhile (goesOn c))
  · left
    by_cases literal : Rule.integer.Matches (c :: rest.takeWhile (goesOn c))
    · exact ⟨.integer, literal, longest, nofun⟩
    · obtain ⟨rule, here⟩ := matched
      exact ⟨rule, here, longest, fun _ => literal⟩
  · right
    intro rule front rest' here same
    obtain ⟨d, front, rfl⟩ := List.exists_cons_of_ne_nil here.ne_nil
    rw [List.cons_append] at same
    obtain ⟨rfl, rfl⟩ := List.cons.inj same
    obtain ⟨other, _, goes⟩ := here.goes
    exact matched ⟨other, (goes _).2 run⟩

theorem exists_tiled : ∀ text : List Char, ∃ tiles, Tiled tiles text
  | [] => ⟨[], .nil⟩
  | c :: rest => by
      rcases exists_takes c rest with ⟨rule, takes⟩ | unmatched
      · have shorter : (rest.dropWhile (goesOn c)).length ≤ rest.length :=
          (List.dropWhile_suffix _).length_le
        obtain ⟨tiles, tiled⟩ := exists_tiled (rest.dropWhile (goesOn c))
        have whole := Tiled.taken takes tiled
        rw [List.cons_append, List.takeWhile_append_dropWhile] at whole
        exact ⟨_, whole⟩
      · obtain ⟨tiles, tiled⟩ := exists_tiled rest
        exact ⟨_, .fault unmatched tiled⟩
termination_by text => text.length

/-! ## The scanner finds the tiles -/

section

open Scanner

variable {rule : Rule} {text rest : List Char} {tiles : List Tile}

/-- No rule goes on with the character after what has been taken. -/
theorem Rule.Takes.stops (takes : rule.Takes text rest) {c : Char} (next : rest.head? = some c)
    (other : Rule) : ¬ other.Matches (text ++ [c]) := by
  intro more
  obtain ⟨rest, rfl⟩ := List.head?_eq_some_iff.1 next
  have longer := takes.longest other (text ++ [c]) rest more (by simp)
  rw [List.length_append, List.length_singleton] at longer
  omega

/-- What follows a word does not go on with it. -/
theorem Rule.Takes.ends (takes : rule.Takes text rest) (word : Rule.symbol.Matches text) {c : Char}
    (next : rest.head? = some c) : isWordChar c = false := by
  rw [← Bool.not_eq_true]
  intro letter
  apply takes.stops next .symbol
  refine ⟨by simp, ?_⟩
  simpa [or_imp, forall_and, letter] using word.2

/-- What follows a comment is a newline. -/
theorem Rule.Takes.newline (takes : rule.Takes text rest) (comment : Rule.comment.Matches text)
    {c : Char} (next : rest.head? = some c) : c = '\n' := by
  by_contra other
  obtain ⟨body, rfl, inside⟩ := comment
  apply takes.stops next .comment
  exact ⟨body ++ [c], rfl, by simpa [inside] using Ne.symm other⟩

/-- A front that leaves the scanner as good as between tokens. -/
theorem lexChars_append {found : List Lexeme}
    (same : (rest.foldl feed (text.foldl feed start)).settle.lexemes =
      (rest.foldl feed (idle (String.utf8Len text) found)).settle.lexemes) :
    (lexChars (text ++ rest)).toList =
      found ++ (lexChars rest).toList.map (Lexeme.shift (String.utf8Len text)) := by
  rw [lexChars, List.foldl_append, same, lexemes_foldl_idle]

theorem foldl_skipped (skipped : ∀ c ∈ text, isSkipped c = true) (offset : Nat) :
    text.foldl feed (idle offset []) = idle (offset + String.utf8Len text) [] := by
  induction text generalizing offset with
  | nil => rfl
  | cons c text ih =>
      obtain ⟨here, others⟩ := List.forall_mem_cons.1 skipped
      have step : feed (idle offset []) c = idle (offset + c.utf8Size) [] := by
        simp only [isSkipped, Bool.or_eq_true, beq_iff_eq] at here
        rcases here with (((rfl | rfl) | rfl) | rfl) | rfl <;> rfl
      rw [List.foldl_cons, step, ih others, String.utf8Len_cons, Nat.add_assoc,
        Nat.add_comm c.utf8Size]

theorem foldl_comment (inside : '\n' ∉ text) (offset : Nat) (found : Array Lexeme) :
    text.foldl feed ⟨offset, .comment, found⟩ =
      ⟨offset + String.utf8Len text, .comment, found⟩ := by
  induction text generalizing offset with
  | nil => rfl
  | cons c text ih =>
      obtain ⟨other, inside⟩ := not_or.1 (mt List.mem_cons.2 inside)
      have stays : (c == '\n') = false := beq_eq_false_iff_ne.2 (Ne.symm other)
      rw [List.foldl_cons, feed]
      simp only [stays, Bool.false_eq_true, if_false]
      rw [ih inside, String.utf8Len_cons, Nat.add_assoc, Nat.add_comm c.utf8Size]

theorem settle_word (word : Rule.symbol.Matches text) :
    (text.foldl feed start).settle =
      idle (String.utf8Len text) [⟨⟨0, String.utf8Len text⟩, classify text⟩] := by
  obtain ⟨c, letters, rfl⟩ := List.exists_cons_of_ne_nil word.1
  obtain ⟨first, others⟩ := List.forall_mem_cons.1 word.2
  have begun : feed start c = ⟨0 + c.utf8Size, .word 0 [c], #[]⟩ :=
    feedBetween_word first 0 .between #[]
  obtain ⟨offset, scanned⟩ := foldl_word others 0 (0 + c.utf8Size) [c] #[]
  rw [← begun, ← List.foldl_cons] at scanned
  have bytes : offset = String.utf8Len (c :: letters) := by
    have passed := offset_foldl start (c :: letters)
    rw [scanned] at passed
    exact passed.trans (Nat.zero_add _)
  rw [scanned, bytes]
  simp [settle, idle]

theorem scanned_word (takes : rule.Takes text rest) (word : Rule.symbol.Matches text) :
    (lexChars (text ++ rest)).toList =
      [⟨⟨0, String.utf8Len text⟩, classify text⟩] ++
        (lexChars rest).toList.map (Lexeme.shift (String.utf8Len text)) := by
  apply lexChars_append
  rw [← settle_word word]
  cases rest with
  | nil => rw [List.foldl_nil, List.foldl_nil, settle_settle]
  | cons c rest =>
      have ends := takes.ends word (c := c) rfl
      rw [List.foldl_cons, List.foldl_cons, feed_settle fun _ _ _ => ends]

theorem Tile.lexemes_integer (literal : Rule.integer.Matches text) (offset : Nat) :
    Tile.lexemes offset ⟨some .integer, text⟩ =
      [⟨⟨offset, offset + String.utf8Len text⟩, classify text⟩] := by
  obtain ⟨value, spelled⟩ : ∃ value, integerLiteral? text = some value := by
    obtain ⟨digits, some_, all, rfl | rfl⟩ := literal
    · exact ⟨_, (integerLiteral?_digits some_ all).1⟩
    · exact ⟨_, (integerLiteral?_digits some_ all).2⟩
  cases ranged : machineInt? value <;>
    simp only [lexemes, token?, classify, spelled, ranged, Option.bind_some]

theorem Tile.lexemes_symbol (other : ¬ Rule.integer.Matches text) (offset : Nat) :
    Tile.lexemes offset ⟨some .symbol, text⟩ =
      [⟨⟨offset, offset + String.utf8Len text⟩, classify text⟩] := by
  have none_ : integerLiteral? text = none := by
    rw [integerLiteral?_eq_none]
    intro digits some_ all
    constructor
    · intro same
      exact other ⟨digits, some_, all, .inl same⟩
    · intro same
      exact other ⟨digits, some_, all, .inr same⟩
  simp only [lexemes, token?, classify, none_]

theorem scanned_comment (takes : rule.Takes text rest) (comment : Rule.comment.Matches text) :
    (lexChars (text ++ rest)).toList =
      (lexChars rest).toList.map (Lexeme.shift (String.utf8Len text)) := by
  rw [← List.nil_append (List.map _ _)]
  apply lexChars_append
  have scanned : text.foldl feed start = ⟨String.utf8Len text, .comment, #[]⟩ := by
    obtain ⟨body, rfl, inside⟩ := comment
    show body.foldl feed ⟨1, .comment, #[]⟩ = _
    rw [foldl_comment inside, String.utf8Len_cons, Nat.add_comm]
    rfl
  rw [scanned]
  cases rest with
  | nil => rfl
  | cons c rest =>
      cases takes.newline comment (c := c) rfl
      rfl

/-- What a rule takes off the front of a text is scanned apart from the rest. -/
theorem Rule.Takes.scanned (takes : rule.Takes text rest) :
    (lexChars (text ++ rest)).toList = Tile.lexemes 0 ⟨some rule, text⟩ ++
      (lexChars rest).toList.map (Lexeme.shift (String.utf8Len text)) := by
  have here := takes.here
  cases rule with
  | openParen =>
      cases here
      apply lexChars_append
      rfl
  | closeParen =>
      cases here
      apply lexChars_append
      rfl
  | quote =>
      cases here
      apply lexChars_append
      rfl
  | integer =>
      rw [Tile.lexemes_integer here, Nat.zero_add]
      exact scanned_word takes here.symbol
  | symbol =>
      rw [Tile.lexemes_symbol (takes.symbol rfl), Nat.zero_add]
      exact scanned_word takes here
  | blanks =>
      apply lexChars_append
      rw [show start = idle 0 [] from rfl, foldl_skipped here.2, Nat.zero_add]
      rfl
  | comment => exact scanned_comment takes here

/-- A character that begins no match is a fault of its own. -/
theorem Unmatched.scanned {c : Char} (unmatched : Unmatched (c :: rest)) :
    (lexChars (c :: rest)).toList = Tile.lexemes 0 ⟨none, [c]⟩ ++
      (lexChars rest).toList.map (Lexeme.shift (String.utf8Len [c])) := by
  have alone : ∀ rule : Rule, ¬ rule.Matches [c] := fun rule here =>
    unmatched rule [c] rest here rfl
  have opened : c ≠ '(' := fun same => alone .openParen (by rw [same]; rfl)
  have closed : c ≠ ')' := fun same => alone .closeParen (by rw [same]; rfl)
  have quoted : c ≠ '\x27' := fun same => alone .quote (by rw [same]; rfl)
  have commented : c ≠ ';' := fun same => alone .comment ⟨[], by rw [same], List.not_mem_nil⟩
  have kept : isSkipped c = false := by
    rw [← Bool.not_eq_true]
    intro skipped
    exact alone .blanks ⟨List.cons_ne_nil _ _, by simpa using skipped⟩
  have other : isWordChar c = false := by
    rw [← Bool.not_eq_true]
    intro letter
    exact alone .symbol ⟨List.cons_ne_nil _ _, by simpa using letter⟩
  have step : feed start c = idle c.utf8Size [⟨⟨0, c.utf8Size⟩, .error .invalid⟩] := by
    simp [feed, start, feedBetween, idle, opened, closed, quoted, commented, kept, other]
  have reported : Tile.lexemes 0 ⟨none, [c]⟩ = [⟨⟨0, c.utf8Size⟩, .error .invalid⟩] := by
    simp [Tile.lexemes, Tile.token?]
  have bytes : String.utf8Len [c] = c.utf8Size := Nat.zero_add _
  show (lexChars ([c] ++ rest)).toList = _
  apply lexChars_append
  rw [List.foldl_cons, List.foldl_nil, step, reported, bytes]

theorem Tile.lexemes_shift (n offset : Nat) (tile : Tile) :
    tile.lexemes (offset + n) = (tile.lexemes offset).map (Lexeme.shift n) := by
  unfold lexemes
  cases tile.token? with
  | none => rfl
  | some token => simp [Lexeme.shift, Span.shift, Nat.add_right_comm]

theorem lexemesOf_shift (n offset : Nat) :
    lexemesOf (offset + n) tiles = (lexemesOf offset tiles).map (Lexeme.shift n) := by
  induction tiles generalizing offset with
  | nil => rfl
  | cons tile tiles ih =>
      rw [lexemesOf, lexemesOf, Tile.lexemes_shift, Nat.add_right_comm, ih, List.map_append]

/-- The scanner finds the tiles that are reported. -/
theorem Tiled.lexChars (tiled : Tiled tiles text) :
    (lexChars text).toList = lexemesOf 0 tiles := by
  induction tiled with
  | nil => rfl
  | taken takes _ ih => rw [takes.scanned, ih, ← lexemesOf_shift, lexemesOf]
  | fault unmatched _ ih => rw [unmatched.scanned, ih, ← lexemesOf_shift, lexemesOf]

end

/-! ## Where the tiles are -/

/-- The text of tiles. -/
def textOf (tiles : List Tile) : List Char := tiles.flatMap Tile.text

section

variable {tile : Tile} {tiles front back : List Tile} {text : List Char} {offset : Nat}
  {lexeme : Lexeme}

theorem textOf_cons : textOf (tile :: tiles) = tile.text ++ textOf tiles := List.flatMap_cons

theorem textOf_append : textOf (front ++ back) = textOf front ++ textOf back :=
  List.flatMap_append

/-- The tiles make up the text, with nothing left out between them. -/
theorem Tiled.textOf_eq (tiled : Tiled tiles text) : textOf tiles = text := by
  induction tiled with
  | nil => rfl
  | taken _ _ ih => rw [textOf_cons, ih]
  | fault _ _ ih =>
      rw [textOf_cons, ih]
      rfl

theorem Tiled.drop (tiled : Tiled (front ++ back) text) : Tiled back (textOf back) := by
  induction front generalizing text with
  | nil =>
      rw [List.nil_append] at tiled
      rw [tiled.textOf_eq]
      exact tiled
  | cons tile front ih =>
      cases tiled with
      | taken _ rest => exact ih rest
      | fault _ rest => exact ih rest

/-- A tile has some text, and what follows it is what its rule has left over. -/
theorem Tiled.piece (tiled : Tiled (front ++ tile :: back) text) :
    tile.text ≠ [] ∧ ∀ rule, tile.rule = some rule → rule.Takes tile.text (textOf back) := by
  have here := tiled.drop
  rw [textOf_cons] at here
  generalize whole : tile.text ++ textOf back = rest at here
  cases here with
  | taken takes others =>
      rw [← others.textOf_eq] at takes
      exact ⟨takes.here.ne_nil, fun rule same => Option.some.inj same ▸ takes⟩
  | fault _ _ => exact ⟨List.cons_ne_nil _ _, nofun⟩

theorem Tile.mem_lexemes (member : lexeme ∈ tile.lexemes offset) :
    lexeme.span = ⟨offset, offset + String.utf8Len tile.text⟩ ∧
      tile.token? = some lexeme.token := by
  unfold lexemes at member
  split at member
  · next found =>
      cases List.mem_singleton.1 member
      exact ⟨rfl, found⟩
  · cases member

theorem lexemesOf_append : lexemesOf offset (front ++ back) =
    lexemesOf offset front ++ lexemesOf (offset + String.utf8Len (textOf front)) back := by
  induction front generalizing offset with
  | nil => rfl
  | cons tile front ih =>
      rw [List.cons_append, lexemesOf, ih, lexemesOf, textOf_cons, String.utf8Len_append,
        List.append_assoc, Nat.add_assoc]

/-- What is reported is reported of a tile, with the bytes of it. -/
theorem mem_lexemesOf (member : lexeme ∈ lexemesOf offset tiles) :
    ∃ front tile back, tiles = front ++ tile :: back ∧
      lexeme ∈ tile.lexemes (offset + String.utf8Len (textOf front)) := by
  induction tiles generalizing offset with
  | nil => cases member
  | cons tile tiles ih =>
      rcases List.mem_append.1 member with here | later
      · exact ⟨[], tile, tiles, rfl, here⟩
      · obtain ⟨front, other, back, rfl, there⟩ := ih later
        refine ⟨tile :: front, other, back, rfl, ?_⟩
        rw [textOf_cons, String.utf8Len_append, ← Nat.add_assoc]
        exact there

theorem lexemesOf_within (member : lexeme ∈ lexemesOf offset tiles) :
    offset ≤ lexeme.span.start ∧
      lexeme.span.stop ≤ offset + String.utf8Len (textOf tiles) := by
  obtain ⟨front, tile, back, rfl, here⟩ := mem_lexemesOf member
  rw [(Tile.mem_lexemes here).1, textOf_append, textOf_cons, String.utf8Len_append,
    String.utf8Len_append]
  dsimp only
  omega

theorem lexemesOf_increasing (offset : Nat) (tiles : List Tile) :
    (lexemesOf offset tiles).Pairwise fun a b => a.span.stop ≤ b.span.start := by
  induction tiles generalizing offset with
  | nil => exact .nil
  | cons tile tiles ih =>
      rw [lexemesOf, List.pairwise_append]
      refine ⟨?_, ih _, fun a here b later => ?_⟩
      · unfold Tile.lexemes
        cases tile.token? with
        | none => exact .nil
        | some token => exact List.pairwise_singleton _ _
      · rw [(Tile.mem_lexemes here).1]
        exact (lexemesOf_within later).1

/-- Every byte is one of a tile. -/
theorem exists_tile {byte : Nat} (before : offset ≤ byte)
    (inside : byte < offset + String.utf8Len (textOf tiles)) :
    ∃ front tile back, tiles = front ++ tile :: back ∧
      offset + String.utf8Len (textOf front) ≤ byte ∧
      byte < offset + String.utf8Len (textOf front) + String.utf8Len tile.text := by
  induction tiles generalizing offset with
  | nil =>
      rw [show String.utf8Len (textOf []) = 0 from rfl] at inside
      omega
  | cons tile tiles ih =>
      rw [textOf_cons, String.utf8Len_append, ← Nat.add_assoc] at inside
      by_cases here : byte < offset + String.utf8Len tile.text
      · exact ⟨[], tile, tiles, rfl, before, here⟩
      · obtain ⟨front, other, back, rfl, first, last⟩ := ih (Nat.le_of_not_lt here) inside
        refine ⟨tile :: front, other, back, rfl, ?_⟩
        rw [textOf_cons, String.utf8Len_append, ← Nat.add_assoc]
        exact ⟨first, last⟩

end

/-! ## Spans -/

/-- The span is that of the middle part of a text, which is cut between characters. -/
structure Span.Parts (span : Span) (source pre text post : String) : Prop where
  split : source = pre ++ text ++ post
  start : span.start = pre.utf8ByteSize
  stop : span.stop = pre.utf8ByteSize + text.utf8ByteSize

/-- An integer, which may be out of range, or a symbol. -/
def Lexeme.IsWord (lexeme : Lexeme) : Prop :=
  match lexeme.token with
  | .ok (.integer _) => True
  | .ok (.symbol _) => True
  | .error (.integerTooBig _) => True
  | _ => False

section

variable {tile : Tile} {tiles front back : List Tile} {source : String} {lexeme : Lexeme}

theorem Tiled.parts (tiled : Tiled (front ++ tile :: back) source.toList) :
    Span.Parts ⟨String.utf8Len (textOf front),
        String.utf8Len (textOf front) + String.utf8Len tile.text⟩ source
      (String.ofList (textOf front)) (String.ofList tile.text) (String.ofList (textOf back)) where
  split := by
    have whole := tiled.textOf_eq
    rw [textOf_append, textOf_cons, ← List.append_assoc] at whole
    rw [← String.ofList_append, ← String.ofList_append, whole, String.ofList_toList]
  start := (String.utf8ByteSize_ofList _).symm
  stop := by rw [String.utf8ByteSize_ofList, String.utf8ByteSize_ofList]

theorem Tiled.bytes (tiled : Tiled tiles source.toList) :
    String.utf8Len (textOf tiles) = source.utf8ByteSize := by
  rw [tiled.textOf_eq, ← String.utf8ByteSize_ofList, String.ofList_toList]

theorem utf8Len_pos {text : List Char} (some_ : text ≠ []) : 0 < String.utf8Len text := by
  obtain ⟨c, text, rfl⟩ := List.exists_cons_of_ne_nil some_
  rw [String.utf8Len_cons]
  exact Nat.lt_of_lt_of_le c.utf8Size_pos (Nat.le_add_left _ _)

/-- A tile that is reported as a word is the match of a rule for words. -/
theorem Tile.word_rule (found : tile.token? = some lexeme.token) (word : lexeme.IsWord) :
    tile.rule = some .integer ∨ tile.rule = some .symbol := by
  rcases tile with ⟨rule, text⟩
  unfold Lexeme.IsWord at word
  cases rule with
  | none =>
      rw [← Option.some.inj found] at word
      exact word.elim
  | some rule =>
      cases rule with
      | integer => exact .inl rfl
      | symbol => exact .inr rfl
      | blanks => cases found
      | comment => cases found
      | _ =>
          rw [← Option.some.inj found] at word
          exact word.elim

/-- A tile that is not reported is a run of blanks or a comment. -/
theorem Tile.silent_rule (silent : tile.token? = none) :
    tile.rule = some .blanks ∨ tile.rule = some .comment := by
  rcases tile with ⟨rule, text⟩
  cases rule with
  | none => cases silent
  | some rule =>
      cases rule with
      | blanks => exact .inl rfl
      | comment => exact .inr rfl
      | _ => cases silent

/-- A word ends before blanks and before characters with a meaning of their own. -/
theorem isWordChar_eq_false {c : Char} : isWordChar c = false ↔
    Text.isBlank c = true ∨ c ∈ ['(', ')', '\x27', ';', '\x22'] := by
  rw [← Bool.not_eq_true, isWordChar_iff, not_and_or, Bool.not_eq_false, not_not]

/-- What is reported covers some bytes between two characters, and a word is followed by a
    character that ends it. -/
theorem Tiled.covers (tiled : Tiled tiles source.toList) (member : lexeme ∈ lexemesOf 0 tiles) :
    lexeme.span.start < lexeme.span.stop ∧ ∃ pre text post, lexeme.span.Parts source pre text post ∧
      (lexeme.IsWord → ∀ c, post.toList.head? = some c →
        Text.isBlank c = true ∨ c ∈ ['(', ')', '\x27', ';', '\x22']) := by
  obtain ⟨front, tile, back, rfl, here⟩ := mem_lexemesOf member
  obtain ⟨span, found⟩ := Tile.mem_lexemes here
  obtain ⟨some_, takes⟩ := tiled.piece
  rw [Nat.zero_add] at span
  rw [span]
  refine ⟨Nat.lt_add_of_pos_right (utf8Len_pos some_), _, _, _, tiled.parts, fun word c next => ?_⟩
  rw [String.toList_ofList] at next
  rw [← isWordChar_eq_false]
  rcases Tile.word_rule found word with rule | rule
  · have taken := takes _ rule
    exact taken.ends taken.here.symbol next
  · have taken := takes _ rule
    exact taken.ends taken.here next

/-- A byte of which nothing is reported belongs to blanks or a comment, and nothing is reported
    of the other bytes of those. -/
theorem Tiled.silent (tiled : Tiled tiles source.toList) {byte : Nat}
    (inside : byte < source.utf8ByteSize)
    (outside : ∀ lexeme ∈ lexemesOf 0 tiles,
      ¬ (lexeme.span.start ≤ byte ∧ byte < lexeme.span.stop)) :
    ∃ span : Span, ∃ pre text post, span.Parts source pre text post ∧
      span.start ≤ byte ∧ byte < span.stop ∧
      (Rule.blanks.Takes text.toList post.toList ∨ Rule.comment.Takes text.toList post.toList) ∧
      ∀ lexeme ∈ lexemesOf 0 tiles,
        lexeme.span.stop ≤ span.start ∨ span.stop ≤ lexeme.span.start := by
  obtain ⟨front, tile, back, rfl, first, last⟩ := exists_tile (Nat.zero_le byte)
    (by rw [Nat.zero_add, tiled.bytes]; exact inside)
  rw [Nat.zero_add] at first last
  have apart : lexemesOf 0 (front ++ tile :: back) = lexemesOf 0 front ++
      (tile.lexemes (String.utf8Len (textOf front)) ++
        lexemesOf (String.utf8Len (textOf front) + String.utf8Len tile.text) back) := by
    rw [lexemesOf_append, Nat.zero_add, lexemesOf]
  rw [apart] at outside ⊢
  have silent : tile.token? = none := by
    by_contra reported
    obtain ⟨token, found⟩ := Option.ne_none_iff_exists'.1 reported
    refine outside ⟨⟨String.utf8Len (textOf front), _⟩, token⟩ ?_ ⟨first, last⟩
    simp [Tile.lexemes, found]
  have nothing : tile.lexemes (String.utf8Len (textOf front)) = [] := by
    rw [Tile.lexemes, silent]
  refine ⟨_, _, _, _, tiled.parts, first, last, ?_, fun lexeme member => ?_⟩
  · rw [String.toList_ofList, String.toList_ofList]
    rcases Tile.silent_rule silent with rule | rule
    · exact .inl (tiled.piece.2 _ rule)
    · exact .inr (tiled.piece.2 _ rule)
  · rw [nothing, List.nil_append] at member
    rcases List.mem_append.1 member with before | after
    · exact .inl (by simpa using (lexemesOf_within before).2)
    · exact .inr (lexemesOf_within after).1

end

/-! ## Lexing -/

/-- The lexemes of two texts with a newline between them. -/
theorem lex_append_newline (a b : String) :
    lex (a ++ "\n" ++ b) = lex a ++ (lex b).map (Lexeme.shift (a.utf8ByteSize + 1)) := by
  have bytes : (a.toList.foldl Scanner.feed Scanner.start).offset = a.utf8ByteSize := by
    rw [Scanner.offset_foldl, ← String.utf8ByteSize_ofList, String.ofList_toList]
    exact Nat.zero_add _
  have chars : (a ++ "\n" ++ b).toList = a.toList ++ '\n' :: b.toList := by
    simp [String.toList_append]
  rw [lex, chars, lexChars, List.foldl_append, List.foldl_cons, Scanner.feed_newline, bytes,
    Scanner.lexemes_foldl_idle]
  rfl

/-- Lexing tiles the text, and it splits at newlines. Every text has tiles, and whichever they
    are, those that are reported are the lexemes. Each lexeme covers some bytes between two
    characters; they follow one another without overlap; an integer or a symbol ends before a
    blank or a character with a meaning of its own, or with the text; and a byte that belongs
    to no lexeme is one of a longest run of blanks or of a comment, no part of which is
    reported. -/
theorem lexing_tiles_the_text :
    (∀ source : String,
      (∃ tiles, Tiled tiles source.toList) ∧
      (∀ tiles, Tiled tiles source.toList → lex source = lexemesOf 0 tiles) ∧
      (∀ lexeme ∈ lex source, lexeme.span.start < lexeme.span.stop ∧
        ∃ pre text post, lexeme.span.Parts source pre text post ∧
          (lexeme.IsWord → ∀ c, post.toList.head? = some c →
            Text.isBlank c = true ∨ c ∈ ['(', ')', '\x27', ';', '\x22'])) ∧
      ((lex source).Pairwise fun a b => a.span.stop ≤ b.span.start) ∧
      ∀ byte < source.utf8ByteSize,
        (∀ lexeme ∈ lex source, ¬ (lexeme.span.start ≤ byte ∧ byte < lexeme.span.stop)) →
        ∃ span : Span, ∃ pre text post, span.Parts source pre text post ∧
          span.start ≤ byte ∧ byte < span.stop ∧
          (Rule.blanks.Takes text.toList post.toList ∨
            Rule.comment.Takes text.toList post.toList) ∧
          ∀ lexeme ∈ lex source,
            lexeme.span.stop ≤ span.start ∨ span.stop ≤ lexeme.span.start) ∧
    ∀ a b : String,
      lex (a ++ "\n" ++ b) = lex a ++ (lex b).map (Lexeme.shift (a.utf8ByteSize + 1)) := by
  refine ⟨fun source => ?_, lex_append_newline⟩
  obtain ⟨tiles, tiled⟩ := exists_tiled source.toList
  have same : lex source = lexemesOf 0 tiles := tiled.lexChars
  refine ⟨⟨tiles, tiled⟩, fun _ other => other.lexChars, ?_⟩
  rw [same]
  refine ⟨?_, lexemesOf_increasing 0 tiles, ?_⟩
  · intro lexeme member
    exact tiled.covers member
  · intro byte inside outside
    exact tiled.silent inside outside

/-- A symbol of two bytes, a comment with a parenthesis in it, and an integer on a new line. -/
theorem lexing_tiles_the_text_lines :
    (lex "λ;(\n-7").map Lexeme.span = [⟨0, 2⟩, ⟨5, 7⟩] ∧
    (∃ span : Span, ∃ pre text post, span.Parts "λ;(\n-7" pre text post ∧
      span.start ≤ 3 ∧ 3 < span.stop ∧
      (Rule.blanks.Takes text.toList post.toList ∨ Rule.comment.Takes text.toList post.toList)) ∧
    lex ("λ;(" ++ "\n" ++ "-7") = lex "λ;(" ++ (lex "-7").map (Lexeme.shift 5) := by
  obtain ⟨tiles, lines⟩ := lexing_tiles_the_text
  obtain ⟨-, -, -, -, silent⟩ := tiles "λ;(\n-7"
  have spans : (lex "λ;(\n-7").map Lexeme.span = [⟨0, 2⟩, ⟨5, 7⟩] := by decide +kernel
  refine ⟨spans, ?_, ?_⟩
  · obtain ⟨span, pre, text, post, parts, first, last, rule, -⟩ :=
      silent 3 (by decide +kernel) fun lexeme member => by
        have there := @List.mem_map_of_mem _ _ _ _ Lexeme.span member
        rw [spans] at there
        simp only [List.mem_cons, List.not_mem_nil, or_false] at there
        rcases there with span | span <;> rw [span] <;> decide
    exact ⟨span, pre, text, post, parts, first, last, rule⟩
  · have bytes : "λ;(".utf8ByteSize + 1 = 5 := by decide +kernel
    rw [lines, bytes]

end LispMachine
