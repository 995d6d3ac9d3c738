import LispMachine.Proofs.Twins.Run
import LispMachine.Reader

/-!
# Reading goes together

Reading a text into stores that are the same up to ties gives tied forms and leaves
the same text to be read.
-/

namespace LispMachine

/-- A failure that tells of the size of the heap. -/
def ReadError.isLimit : ReadError → Bool
  | .heap _ => true
  | _ => false

/-- Open forms that are the same up to related cells. -/
inductive Context.Resembles (related : Ref → Ref → Prop) : Context → Context → Prop where
  | quote : Resembles related .quote .quote
  | list {items items' : List Ref} : List.Forall₂ related items items' →
      Resembles related (.list items) (.list items')
  | tail (dot : Nat) {items items' : List Ref} : List.Forall₂ related items items' →
      Resembles related (.tail dot items) (.tail dot items')
  | close (dot : Nat) {items items' : List Ref} {last last' : Ref} :
      List.Forall₂ related items items' → related last last' →
      Resembles related (.close dot items last) (.close dot items' last')

/-- Steps of reading that come to the same up to related cells. -/
inductive Progress.Resembles (related : Ref → Ref → Prop) : Progress → Progress → Prop where
  | more {contexts contexts' : List Context} :
      List.Forall₂ (Context.Resembles related) contexts contexts' →
      Resembles related (.more contexts) (.more contexts')
  | done {form form' : Ref} : related form form' → Resembles related (.done form) (.done form')

theorem forall₂_context_mono {ties ties' : Ties} {contexts contexts' : List Context}
    (all : List.Forall₂ (Context.Resembles (Tied ties)) contexts contexts') (sub : ties ⊆ ties') :
    List.Forall₂ (Context.Resembles (Tied ties')) contexts contexts' := by
  refine all.imp fun context context' same => ?_
  cases same with
  | quote => exact .quote
  | list items => exact .list (forall₂_tied_mono items sub)
  | tail dot items => exact .tail dot (forall₂_tied_mono items sub)
  | close dot items last => exact .close dot (forall₂_tied_mono items sub) (last.mono sub)

namespace Reader

/-- Both are the same reading up to ties, as long as the heaps have room. -/
abbrev Mirrored {α β : Type} (kept kept' : Ref) (ties : Ties) (result : Ties → α → β → Prop)
    (x : EStateM ReadError Store α) (y : EStateM ReadError Store β) : Prop :=
  Mirrors (Store.Twins kept kept') (fun e : ReadError => e.isLimit = true) ties result x y

section

variable {kept kept' : Ref} {ties : Ties}

theorem mirrored_onHeap {α β : Type} {result : Ties → α → β → Prop} {x : EStateM HeapError Heap α}
    {y : EStateM HeapError Heap β} (mirrors : Mirrors Heap.Twins (fun _ => True) ties result x y) :
    Mirrored kept kept' ties result (onHeap x) (onHeap y) := by
  intro ties' sub s t twins
  have both := Store.mirrors_onHeap mirrors ties' sub s t twins
  unfold onHeap
  generalize Store.onHeap x s = first, Store.onHeap y t = second at both
  cases both with
  | ok done => exact .ok done
  | error failed => exact .limit₁ rfl failed
  | limit₁ _ failed => exact .limit₁ rfl failed
  | limit₂ _ failed => exact .limit₂ rfl failed

theorem mirrored_intern (name : String) :
    Mirrored kept kept' ties Tied (intern name) (intern name) := by
  intro ties' sub s t twins
  have both := Store.mirrors_intern name ties' sub s t twins
  unfold intern
  generalize Store.intern name s = first, Store.intern name t = second at both
  cases both with
  | ok done => exact .ok done
  | error failed => exact .limit₁ rfl failed
  | limit₁ _ failed => exact .limit₁ rfl failed
  | limit₂ _ failed => exact .limit₂ rfl failed

theorem mirrored_plug {contexts contexts' : List Context}
    (all : List.Forall₂ (Context.Resembles (Tied ties)) contexts contexts') {form form' : Ref}
    (tied : Tied ties form form') :
    Mirrored kept kept' ties (fun ties => Progress.Resembles (Tied ties)) (plug contexts form)
      (plug contexts' form') := by
  induction contexts generalizing ties contexts' form form' with
  | nil =>
      cases all
      exact .pure fun _ more => .done (tied.mono more)
  | cons context outer ih =>
      cases all with
      | cons head rest =>
          cases head with
          | quote =>
              refine (mirrored_intern _).bind fun ties₁ sub₁ quote quote' quotes => ?_
              have items := Heap.mirrors_list (.cons quotes (.cons (tied.mono sub₁) .nil))
              refine (mirrored_onHeap items).bind fun ties₂ sub₂ quoted quoted' made => ?_
              exact ih (forall₂_context_mono rest (List.Subset.trans sub₁ sub₂)) made
          | list items =>
              refine .pure fun _ more => .more (.cons (.list ?_) (forall₂_context_mono rest more))
              exact .cons (tied.mono more) (forall₂_tied_mono items more)
          | tail dot items =>
              refine .pure fun _ more => .more (.cons ?_ (forall₂_context_mono rest more))
              exact .close dot (forall₂_tied_mono items more) (tied.mono more)
          | close dot items last => exact .throw rfl

theorem mirrored_startForm {contexts contexts' : List Context}
    (all : List.Forall₂ (Context.Resembles (Tied ties)) contexts contexts') (token : Token)
    (start : Nat) :
    Mirrored kept kept' ties (fun ties => Progress.Resembles (Tied ties))
      (startForm contexts token start) (startForm contexts' token start) := by
  cases token with
  | openParen =>
      exact .pure fun _ more => .more (.cons (.list .nil) (forall₂_context_mono all more))
  | closeParen => exact .throw rfl
  | quote => exact .pure fun _ more => .more (.cons .quote (forall₂_context_mono all more))
  | integer value =>
      refine (mirrored_onHeap (Heap.mirrors_integer value)).bind fun ties₁ sub₁ _ _ made => ?_
      exact mirrored_plug (forall₂_context_mono all sub₁) made
  | symbol name =>
      simp only [startForm]
      split
      · exact .throw rfl
      · refine (mirrored_intern name).bind fun ties₁ sub₁ _ _ made => ?_
        exact mirrored_plug (forall₂_context_mono all sub₁) made

theorem mirrored_advance {contexts contexts' : List Context}
    (all : List.Forall₂ (Context.Resembles (Tied ties)) contexts contexts') (token : Token)
    (start : Nat) :
    Mirrored kept kept' ties (fun ties => Progress.Resembles (Tied ties))
      (advance contexts token start) (advance contexts' token start) := by
  cases all with
  | nil => exact mirrored_startForm .nil token start
  | cons head rest =>
      cases head with
      | quote => exact mirrored_startForm (.cons .quote rest) token start
      | tail dot items => exact mirrored_startForm (.cons (.tail dot items) rest) token start
      | close dot items last =>
          cases token with
          | closeParen =>
              have made := Heap.mirrors_listWithTail (List.forall₂_reverse_iff.2 items) last
              refine (mirrored_onHeap made).bind fun ties₁ sub₁ _ _ list => ?_
              exact mirrored_plug (forall₂_context_mono rest sub₁) list
          | openParen => exact .throw rfl
          | quote => exact .throw rfl
          | integer value => exact .throw rfl
          | symbol name => exact .throw rfl
      | @list found found' items =>
          have same : found = [] ↔ found' = [] := by
            rw [← List.length_eq_zero_iff, items.length_eq, List.length_eq_zero_iff]
          unfold advance
          dsimp only
          split
          · have made := Heap.mirrors_list (List.forall₂_reverse_iff.2 items)
            refine (mirrored_onHeap made).bind fun ties₁ sub₁ _ _ list => ?_
            exact mirrored_plug (forall₂_context_mono rest sub₁) list
          · simp only [same]
            split
            · exact .throw rfl
            · refine .pure fun _ more => .more (.cons ?_ (forall₂_context_mono rest more))
              exact .tail start (forall₂_tied_mono items more)
          · exact mirrored_startForm (.cons (.list items) rest) token start

/-- The same text ahead, and stores that are the same up to ties. -/
def Together (kept kept' : Ref) (ties : Ties) (p q : Reader × Store) : Prop :=
  p.1 = q.1 ∧ p.2.Twins kept kept' ties q.2

/-- The invariant of the loop: the open contexts are the same up to ties. -/
theorem readFrom_twins (length : Nat) (ahead : List Lexeme) {contexts contexts' : List Context}
    {s t : Store} (twins : s.Twins kept kept' ties t)
    (all : List.Forall₂ (Context.Resembles (Tied ties)) contexts contexts') :
    Alike (fun e : ReadError => e.isLimit = true)
      (fun a p b q => ∃ ties', ties ⊆ ties' ∧ Together kept kept' ties' p q ∧
        Option.Rel (Tied ties') a b)
      (fun p q => ∃ ties', ties ⊆ ties' ∧ Together kept kept' ties' p q)
      (readFrom length contexts ahead s) (readFrom length contexts' ahead t) := by
  induction ahead generalizing ties contexts contexts' s t with
  | nil =>
      cases all with
      | nil => exact .ok ⟨ties, List.Subset.refl _, ⟨rfl, twins⟩, .none⟩
      | cons head rest =>
          unfold readFrom
          exact .error ⟨ties, List.Subset.refl _, rfl, twins⟩
  | cons lexeme ahead ih =>
      rcases lexeme with ⟨span, outcome⟩
      cases outcome with
      | error e =>
          unfold readFrom
          exact .error ⟨ties, List.Subset.refl _, rfl, twins⟩
      | ok token =>
          have both := mirrored_advance all token span.start ties (List.Subset.refl _) s t twins
          unfold readFrom
          generalize advance contexts token span.start s = first,
            advance contexts' token span.start t = second at both
          cases both with
          | @limit₁ _ s' t' _ reached failed =>
              obtain ⟨ties₁, sub₁, twins₁⟩ := failed
              exact @Alike.limit₁ _ _ _ _ _ _ _ _ _ (⟨ahead, span.stop, length⟩, t') _ reached
                ⟨ties₁, sub₁, rfl, twins₁⟩
          | @limit₂ _ s' t' _ reached failed =>
              obtain ⟨ties₁, sub₁, twins₁⟩ := failed
              exact @Alike.limit₂ _ _ _ _ _ _ _ _ (⟨ahead, span.stop, length⟩, s') _ _ reached
                ⟨ties₁, sub₁, rfl, twins₁⟩
          | error failed =>
              obtain ⟨ties₁, sub₁, twins₁⟩ := failed
              exact .error ⟨ties₁, sub₁, rfl, twins₁⟩
          | ok done =>
              obtain ⟨ties₁, sub₁, twins₁, progress⟩ := done
              cases progress with
              | done tied => exact .ok ⟨ties₁, sub₁, ⟨rfl, twins₁⟩, .some tied⟩
              | more contexts =>
                  refine (ih twins₁ contexts).imp ?_ ?_
                  · rintro _ _ _ _ ⟨ties₂, sub₂, ended⟩
                    exact ⟨ties₂, List.Subset.trans sub₁ sub₂, ended⟩
                  · rintro _ _ ⟨ties₂, sub₂, ended⟩
                    exact ⟨ties₂, List.Subset.trans sub₁ sub₂, ended⟩

end

end Reader

end LispMachine
