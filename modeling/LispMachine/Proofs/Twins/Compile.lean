import LispMachine.Proofs.Compiler.Emission
import LispMachine.Proofs.Twins.Run

/-!
# Compilations go together

On machines that are the same up to ties, compiling tied forms writes the same
words with tied constants. Constants are pooled and names are resolved by handle,
so both rest on ties that agree on which handles are equal.
-/

namespace LispMachine

/-- A failure that tells of the size of the heap or of a limit of the stack of frames. -/
def CompileError.isLimit (sized : Bool) : CompileError → Bool
  | .heap _ => true
  | .macroExpansion _ cause => cause.isLimit sized
  | _ => false

/-! ## Drafts -/

/-- Scopes that give the same slots to related names. -/
structure Scope.Resembles (related : Ref → Ref → Prop) (s t : Scope) : Prop where
  arguments : List.Forall₂ related s.arguments.toList t.arguments.toList
  takesRest : s.takesRest = t.takesRest
  locals : List.Forall₂ (Option.Rel related) s.locals.toList t.locals.toList

/-- Drafts that are the same up to related cells. -/
structure Draft.Resembles (related : Ref → Ref → Prop) (d e : Draft) : Prop where
  scope : d.scope.Resembles related e.scope
  constants : List.Forall₂ related d.constants.toList e.constants.toList
  words : d.words = e.words

/-- A binding of a name to a form or to nothing. -/
def SameBinding (related : Ref → Ref → Prop) (p q : Ref × Option Ref) : Prop :=
  related p.1 q.1 ∧ Option.Rel related p.2 q.2

theorem optionRel_mono {ties ties' : Ties} {a b : Option Ref} (both : Option.Rel (Tied ties) a b)
    (sub : ties ⊆ ties') : Option.Rel (Tied ties') a b := by
  cases both with
  | none => exact .none
  | some tied => exact .some (tied.mono sub)

/-- Related names stand at the same place of lists of related names. -/
theorem findIdx?_rel {related : Ref → Ref → Prop} {first second : List Ref} {a b : Ref}
    (all : List.Forall₂ related first second)
    (agree : ∀ x y, related x y → (x = a ↔ y = b)) :
    (first.findIdx? fun x => x = a) = second.findIdx? fun y => y = b := by
  induction all with
  | nil => rfl
  | cons head _ ih =>
      simp only [List.findIdx?_cons, ih, agree _ _ head]

namespace Scope

variable {sized : Bool} {ties ties' : Ties} {s t : Scope} {a b : Ref}

theorem Resembles.mono (same : s.Resembles (Tied ties) t) (sub : ties ⊆ ties') :
    s.Resembles (Tied ties') t :=
  ⟨forall₂_tied_mono same.arguments sub, same.takesRest,
    same.locals.imp fun _ _ both => optionRel_mono both sub⟩

theorem Resembles.arguments_size (same : s.Resembles (Tied ties) t) :
    s.arguments.size = t.arguments.size := by
  simpa using same.arguments.length_eq

theorem Resembles.locals_size (same : s.Resembles (Tied ties) t) : s.locals.size = t.locals.size := by
  simpa using same.locals.length_eq

theorem Resembles.slots (same : s.Resembles (Tied ties) t) : s.slots = t.slots := by
  rw [Scope.slots, Scope.slots, same.arguments_size, same.locals_size]

theorem Resembles.params (same : s.Resembles (Tied ties) t) : s.params = t.params := by
  rw [Scope.params, Scope.params, same.arguments_size, same.takesRest]

theorem Resembles.lastLocal (same : s.Resembles (Tied ties) t)
    (agree : ∀ x y, Tied ties x y → (x = a ↔ y = b)) (count : Nat) :
    s.lastLocal a count = t.lastLocal b count := by
  induction count with
  | zero => rfl
  | succ count ih =>
      have locals := forall₂_getElem? same.locals count
      rw [Array.getElem?_toList, Array.getElem?_toList] at locals
      unfold Scope.lastLocal
      rw [ih]
      generalize s.locals[count]? = first, t.locals[count]? = second at locals
      cases locals with
      | none => rfl
      | some both =>
          cases both with
          | none => rfl
          | some tied => simp only [agree _ _ tied]

/-- Tied names have the same slot. -/
theorem Resembles.resolve {h k : Heap} (same : s.Resembles (Tied ties) t) (twins : h.Twins ties k)
    (tied : Tied ties a b) : s.resolve a = t.resolve b := by
  have agree : ∀ x y, Tied ties x y → (x = a ↔ y = b) := fun x y other => twins.eq_iff other tied
  have arguments := findIdx?_rel same.arguments agree
  unfold Scope.resolve
  rw [same.lastLocal agree, same.locals_size, same.arguments_size]
  rcases s with ⟨⟨first⟩, _, _⟩
  rcases t with ⟨⟨second⟩, _, _⟩
  simp only [List.findIdx?_toArray] at arguments ⊢
  rw [arguments]

theorem Resembles.addArgument (same : s.Resembles (Tied ties) t) (tied : Tied ties a b) :
    (s.addArgument a).Resembles (Tied ties) (t.addArgument b) where
  arguments := by
    simp only [Scope.addArgument, Array.toList_push]
    exact forall₂_append same.arguments (.cons tied .nil)
  takesRest := same.takesRest
  locals := same.locals

theorem Resembles.release (same : s.Resembles (Tied ties) t) (mark : Nat) :
    (s.release mark).Resembles (Tied ties) (t.release mark) where
  arguments := same.arguments
  takesRest := same.takesRest
  locals := by
    simp only [Scope.release, Array.toList_mapIdx]
    refine List.forall₂_iff_get.2 ⟨by simpa using same.locals.length_eq, fun i first second => ?_⟩
    simp only [List.length_mapIdx] at first second
    simp only [List.get_eq_getElem, List.getElem_mapIdx]
    split
    · exact List.Forall₂.get same.locals first second
    · exact .none

theorem storeSlots_rel {first second : List (Ref × Option Ref)}
    (all : List.Forall₂ (SameBinding (Tied ties)) first second) (slot : Nat) :
    storeSlots slot first = storeSlots slot second := by
  induction all generalizing slot with
  | nil => rfl
  | @cons p q _ _ head _ ih =>
      rcases p with ⟨name, value⟩
      rcases q with ⟨name', value'⟩
      have values : Option.Rel (Tied ties) value value' := head.2
      cases values with
      | none => exact ih (slot + 1)
      | some _ => exact congrArg (slot :: ·) (ih (slot + 1))

theorem Resembles.bindAll (same : s.Resembles (Tied ties) t) {first second : List (Ref × Option Ref)}
    (all : List.Forall₂ (SameBinding (Tied ties)) first second) :
    (s.bindAll first).1.Resembles (Tied ties) (t.bindAll second).1 ∧
      (s.bindAll first).2 = (t.bindAll second).2 := by
  rw [bindAll_eq, bindAll_eq, same.slots, storeSlots_rel all]
  refine ⟨⟨same.arguments, same.takesRest, ?_⟩, rfl⟩
  simp only [Array.toList_append]
  refine forall₂_append same.locals ?_
  rw [List.forall₂_map_left_iff, List.forall₂_map_right_iff]
  exact all.imp fun _ _ both => .some both.1

end Scope

namespace Draft

variable {sized : Bool} {ties ties' : Ties} {d e : Draft} {a b : Ref}

theorem Resembles.mono (same : d.Resembles (Tied ties) e) (sub : ties ⊆ ties') :
    d.Resembles (Tied ties') e :=
  ⟨same.scope.mono sub, forall₂_tied_mono same.constants sub, same.words⟩

theorem resembles_empty : Draft.empty.Resembles (Tied ties) Draft.empty :=
  ⟨⟨.nil, rfl, .nil⟩, .nil, rfl⟩

theorem Resembles.withScope (same : d.Resembles (Tied ties) e) {s t : Scope}
    (scopes : s.Resembles (Tied ties) t) :
    { d with scope := s }.Resembles (Tied ties) { e with scope := t } :=
  ⟨scopes, same.constants, same.words⟩

theorem Resembles.write (same : d.Resembles (Tied ties) e) (words : List UInt16) :
    (d.write words).Resembles (Tied ties) (e.write words) :=
  ⟨same.scope, same.constants, by rw [Draft.write, Draft.write, same.words]⟩

theorem Resembles.patch (same : d.Resembles (Tied ties) e) (position operand : Nat) :
    (d.patch position operand).Resembles (Tied ties) (e.patch position operand) :=
  ⟨same.scope, same.constants, by rw [Draft.patch, Draft.patch, same.words]⟩

/-- Tied constants have the same index. -/
theorem Resembles.addConstant {h k : Heap} (same : d.Resembles (Tied ties) e)
    (twins : h.Twins ties k) (tied : Tied ties a b) :
    (d.addConstant a).1 = (e.addConstant b).1 ∧
      (d.addConstant a).2.Resembles (Tied ties) (e.addConstant b).2 := by
  have found := findIdx?_rel same.constants fun _ _ other => twins.eq_iff other tied
  have sizes : d.constants.size = e.constants.size := by simpa using same.constants.length_eq
  rw [← List.findIdx?_toArray, ← List.findIdx?_toArray, Array.toArray_toList,
    Array.toArray_toList] at found
  unfold Draft.addConstant
  rw [found, sizes]
  split
  · exact ⟨rfl, same⟩
  · refine ⟨rfl, same.scope, ?_, same.words⟩
    simp only [Array.toList_push]
    exact forall₂_append same.constants (.cons tied .nil)

theorem Resembles.finish (same : d.Resembles (Tied ties) e) {name name' home home' : Ref}
    (names : Tied ties name name') (homes : Tied ties home home') :
    (d.finish name home).Resembles (Tied ties) (e.finish name' home') :=
  ⟨names, same.scope.params, same.scope.takesRest, same.scope.slots, same.constants, same.words,
    homes⟩

end Draft

/-! ## Workbenches -/

/-- Workbenches that are the same up to ties, with the frames of the machines `base`. -/
structure Workbench.Twins (sized : Bool) (base : Machine × Machine) (ties : Ties) (w v : Workbench) : Prop where
  still : w.machine.Still sized base ties v.machine
  draft : w.draft.Resembles (Tied ties) v.draft

theorem Workbench.Twins.machine {sized : Bool} {base : Machine × Machine} {ties : Ties} {w v : Workbench}
    (twins : w.Twins sized base ties v) : w.machine.Twins sized ties v.machine := twins.still.twins

namespace Compile

/-- Both are the same compilation up to ties, as long as no limit is reached. -/
abbrev Mirrored {α β : Type} (sized : Bool) (base : Machine × Machine) (ties : Ties)
    (result : Ties → α → β → Prop) (x : Compile α) (y : Compile β) : Prop :=
  Mirrors (Workbench.Twins sized base) (Stop.AtLimit (CompileError.isLimit sized)) ties result x y

section

variable {α β : Type} {base : Machine × Machine} {sized : Bool} {ties : Ties}

theorem mirrored_onDraft {f g : Draft → α × Draft}
    (next : ∀ ties', ties ⊆ ties' → ∀ w v, Workbench.Twins sized base ties' w v →
      (f w.draft).1 = (g v.draft).1 ∧ (f w.draft).2.Resembles (Tied ties') (g v.draft).2) :
    Mirrored sized base ties (fun _ => Eq) (onDraft f) (onDraft g) := by
  intro ties' sub w v twins
  obtain ⟨value, same⟩ := next ties' sub w v twins
  exact .ok ⟨ties', List.Subset.refl _, ⟨twins.still, same⟩, value⟩

theorem mirrored_modifyDraft {f g : Draft → Draft}
    (next : ∀ ties', ties ⊆ ties' → ∀ d e, d.Resembles (Tied ties') e →
      (f d).Resembles (Tied ties') (g e)) :
    Mirrored sized base ties (fun _ _ _ => True) (modifyDraft f) (modifyDraft g) :=
  fun ties' sub _ _ twins =>
    .ok ⟨ties', List.Subset.refl _, ⟨twins.still, next ties' sub _ _ twins.draft⟩, trivial⟩

theorem mirrored_modifyMachine {f g : Machine → Machine}
    (next : ∀ ties m n, Machine.Still sized base ties m n → (f m).Still sized base ties (g n)) :
    Mirrored sized base ties (fun _ _ _ => True) (modifyMachine f) (modifyMachine g) :=
  fun ties' _ _ _ twins =>
    .ok ⟨ties', List.Subset.refl _, ⟨next _ _ _ twins.still, twins.draft⟩, trivial⟩

theorem mirrored_onMachine {ε : Type} {isLimit : ε → Bool} {result : Ties → α → β → Prop}
    {f g : Machine → ε → CompileError} {x : Action ε α} {y : Action ε β}
    (mirrors : Mirrors (Machine.Still sized base) (Stop.AtLimit isLimit) ties result x y)
    (words : ∀ ties', ties ⊆ ties' → ∀ m n, Machine.Twins sized ties' m n → ∀ e, f m e = g n e)
    (limits : ∀ m e, isLimit e = true → (f m e).isLimit sized = true)
    (limits' : ∀ m e, isLimit e = true → (g m e).isLimit sized = true) :
    Mirrored sized base ties result (onMachine f x) (onMachine g y) := by
  intro ties' sub w v twins
  have both := mirrors ties' sub w.machine v.machine twins.still
  have carried : ∀ m n ties'', ties' ⊆ ties'' → Machine.Still sized base ties'' m n →
      ∃ ties'', ties' ⊆ ties'' ∧ Workbench.Twins sized base ties'' ⟨m, w.draft⟩ ⟨n, v.draft⟩ :=
    fun _ _ ties'' sub' machines => ⟨ties'', sub', machines, twins.draft.mono sub'⟩
  unfold onMachine
  dsimp only
  generalize x w.machine = first, y v.machine = second at both
  cases both with
  | ok done =>
      obtain ⟨ties'', sub', machines, related⟩ := done
      exact .ok ⟨ties'', sub', ⟨machines, twins.draft.mono sub'⟩, related⟩
  | @error e m n failed =>
      obtain ⟨ties'', sub', machines⟩ := failed
      cases e with
      | outOfFuel => exact .error (carried m n ties'' sub' machines)
      | failed error =>
          dsimp only
          rw [words ties'' (List.Subset.trans sub sub') m n machines.twins error]
          exact .error (carried m n ties'' sub' machines)
  | @limit₁ e m n _ reached failed =>
      obtain ⟨ties'', sub', machines⟩ := failed
      cases e with
      | outOfFuel => exact .limit₁ trivial (carried m n ties'' sub' machines)
      | failed error =>
          exact .limit₁ (limits _ error reached) (carried m n ties'' sub' machines)
  | @limit₂ e m n _ reached failed =>
      obtain ⟨ties'', sub', machines⟩ := failed
      cases e with
      | outOfFuel => exact .limit₂ trivial (carried m n ties'' sub' machines)
      | failed error =>
          exact .limit₂ (limits' _ error reached) (carried m n ties'' sub' machines)

theorem mirrored_fail {result : Ties → α → β → Prop} (e : CompileError) :
    Mirrored sized base ties result (fail e) (fail e) := .throw rfl

/-! ### Writing code -/

theorem mirrored_position : Mirrored sized base ties (fun _ => Eq) position position :=
  fun ties' _ _ _ twins =>
    .ok ⟨ties', List.Subset.refl _, twins, congrArg Array.size twins.draft.words⟩

theorem mirrored_emit (op : Opcode) : Mirrored sized base ties (fun _ _ _ => True) (emit op) (emit op) :=
  mirrored_modifyDraft fun _ _ _ _ same => same.write _

theorem mirrored_emitWith (op : Opcode) (operand : Nat) :
    Mirrored sized base ties (fun _ _ _ => True) (emitWith op operand) (emitWith op operand) := by
  unfold emitWith
  split
  · exact mirrored_fail _
  · exact mirrored_modifyDraft fun _ _ _ _ same => same.write _

theorem mirrored_emitBranch (op : Opcode) :
    Mirrored sized base ties (fun _ => Eq) (emitBranch op) (emitBranch op) := by
  refine mirrored_position.bind fun _ _ here here' same => ?_
  subst same
  exact (mirrored_emitWith op 9999).bind fun _ _ _ _ _ => .pure fun _ _ => rfl

theorem mirrored_land (branch : Nat) :
    Mirrored sized base ties (fun _ _ _ => True) (land branch) (land branch) := by
  refine mirrored_position.bind fun _ _ here here' same => ?_
  subst same
  split
  · exact mirrored_fail _
  · exact mirrored_modifyDraft fun _ _ _ _ same => same.patch _ _

theorem mirrored_emitConstant {a b : Ref} (tied : Tied ties a b) :
    Mirrored sized base ties (fun _ _ _ => True) (emitConstant a) (emitConstant b) := by
  refine Mirrors.bind (mirrored_onDraft ?_) ?_
  · intro ties' sub w v twins
    exact twins.draft.addConstant twins.machine.heap (tied.mono sub)
  · intro ties' sub index index' same
    subst same
    exact mirrored_emitWith _ _

/-! ### Taking forms apart -/

theorem mirrored_failOn {result : Ties → α → β → Prop} (error : String → CompileError) {a b : Ref}
    (tied : Tied ties a b) : Mirrored sized base ties result (failOn error a) (failOn error b) := by
  intro ties' sub w v twins
  unfold failOn
  rw [twins.machine.display (tied.mono sub)]
  exact .error ⟨ties', List.Subset.refl _, twins⟩

theorem mirrored_listOf {list list' form form' : Ref} (lists : Tied ties list list')
    (forms : Tied ties form form') (context : String) :
    Mirrored sized base ties (fun ties => List.Forall₂ (Tied ties)) (listOf list form context)
      (listOf list' form' context) := by
  intro ties' sub w v twins
  have items := twins.machine.heap.items? (lists.mono sub)
  unfold listOf
  generalize w.machine.heap.items? list = first, v.machine.heap.items? list' = second at items
  cases items with
  | none =>
      dsimp only
      rw [twins.machine.heap.isEndless (lists.mono sub)]
      split
      · exact .error ⟨ties', List.Subset.refl _, twins⟩
      · exact mirrored_failOn _ (forms.mono sub) ties' (List.Subset.refl _) w v twins
  | some all => exact .ok ⟨ties', List.Subset.refl _, twins, all⟩

theorem mirrored_expectSymbol {a b : Ref} (tied : Tied ties a b) (context : String) :
    Mirrored sized base ties (fun _ _ _ => True) (expectSymbol a context) (expectSymbol b context) := by
  intro ties' sub w v twins
  unfold expectSymbol
  rw [twins.machine.heap.isSymbol (tied.mono sub)]
  split
  · exact .ok ⟨ties', List.Subset.refl _, twins, trivial⟩
  · exact mirrored_failOn _ (tied.mono sub) ties' (List.Subset.refl _) w v twins

theorem mirrored_parseBinding {form form' binding binding' : Ref} (forms : Tied ties form form')
    (bindings : Tied ties binding binding') :
    Mirrored sized base ties (fun ties => SameBinding (Tied ties)) (parseBinding form binding)
      (parseBinding form' binding') := by
  refine Mirrors.get fun ties₁ sub₁ w v twins => ?_
  have bindings₁ := bindings.mono sub₁
  rw [twins.machine.heap.isSymbol bindings₁]
  split
  · exact .pure fun _ more => ⟨bindings₁.mono more, .none⟩
  · refine (mirrored_listOf bindings₁ (forms.mono sub₁) _).bind fun ties₂ sub₂ items items' all => ?_
    have bindings₂ := bindings₁.mono sub₂
    cases all with
    | nil => exact mirrored_failOn _ bindings₂
    | cons name rest =>
        cases rest with
        | nil =>
            refine (mirrored_expectSymbol name _).bind fun ties₃ sub₃ _ _ _ => ?_
            exact .pure fun _ more => ⟨(name.mono sub₃).mono more, .none⟩
        | cons value rest =>
            cases rest with
            | nil =>
                refine (mirrored_expectSymbol name _).bind fun ties₃ sub₃ _ _ _ => ?_
                exact .pure fun _ more =>
                  ⟨(name.mono sub₃).mono more, .some ((value.mono sub₃).mono more)⟩
            | cons _ _ => exact mirrored_failOn _ bindings₂

theorem forall₂_binding_mono {ties' : Ties} {first second : List (Ref × Option Ref)}
    (all : List.Forall₂ (SameBinding (Tied ties)) first second) (sub : ties ⊆ ties') :
    List.Forall₂ (SameBinding (Tied ties')) first second :=
  all.imp fun _ _ both => ⟨both.1.mono sub, optionRel_mono both.2 sub⟩

theorem mirrored_parseBindings {form form' : Ref} (forms : Tied ties form form')
    {items items' : List Ref} (all : List.Forall₂ (Tied ties) items items')
    {parsed parsed' : List (Ref × Option Ref)}
    (before : List.Forall₂ (SameBinding (Tied ties)) parsed parsed') :
    Mirrored sized base ties (fun ties => List.Forall₂ (SameBinding (Tied ties)))
      (parseBindings form items parsed) (parseBindings form' items' parsed') := by
  induction items generalizing items' ties parsed parsed' with
  | nil =>
      cases all
      exact .pure fun _ sub => List.forall₂_reverse_iff.2 (forall₂_binding_mono before sub)
  | cons binding rest ih =>
      cases all with
      | cons head tail =>
          refine (mirrored_parseBinding forms head).bind fun ties₁ sub₁ found found' same => ?_
          exact ih (forms.mono sub₁) (forall₂_tied_mono tail sub₁)
            (.cons same (forall₂_binding_mono before sub₁))

theorem mirrored_emitStores (slots : List Nat) :
    Mirrored sized base ties (fun _ _ _ => True) (emitStores slots) (emitStores slots) := by
  induction slots generalizing ties with
  | nil => exact .unit
  | cons slot rest ih => exact (mirrored_emitWith _ _).bind fun _ _ _ _ _ => ih

theorem mirrored_emitVariable {a b : Ref} (tied : Tied ties a b) :
    Mirrored sized base ties (fun _ _ _ => True) (emitVariable a) (emitVariable b) := by
  refine Mirrors.get fun ties₁ sub₁ w v twins => ?_
  have tied₁ := tied.mono sub₁
  rw [twins.draft.scope.resolve twins.machine.heap tied₁]
  split
  · exact mirrored_emitWith _ _
  · exact (mirrored_emitConstant tied₁).bind fun _ _ _ _ _ => mirrored_emit _

theorem mirrored_emitQuote {form form' rest rest' : Ref} (forms : Tied ties form form')
    (rests : Tied ties rest rest') :
    Mirrored sized base ties (fun _ _ _ => True) (emitQuote form rest) (emitQuote form' rest') := by
  refine (mirrored_listOf rests forms _).bind fun ties₁ sub₁ items items' all => ?_
  have forms₁ := forms.mono sub₁
  cases all with
  | nil => exact mirrored_failOn _ forms₁
  | cons quoted rest =>
      cases rest with
      | nil => exact mirrored_emitConstant quoted
      | cons _ _ => exact mirrored_failOn _ forms₁

end

/-! ### Forms inside forms -/

section

variable {base : Machine × Machine} {sized : Bool} {ties : Ties} {emitForm emitForm' : Ref → Compile Unit}
  (forms : ∀ ties form form', Tied ties form form' →
    Mirrored sized base ties (fun _ _ _ => True) (emitForm form) (emitForm' form'))

include forms

theorem mirrored_emitEach {items items' : List Ref} (all : List.Forall₂ (Tied ties) items items') :
    Mirrored sized base ties (fun _ _ _ => True) (emitEach emitForm items) (emitEach emitForm' items') := by
  induction items generalizing items' ties with
  | nil =>
      cases all
      exact .unit
  | cons form rest ih =>
      cases all with
      | cons head tail =>
          exact (forms _ _ _ head).bind fun _ sub _ _ _ => ih (forall₂_tied_mono tail sub)

theorem mirrored_emitMore {items items' : List Ref} (all : List.Forall₂ (Tied ties) items items') :
    Mirrored sized base ties (fun _ _ _ => True) (emitMore emitForm items) (emitMore emitForm' items') := by
  induction items generalizing items' ties with
  | nil =>
      cases all
      exact .unit
  | cons form rest ih =>
      cases all with
      | cons head tail =>
          refine (mirrored_emit _).bind fun ties₁ sub₁ _ _ _ => ?_
          refine (forms _ _ _ (head.mono sub₁)).bind fun ties₂ sub₂ _ _ _ => ?_
          exact ih (forall₂_tied_mono tail (List.Subset.trans sub₁ sub₂))

theorem mirrored_emitBody {items items' : List Ref} (all : List.Forall₂ (Tied ties) items items') :
    Mirrored sized base ties (fun _ _ _ => True) (emitBody emitForm items) (emitBody emitForm' items') := by
  cases all with
  | nil => exact mirrored_emit _
  | cons head tail =>
      refine (forms _ _ _ head).bind fun ties₁ sub₁ _ _ _ => ?_
      exact mirrored_emitMore forms (forall₂_tied_mono tail sub₁)

theorem mirrored_emitValues {bindings bindings' : List (Ref × Option Ref)}
    (all : List.Forall₂ (SameBinding (Tied ties)) bindings bindings') :
    Mirrored sized base ties (fun _ _ _ => True) (emitValues emitForm bindings)
      (emitValues emitForm' bindings') := by
  induction bindings generalizing bindings' ties with
  | nil =>
      cases all
      exact .unit
  | cons binding rest ih =>
      cases all with
      | @cons _ binding' _ _ head tail =>
          rcases binding with ⟨name, value⟩
          rcases binding' with ⟨name', value'⟩
          have values : Option.Rel (Tied ties) value value' := head.2
          cases values with
          | none =>
              have next := ih tail
              exact next
          | some tied =>
              refine (forms _ _ _ tied).bind fun ties₁ sub₁ _ _ _ => ?_
              exact ih (forall₂_binding_mono tail sub₁)

theorem mirrored_emitChoice {condition condition' consequence consequence' : Ref}
    {alternative alternative' : Option Ref} (conditions : Tied ties condition condition')
    (consequences : Tied ties consequence consequence')
    (alternatives : Option.Rel (Tied ties) alternative alternative') :
    Mirrored sized base ties (fun _ _ _ => True) (emitChoice emitForm condition consequence alternative)
      (emitChoice emitForm' condition' consequence' alternative') := by
  refine (forms _ _ _ conditions).bind fun ties₁ sub₁ _ _ _ => ?_
  refine (mirrored_emitBranch _).bind fun ties₂ sub₂ toAlternative _ same => ?_
  subst same
  have sub₂ := List.Subset.trans sub₁ sub₂
  refine (forms _ _ _ (consequences.mono sub₂)).bind fun ties₃ sub₃ _ _ _ => ?_
  refine (mirrored_emitBranch _).bind fun ties₄ sub₄ toEnd _ same => ?_
  subst same
  refine (mirrored_land _).bind fun ties₅ sub₅ _ _ _ => ?_
  have sub₅ := List.Subset.trans (List.Subset.trans (List.Subset.trans sub₂ sub₃) sub₄) sub₅
  cases alternatives with
  | none => exact (mirrored_emit _).bind fun _ _ _ _ _ => mirrored_land _
  | some tied => exact (forms _ _ _ (tied.mono sub₅)).bind fun _ _ _ _ _ => mirrored_land _

theorem mirrored_emitIf {form form' rest rest' : Ref} (whole : Tied ties form form')
    (rests : Tied ties rest rest') :
    Mirrored sized base ties (fun _ _ _ => True) (emitIf emitForm form rest) (emitIf emitForm' form' rest') := by
  refine (mirrored_listOf rests whole _).bind fun ties₁ sub₁ items items' all => ?_
  have whole₁ := whole.mono sub₁
  cases all with
  | nil => exact mirrored_failOn _ whole₁
  | cons condition rest =>
      cases rest with
      | nil => exact mirrored_failOn _ whole₁
      | cons consequence rest =>
          cases rest with
          | nil => exact mirrored_emitChoice forms condition consequence .none
          | cons alternative rest =>
              cases rest with
              | nil => exact mirrored_emitChoice forms condition consequence (.some alternative)
              | cons _ _ => exact mirrored_failOn _ whole₁

theorem mirrored_emitLet {form form' rest rest' : Ref} (whole : Tied ties form form')
    (rests : Tied ties rest rest') :
    Mirrored sized base ties (fun _ _ _ => True) (emitLet emitForm form rest)
      (emitLet emitForm' form' rest') := by
  refine (mirrored_listOf rests whole _).bind fun ties₁ sub₁ items items' all => ?_
  have whole₁ := whole.mono sub₁
  cases all with
  | nil => exact mirrored_failOn _ whole₁
  | cons list body =>
      refine (mirrored_listOf list whole₁ _).bind fun ties₂ sub₂ parts parts' each => ?_
      refine (mirrored_parseBindings (whole₁.mono sub₂) each .nil).bind ?_
      intro ties₃ sub₃ bindings bindings' same
      refine (mirrored_emitValues forms same).bind fun ties₄ sub₄ _ _ _ => ?_
      have same₄ := forall₂_binding_mono same sub₄
      refine Mirrors.bind (mirrored_onDraft ?_) ?_
      · intro ties' sub w v twins
        have bound := twins.draft.scope.bindAll (forall₂_binding_mono same₄ sub)
        exact ⟨Prod.ext twins.draft.scope.locals_size bound.2, twins.draft.withScope bound.1⟩
      · intro ties₅ sub₅ marked marked' eq
        subst eq
        rcases marked with ⟨mark, stores⟩
        refine (mirrored_emitStores stores).bind fun ties₆ sub₆ _ _ _ => ?_
        have later : ties₁ ⊆ ties₆ := List.Subset.trans (List.Subset.trans (List.Subset.trans
          (List.Subset.trans sub₂ sub₃) sub₄) sub₅) sub₆
        refine (mirrored_emitBody forms (forall₂_tied_mono body later)).bind fun _ _ _ _ _ => ?_
        exact mirrored_modifyDraft fun _ _ _ _ same => same.withScope (same.scope.release mark)

theorem mirrored_emitCall {form form' head head' rest rest' : Ref} (whole : Tied ties form form')
    (heads : Tied ties head head') (rests : Tied ties rest rest') :
    Mirrored sized base ties (fun _ _ _ => True) (emitCall emitForm form head rest)
      (emitCall emitForm' form' head' rest') := by
  refine (mirrored_listOf rests whole _).bind fun ties₁ sub₁ args args' all => ?_
  have arguments : ∀ ties₂, ties₁ ⊆ ties₂ → Mirrored sized base ties₂ (fun _ _ _ => True)
      (do emitEach emitForm args; emitWith .call args.length)
      (do emitEach emitForm' args'; emitWith .call args'.length) := by
    intro ties₂ sub₂
    refine (mirrored_emitEach forms (forall₂_tied_mono all sub₂)).bind fun _ _ _ _ _ => ?_
    rw [all.length_eq]
    exact mirrored_emitWith _ _
  refine Mirrors.get fun ties₂ sub₂ w v twins => ?_
  have heads₂ := (heads.mono sub₁).mono sub₂
  rw [twins.machine.heap.isSymbol heads₂]
  split
  · refine (mirrored_emitConstant heads₂).bind fun ties₃ sub₃ _ _ _ => ?_
    refine (mirrored_emit _).bind fun ties₄ sub₄ _ _ _ => ?_
    exact arguments ties₄ (List.Subset.trans (List.Subset.trans sub₂ sub₃) sub₄)
  · refine (forms _ _ _ heads₂).bind fun ties₃ sub₃ _ _ _ => ?_
    exact arguments ties₃ (List.Subset.trans sub₂ sub₃)

end

/-! ### Macro calls -/

/-- Macro calls that are the same up to related cells. -/
structure MacroCall.Resembles (related : Ref → Ref → Prop) (first second : MacroCall) : Prop where
  form : related first.form second.form
  head : related first.head second.head
  rest : related first.rest second.rest
  code : first.code.Resembles related second.code

section

variable {base : Machine × Machine} {sized : Bool} {ties : Ties}

theorem macroOf?_twins {m n : Machine} (twins : m.Twins sized ties n) (home : ModuleId) {a b : Ref}
    (tied : Tied ties a b) :
    Option.Rel (Code.Resembles (Tied ties)) (macroOf? m home a) (macroOf? n home b) := by
  have bindings := twins.registry.function? twins.heap home tied
  unfold macroOf?
  rw [twins.heap.isSymbol tied]
  split
  · generalize m.registry.function? home a = first, n.registry.function? home b = second at bindings
    cases bindings with
    | none => exact .none
    | @some x y bound =>
        have scalars := twins.heap.scalar? bound
        dsimp only
        generalize m.heap.scalar? x = first, n.heap.scalar? y = second at scalars
        cases scalars with
        | none => exact .none
        | some scalar =>
            cases scalar with
            | expander code => exact .some code
            | integer _ => exact .none
            | symbol _ => exact .none
            | builtin _ => exact .none
            | function _ => exact .none
            | moduleCell _ => exact .none
  · exact .none

/-- The walks may have different amounts of fuel. -/
theorem mirrored_emitForm {onMacro onMacro' : MacroCall → Compile Unit}
    (calls : ∀ ties call call', call.Resembles (Tied ties) call' →
      Mirrored sized base ties (fun _ _ _ => True) (onMacro call) (onMacro' call'))
    (home : ModuleId) (fuel fuel' : Nat) {form form' : Ref} (tied : Tied ties form form') :
    Mirrored sized base ties (fun _ _ _ => True) (emitForm home onMacro fuel form)
      (emitForm home onMacro' fuel' form') := by
  induction fuel generalizing ties fuel' form form' with
  | zero => exact fun ties' _ _ _ twins => .limit₁ trivial ⟨ties', List.Subset.refl _, twins⟩
  | succ fuel ih =>
      cases fuel' with
      | zero => exact fun ties' _ _ _ twins => .limit₂ trivial ⟨ties', List.Subset.refl _, twins⟩
      | succ fuel' =>
          have forms : ∀ ties form form', Tied ties form form' → Mirrored sized base ties (fun _ _ _ => True)
              (emitForm home onMacro fuel form) (emitForm home onMacro' fuel' form') :=
            fun ties form form' tied => ih fuel' tied
          refine Mirrors.look fun ties₁ sub₁ w v twins => ?_
          have tied₁ := tied.mono sub₁
          unfold emitForm
          rw [twins.machine.heap.isNull tied₁]
          split
          · exact mirrored_emit _
          · refine Mirrors.get fun ties₂ sub₂ w v twins => ?_
            have tied₂ := tied₁.mono sub₂
            have pairs := twins.machine.heap.pair? tied₂
            generalize w.machine.heap.pair? form = first, v.machine.heap.pair? form' = second at pairs
            cases pairs with
            | none =>
                refine Mirrors.get fun ties₃ sub₃ w v twins => ?_
                have tied₃ := tied₂.mono sub₃
                rw [twins.machine.heap.isSymbol tied₃]
                split
                · exact mirrored_emitVariable tied₃
                · exact mirrored_emitConstant tied₃
            | @some p q both =>
                rcases p with ⟨head, rest⟩
                rcases q with ⟨head', rest'⟩
                refine Mirrors.get fun ties₃ sub₃ w v twins => ?_
                have tied₃ := tied₂.mono sub₃
                have heads : Tied ties₃ head head' := both.1.mono sub₃
                have rests : Tied ties₃ rest rest' := both.2.mono sub₃
                rw [twins.machine.heap.keyword? heads]
                split
                · exact mirrored_emitQuote tied₃ rests
                · exact mirrored_emitIf forms tied₃ rests
                · exact mirrored_emitLet forms tied₃ rests
                · refine Mirrors.get fun ties₄ sub₄ w v twins => ?_
                  have tied₄ := tied₃.mono sub₄
                  have heads₄ := heads.mono sub₄
                  have rests₄ := rests.mono sub₄
                  have macros := macroOf?_twins twins.machine home heads₄
                  generalize macroOf? w.machine home head = first,
                    macroOf? v.machine home head' = second at macros
                  cases macros with
                  | none => exact mirrored_emitCall forms tied₄ heads₄ rests₄
                  | some code => exact calls _ _ _ ⟨tied₄, heads₄, rests₄, code⟩

/-- Running macros is the same computation up to ties. -/
def SameExpand (sized : Bool) (base : Machine × Machine) (expand expand' : Expand) : Prop :=
  ∀ (ties : Ties) (c d : Code) (args args' : List Ref), c.Resembles (Tied ties) d →
    List.Forall₂ (Tied ties) args args' →
      Mirrors (Machine.Still sized base) (Stop.AtLimit (RuntimeError.isLimit sized)) ties Tied (expand c args)
        (expand' d args')

theorem sameExpand_expandWith (host host' : Host) (fuel fuel' : Nat) :
    SameExpand sized base (Machine.expandWith host fuel) (Machine.expandWith host' fuel') := by
  intro ties c d args args' same all
  refine Machine.still_of_mirrors (Machine.mirrored_expandWith host host' fuel fuel' same all) ?_ ?_
  · exact fun m ready => Machine.expandWith_frames host fuel c args ready
  · exact fun n ready => Machine.expandWith_frames host' fuel' d args' ready

theorem mirrored_expandOnce {expand expand' : Expand} (expands : SameExpand sized base expand expand')
    {call call' : MacroCall} (same : call.Resembles (Tied ties) call') :
    Mirrored sized base ties Tied (expandOnce expand call) (expandOnce expand' call') := by
  refine (mirrored_listOf same.rest same.form _).bind fun ties₁ sub₁ args args' all => ?_
  have ran := expands ties₁ _ _ args args' (same.code.mono sub₁) all
  refine Mirrors.bind (mirrored_onMachine ran ?_ ?_ ?_) ?_
  · intro ties₂ sub₂ m n twins e
    rw [twins.display ((same.head.mono sub₁).mono sub₂)]
  · exact fun _ _ limit => limit
  · exact fun _ _ limit => limit
  · intro ties₂ sub₂ expansion expansion' tied
    refine Mirrors.bind (mirrored_modifyMachine fun _ _ _ still => ?_) fun ties₃ sub₃ _ _ _ => ?_
    · exact still.note _ _ _ _
    · exact .pure fun _ more => (tied.mono sub₃).mono more

theorem mirrored_emitAt {expand expand' : Expand} (expands : SameExpand sized base expand expand')
    (home : ModuleId) (fuel fuel' levels : Nat) {form form' : Ref} (tied : Tied ties form form') :
    Mirrored sized base ties (fun _ _ _ => True) (emitAt home expand fuel levels form)
      (emitAt home expand' fuel' levels form') := by
  induction levels generalizing ties form form' with
  | zero =>
      exact mirrored_emitForm (fun _ _ _ _ => mirrored_fail _) home fuel fuel' tied
  | succ levels ih =>
      refine mirrored_emitForm (fun ties call call' same => ?_) home fuel fuel' tied
      exact (mirrored_expandOnce expands same).bind fun _ _ _ _ expansions => ih expansions

/-! ### Functions -/

theorem mirrored_bindParameters {params params' : Ref} (whole : Tied ties params params')
    {names names' : List Ref} (all : List.Forall₂ (Tied ties) names names') :
    Mirrored sized base ties (fun _ _ _ => True) (bindParameters params names)
      (bindParameters params' names') := by
  induction names generalizing ties names' with
  | nil =>
      cases all
      exact .unit
  | cons name rest ih =>
      cases all with
      | @cons _ name' _ rest' head tail =>
          refine Mirrors.get fun ties₁ sub₁ w v twins => ?_
          have whole₁ := whole.mono sub₁
          have head₁ := head.mono sub₁
          have tail₁ := forall₂_tied_mono tail sub₁
          rw [twins.machine.heap.keyword? head₁]
          split
          · cases tail₁ with
            | nil => exact mirrored_failOn _ whole₁
            | cons restName more =>
                cases more with
                | nil =>
                    refine (mirrored_expectSymbol restName _).bind fun ties₂ sub₂ _ _ _ => ?_
                    refine mirrored_modifyDraft fun ties₃ sub₃ _ _ same => same.withScope ?_
                    have added := same.scope.addArgument ((restName.mono sub₂).mono sub₃)
                    exact ⟨added.arguments, rfl, added.locals⟩
                | cons _ _ => exact mirrored_failOn _ whole₁
          · refine (mirrored_expectSymbol head₁ _).bind fun ties₂ sub₂ _ _ _ => ?_
            have head₂ := head₁.mono sub₂
            refine Mirrors.bind (mirrored_modifyDraft fun ties₃ sub₃ _ _ same =>
              same.withScope (same.scope.addArgument (head₂.mono sub₃))) fun ties₃ sub₃ _ _ _ => ?_
            have sub₃ := List.Subset.trans sub₂ sub₃
            exact ih (whole₁.mono sub₃) (forall₂_tied_mono tail₁ sub₃)

theorem mirrored_toCode {name name' : Ref} (names : Tied ties name name') (home : ModuleId)
    {work work' : Compile Unit} (mirrors : Mirrored sized base ties (fun _ _ _ => True) work work') :
    Mirrors (Machine.Still sized base) (Stop.AtLimit (CompileError.isLimit sized)) ties
      (fun ties => Code.Resembles (Tied ties)) (toCode name home work) (toCode name' home work') := by
  intro ties₁ sub₁ m n still
  have both := mirrors ties₁ sub₁ ⟨m, .empty⟩ ⟨n, .empty⟩ ⟨still, Draft.resembles_empty⟩
  unfold toCode
  generalize work ⟨m, .empty⟩ = first, work' ⟨n, .empty⟩ = second at both
  cases both with
  | ok done =>
      obtain ⟨ties₂, sub₂, benches, _⟩ := done
      refine .ok ⟨ties₂, sub₂, benches.still, benches.draft.finish ?_ ?_⟩
      · exact (names.mono sub₁).mono sub₂
      · exact benches.machine.registry.cellOf home
  | error failed =>
      obtain ⟨ties₂, sub₂, benches⟩ := failed
      exact .error ⟨ties₂, sub₂, benches.still⟩
  | limit₁ reached failed =>
      obtain ⟨ties₂, sub₂, benches⟩ := failed
      exact .limit₁ reached ⟨ties₂, sub₂, benches.still⟩
  | limit₂ reached failed =>
      obtain ⟨ties₂, sub₂, benches⟩ := failed
      exact .limit₂ reached ⟨ties₂, sub₂, benches.still⟩

theorem mirrored_function {expand expand' : Expand} (expands : SameExpand sized base expand expand')
    (fuel fuel' : Nat) (home : ModuleId) {name name' params params' : Ref} {body body' : List Ref}
    (names : Tied ties name name') (parameters : Tied ties params params')
    (bodies : List.Forall₂ (Tied ties) body body') :
    Mirrors (Machine.Still sized base) (Stop.AtLimit (CompileError.isLimit sized)) ties
      (fun ties => Code.Resembles (Tied ties)) (function expand fuel home name params body)
      (function expand' fuel' home name' params' body') := by
  refine mirrored_toCode names home ?_
  refine (mirrored_listOf parameters parameters _).bind fun ties₁ sub₁ items items' all => ?_
  refine (mirrored_bindParameters (parameters.mono sub₁) all).bind fun ties₂ sub₂ _ _ _ => ?_
  have bodies₂ := forall₂_tied_mono bodies (List.Subset.trans sub₁ sub₂)
  refine (mirrored_emitBody ?_ bodies₂).bind fun _ _ _ _ _ => mirrored_emit _
  exact fun _ _ _ tied => mirrored_emitAt expands home fuel fuel' maxMacroDepth tied

theorem mirrored_toplevel {expand expand' : Expand} (expands : SameExpand sized base expand expand')
    (fuel fuel' : Nat) (home : ModuleId) {form form' : Ref} (tied : Tied ties form form') :
    Mirrors (Machine.Still sized base) (Stop.AtLimit (CompileError.isLimit sized)) ties
      (fun ties => Code.Resembles (Tied ties)) (toplevel expand fuel home form)
      (toplevel expand' fuel' home form') := by
  refine mirrored_toCode (.null ties) home ?_
  exact (mirrored_emitAt expands home fuel fuel' maxMacroDepth tied).bind fun _ _ _ _ _ =>
    mirrored_emit _

end

end Compile

end LispMachine
