import LispMachine.Proofs.Twins.Session

/-!
# Machines whose handles are sound

A machine is intact when all that it holds is the empty list or a cell in use. Such a
machine is its own twin, and a machine that has a twin is intact. So what goes together
up to ties keeps machines intact: each computation mirrors itself.
-/

namespace LispMachine

/-! ## Heaps -/

namespace Heap

/-- Every cell in use, tied to itself. -/
def selfTies (h : Heap) : Ties :=
  ((List.range h.cells.size).map fun slot => (Ref.ofSlot slot, Ref.ofSlot slot)).filter fun p =>
    match h.cell? p.1 with
    | some cell => !cell.isFree
    | none => false

theorem mem_selfTies {h : Heap} {a b : Ref} : (a, b) ∈ h.selfTies ↔ a = b ∧ h.Live a := by
  simp only [selfTies, List.mem_filter, List.mem_map, List.mem_range, Prod.mk.injEq]
  constructor
  · rintro ⟨⟨slot, _, rfl, rfl⟩, kept⟩
    refine ⟨rfl, ?_⟩
    cases found : h.cell? (.ofSlot slot) with
    | none => simp [found] at kept
    | some cell =>
        rw [found] at kept
        exact ⟨cell, found, by simpa using kept⟩
  · rintro ⟨rfl, cell, found, used⟩
    refine ⟨?_, by simp [found, used]⟩
    rcases a.null_or_ofSlot with rfl | ⟨slot, rfl⟩
    · cases found
    · refine ⟨slot, ?_, rfl, rfl⟩
      rw [← not_le]
      intro beyond
      simp [Array.getElem?_eq_none beyond] at found

theorem Held.tied {h : Heap} {r : Ref} (held : h.Held r) : Tied h.selfTies r r :=
  held.imp (fun null => ⟨null, null⟩) fun live => mem_selfTies.2 ⟨rfl, live⟩

end Heap

theorem Code.resembles_self {related : Ref → Ref → Prop} {code : Code}
    (all : ∀ r ∈ code.children, related r r) : code.Resembles related code where
  name := all _ List.mem_cons_self
  params := rfl
  takesRest := rfl
  slots := rfl
  constants := List.forall₂_same.2 fun r member => all r (by simp [children, Array.mem_toList_iff.1 member])
  words := rfl
  home := all _ (by simp [children])

theorem Cell.resembles_self {related : Ref → Ref → Prop} {cell : Cell} (used : cell.isFree = false)
    (plain : ∀ probe, cell ≠ .scalar (.native (.probe probe)))
    (all : ∀ r ∈ cell.children, related r r) : cell.Resembles related cell := by
  cases cell with
  | free next => cases used
  | pair car cdr => exact .pair (all car (by simp [children])) (all cdr (by simp [children]))
  | scalar s =>
      cases s with
      | integer value => exact .scalar (.integer value)
      | symbol name => exact .scalar (.symbol name)
      | native native =>
          cases native with
          | builtin builtin => exact .scalar (.builtin builtin)
          | probe probe => exact absurd rfl (plain probe)
      | function code => exact .scalar (.function (Code.resembles_self all))
      | expander code => exact .scalar (.expander (Code.resembles_self all))
      | moduleCell id => exact .scalar (.moduleCell id)

namespace Heap

/-- A tidy heap is its own twin. -/
theorem Tidy.twins {h : Heap} (tidy : h.Tidy) : h.Twins h.selfTies h where
  tidy₁ := tidy
  tidy₂ := tidy
  paired :=
    { found := by
        intro a b member
        obtain ⟨rfl, cell, found, used⟩ := mem_selfTies.1 member
        refine ⟨cell, cell, found, found, Cell.resembles_self used ?_ ?_⟩
        · rintro probe rfl
          exact tidy.plain a probe (scalar?_eq_some.2 found)
        · exact fun r inside => (tidy.closed a cell found r inside).tied
      eq_iff := by
        intro a b a' b' member member'
        rw [(mem_selfTies.1 member).1, (mem_selfTies.1 member').1] }

end Heap

/-! ## Machines -/

/-- All that the machine holds is the empty list or a cell in use, in a tidy heap; the true
    value is a symbol of the table, and modules are found by their names. -/
structure Machine.Intact (m : Machine) : Prop where
  tidy : m.heap.Tidy
  held : ∀ r ∈ m.roots, m.heap.Held r
  truth : m.truth = .null ∨ m.truth ∈ m.store.roots
  named : ∀ p ∈ m.registry.byName, p.1 ∈ m.registry.modules.toList.map Module.name

theorem Frame.resembles_self {related : Ref → Ref → Prop} {frame : Frame}
    (all : ∀ r ∈ frame.roots, related r r) : frame.Resembles related frame where
  stack := List.forall₂_same.2 fun r member => all r (by simp [roots, member])
  locals := List.forall₂_same.2 fun r member =>
    all r (by simp [roots, Array.mem_toList_iff.1 member])
  activity := by
    cases doing : frame.activity with
    | running code pc =>
        refine .running pc (Code.resembles_self fun r member => all r ?_)
        simp [roots, codeRoots, doing, member]
    | native name => exact .native name
    | waiting => exact .waiting
  home := rfl

/-! ### Roots -/

theorem Frame.Resembles.flip {related : Ref → Ref → Prop} {f g : Frame}
    (same : f.Resembles related g) : g.Resembles (flip related) f where
  stack := .flip same.stack
  locals := .flip same.locals
  activity := by
    have doing := same.activity
    generalize f.activity = first, g.activity = second at doing
    cases doing with
    | running pc code => exact .running pc code.flip
    | native name => exact .native name
    | waiting => exact .waiting
  home := same.home.symm

theorem Module.Resembles.flip {related : Ref → Ref → Prop} {m n : Module}
    (same : m.Resembles related n) : n.Resembles (flip related) m :=
  ⟨same.name, same.cell, .flip same.values, .flip same.functions⟩

theorem Registry.Resembles.flip {related : Ref → Ref → Prop} {r s : Registry}
    (same : r.Resembles related s) : s.Resembles (flip related) r where
  modules := .flip (same.modules.imp fun _ _ both => both.flip)
  byName := .flip (same.byName.imp fun _ _ both => ⟨both.1, both.2.symm⟩)
  named₁ := same.named₂
  named₂ := same.named₁

/-- Each root of a frame is related to another. -/
theorem Frame.Resembles.root {related : Ref → Ref → Prop} {f g : Frame} (same : f.Resembles related g)
    {a : Ref} (member : a ∈ f.roots) : ∃ b, related a b := by
  simp only [Frame.roots, List.mem_append] at member
  rcases member with (inside | inside) | inside
  · obtain ⟨b, _, tied⟩ := forall₂_mem_left same.stack inside
    exact ⟨b, tied⟩
  · obtain ⟨b, _, tied⟩ := forall₂_mem_left same.locals inside
    exact ⟨b, tied⟩
  · have doing := same.activity
    unfold Frame.codeRoots at inside
    generalize f.activity = first, g.activity = second at doing inside
    cases doing with
    | running pc code => exact code.child inside
    | native name => cases inside
    | waiting => cases inside

theorem Module.Resembles.root {related : Ref → Ref → Prop} {m n : Module}
    (same : m.Resembles related n) {a : Ref} (member : a ∈ m.roots) : ∃ b, related a b := by
  have bound : ∀ {first second : List (Ref × Ref)},
      List.Forall₂ (fun p q => related p.1 q.1 ∧ related p.2 q.2) first second →
      a ∈ bindingRoots first → ∃ b, related a b := by
    intro first second all inside
    obtain ⟨p, found, which⟩ := List.mem_flatMap.1 inside
    obtain ⟨q, _, keys, values⟩ := forall₂_mem_left all found
    simp only [List.mem_cons, List.not_mem_nil, or_false] at which
    rcases which with rfl | rfl
    · exact ⟨_, keys⟩
    · exact ⟨_, values⟩
  simp only [Module.roots, List.mem_cons, List.mem_append] at member
  rcases member with rfl | rfl | inside | inside
  · exact ⟨_, same.name⟩
  · exact ⟨_, same.cell⟩
  · exact bound same.values inside
  · exact bound same.functions inside

theorem Registry.Resembles.root {related : Ref → Ref → Prop} {r s : Registry}
    (same : r.Resembles related s) {a : Ref} (member : a ∈ r.roots) : ∃ b, related a b := by
  obtain ⟨m, inside, found⟩ := List.mem_flatMap.1 member
  obtain ⟨n, _, both⟩ := forall₂_mem_left same.modules inside
  exact both.root found

theorem Module.mem_bindingRoots {bindings : List (Ref × Ref)} {p : Ref × Ref} (member : p ∈ bindings) :
    p.1 ∈ bindingRoots bindings ∧ p.2 ∈ bindingRoots bindings :=
  ⟨List.mem_flatMap.2 ⟨p, member, by simp⟩, List.mem_flatMap.2 ⟨p, member, by simp⟩⟩

theorem Registry.resembles_self {related : Ref → Ref → Prop} {r : Registry}
    (all : ∀ a ∈ r.roots, related a a)
    (named : ∀ p ∈ r.byName, p.1 ∈ r.modules.toList.map Module.name) : r.Resembles related r where
  modules := by
    refine List.forall₂_same.2 fun m member => ?_
    have inside : ∀ a ∈ m.roots, related a a := fun a found =>
      all a (List.mem_flatMap.2 ⟨m, member, found⟩)
    refine ⟨inside _ (by simp [Module.roots]), inside _ (by simp [Module.roots]), ?_, ?_⟩
    · refine List.forall₂_same.2 fun p bound => ⟨inside _ ?_, inside _ ?_⟩ <;>
        simp [Module.roots, Module.mem_bindingRoots bound]
    · refine List.forall₂_same.2 fun p bound => ⟨inside _ ?_, inside _ ?_⟩ <;>
        simp [Module.roots, Module.mem_bindingRoots bound]
  byName := List.forall₂_same.2 fun p member => ⟨all _ (mem_roots (named p member)), rfl⟩
  named₁ := named
  named₂ := named

namespace Machine

section

variable {sized : Bool} {ties : Ties} {m n : Machine}

/-- Each root of a machine is tied to another. -/
theorem Twins.root (twins : m.Twins sized ties n) {r : Ref} (member : r ∈ m.roots) :
    ∃ b, Tied ties r b := by
  simp only [Machine.roots, frames, List.mem_append, List.mem_flatMap, List.mem_singleton] at member
  rcases member with (⟨frame, inside | rfl, member⟩ | member) | member
  · obtain ⟨_, _, same⟩ := forall₂_mem_left twins.callers inside
    exact same.root member
  · exact twins.top.root member
  · obtain ⟨p, inside, rfl⟩ := List.mem_map.1 member
    obtain ⟨_, _, _, tied⟩ := forall₂_mem_left twins.store.symbols inside
    exact ⟨_, tied⟩
  · exact twins.registry.root member

theorem Twins.root₂ (twins : m.Twins sized ties n) {r : Ref} (member : r ∈ n.roots) :
    ∃ a, Tied ties a r := by
  simp only [Machine.roots, frames, List.mem_append, List.mem_flatMap, List.mem_singleton] at member
  rcases member with (⟨frame, inside | rfl, member⟩ | member) | member
  · obtain ⟨_, _, same⟩ := forall₂_mem_left twins.callers.flip inside
    exact same.flip.root member
  · exact twins.top.flip.root member
  · obtain ⟨p, inside, rfl⟩ := List.mem_map.1 member
    obtain ⟨_, _, _, tied⟩ := forall₂_mem_left twins.store.symbols.flip inside
    exact ⟨_, tied⟩
  · exact twins.registry.flip.root member

/-- An intact machine is its own twin. -/
theorem Intact.twins (intact : m.Intact) : m.Twins true m.heap.selfTies m where
  store :=
    { heap := intact.tidy.twins
      symbols := List.forall₂_same.2 fun p member =>
        ⟨rfl, (intact.held _ (mem_symbol_roots (List.mem_map_of_mem member))).tied⟩
      kept₁ := intact.truth
      kept₂ := intact.truth }
  registry := Registry.resembles_self
    (fun r member => (intact.held r (mem_module_roots member)).tied) intact.named
  top := Frame.resembles_self fun r member =>
    (intact.held r (mem_frame_roots (by simp [frames]) member)).tied
  callers := List.forall₂_same.2 fun frame inside => Frame.resembles_self fun r member =>
    (intact.held r (mem_frame_roots (List.mem_append_left _ inside) member)).tied
  user := rfl
  truth := by
    rcases intact.truth with null | member
    · exact Or.inl ⟨null, null⟩
    · exact (intact.held _ (mem_symbol_roots member)).tied
  output := rfl
  maxFrames := fun _ => rfl

/-- A machine that has a twin is intact. -/
theorem Twins.intact (twins : m.Twins sized ties n) : m.Intact where
  tidy := twins.heap.tidy₁
  held := by
    intro r member
    obtain ⟨_, tied⟩ := twins.root member
    exact (twins.heap.paired.held tied).1
  truth := twins.store.kept₁
  named := twins.registry.named₁

theorem Twins.intact₂ (twins : m.Twins sized ties n) : n.Intact where
  tidy := twins.heap.tidy₂
  held := by
    intro r member
    obtain ⟨_, tied⟩ := twins.root₂ member
    exact (twins.heap.paired.held tied).2
  truth := twins.store.kept₂
  named := twins.registry.named₂

/-- A frame that holds nothing else than the empty list and cells in use may be put in
    place of the current one, or on top of it. -/
theorem Intact.withTop (intact : m.Intact) {frame : Frame}
    (held : ∀ r ∈ frame.roots, m.heap.Held r) : (m.withTop frame).Intact :=
  (intact.twins.withTop (Frame.resembles_self fun r member => (held r member).tied)).intact

theorem Intact.withFrame (intact : m.Intact) {frame : Frame}
    (held : ∀ r ∈ frame.roots, m.heap.Held r) : (m.withFrame frame).Intact :=
  (intact.twins.withFrame (Frame.resembles_self fun r member => (held r member).tied)).intact

theorem Twins.held (twins : m.Twins sized ties n) {a b : Ref} (tied : Tied ties a b) :
    m.heap.Held a := (twins.heap.paired.held tied).1

/-- What mirrors itself keeps machines intact and leaves their frames as they were, whether
    it fails or not. -/
theorem Intact.after {ε α : Type} {limit : ε → Prop} {result : Ties → α → α → Prop}
    {x : EStateM ε Machine α} (intact : m.Intact)
    (mirrors : Mirrors (Still true (m, m)) limit m.heap.selfTies result x x) :
    (after (x m)).Intact ∧ m.SameFrames (LispMachine.after (x m)) := by
  have both := mirrors _ (List.Subset.refl _) m m ⟨intact.twins, .refl m, .refl m⟩
  generalize x m = r at both
  cases both with
  | ok done =>
      obtain ⟨_, _, still, _⟩ := done
      exact ⟨still.twins.intact, still.frames₁⟩
  | error failed =>
      obtain ⟨_, _, still⟩ := failed
      exact ⟨still.twins.intact, still.frames₁⟩
  | limit₁ _ failed =>
      obtain ⟨_, _, still⟩ := failed
      exact ⟨still.twins.intact, still.frames₁⟩
  | limit₂ _ failed =>
      obtain ⟨_, _, still⟩ := failed
      exact ⟨still.twins.intact₂, still.frames₂⟩

end

end Machine

end LispMachine
