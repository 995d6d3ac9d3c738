import LispMachine.Proofs.Compiler.Emission

/-!
# Flat slots for nested blocks

The locals of a function stand in one array, from which nothing is ever taken away: a
local whose block has ended is blanked. Looking a name up there is the same as looking it
up in the blocks that are open, from the innermost outwards, and then among the parameters.
The names before a mark are what a release to it comes back to, and neither a name bound
later nor the end of an inner block changes them.
-/

namespace LispMachine

theorem Assoc.lookup_append {κ ν : Type} [DecidableEq κ] (key : κ) (front back : List (κ × ν)) :
    lookup key (front ++ back) = (lookup key front).or (lookup key back) := by
  induction front with
  | nil => rfl
  | cons entry front ih =>
      rcases entry with ⟨other, value⟩
      by_cases same : other = key
      · simp [lookup, same]
      · simp [lookup, same, ih]

namespace Scope

/-! ## Blocks -/

/-- What is asked of a scope while a function is compiled. -/
inductive Use where
  | mark
  | bind (name : Ref)
  | release

/-- Whether a name is bound. -/
def Use.isBind : Use → Bool
  | bind _ => true
  | _ => false

/-- Every release has a mark that it comes back to, when so many are left at the start. -/
def Nested : Nat → List Use → Prop
  | _, [] => True
  | marks, .mark :: uses => Nested (marks + 1) uses
  | marks, .bind _ :: uses => Nested marks uses
  | 0, .release :: _ => False
  | marks + 1, .release :: uses => Nested marks uses

/-- A scope in use: the marks to which no release has come back, the latest first, and the
    slots given to locals so far. -/
structure Course where
  scope : Scope
  marks : List Nat
  given : List Nat

namespace Course

/-- The scope of a function with these parameters, before its body. -/
def start (parameters : List Ref) (takesRest : Bool) : Course :=
  ⟨⟨parameters.toArray, takesRest, #[]⟩, [], []⟩

/-- One use; a release comes back to the latest mark. -/
def step (c : Course) : Use → Option Course
  | .mark => some { c with marks := c.scope.mark :: c.marks }
  | .bind name =>
      some { c with
        scope := (c.scope.bindLocal name).2
        given := c.given ++ [(c.scope.bindLocal name).1] }
  | .release =>
      match c.marks with
      | [] => none
      | mark :: marks => some { c with scope := c.scope.release mark, marks := marks }

/-- One use after the other. -/
def run (c : Course) (uses : List Use) : Option Course := uses.foldlM step c

end Course

/-- Nested blocks: the names bound in the innermost one, the latest first, those bound in
    the blocks around it, from the inside to the outside, and the number of names bound in
    all, ended blocks included. Each name has its slot. -/
structure Blocks where
  parameters : List Ref
  names : List (Ref × Nat)
  around : List (List (Ref × Nat))
  count : Nat

namespace Blocks

/-- The outermost block of a function with these parameters. -/
def start (parameters : List Ref) : Blocks := ⟨parameters, [], [], 0⟩

/-- One use: a mark opens a block, and a release ends the innermost one. -/
def step (b : Blocks) : Use → Option Blocks
  | .mark => some { b with names := [], around := b.names :: b.around }
  | .bind name =>
      some { b with
        names := (name, b.parameters.length + b.count) :: b.names
        count := b.count + 1 }
  | .release =>
      match b.around with
      | [] => none
      | names :: around => some { b with names := names, around := around }

/-- One use after the other. -/
def run (b : Blocks) (uses : List Use) : Option Blocks := uses.foldlM step b

/-- The slot of a name: that of the latest binding in the innermost open block that has
    one, and otherwise the position of the first parameter of that name. -/
def lookup (b : Blocks) (name : Ref) : Option Nat :=
  (Assoc.lookup name (b.names ++ b.around.flatten)).or
    (b.parameters.findIdx? fun parameter => parameter = name)

end Blocks

/-! ## Names before a mark -/

/-- The names in force among the first so many locals, and the parameters. -/
def namesBefore (s : Scope) (mark : Nat) : List (Ref × Nat) :=
  namesFrom s.arguments.size (s.locals.toList.take mark) s.arguments.toList.zipIdx

section

variable (s : Scope) (name : Ref)

theorem namesBefore_mark : s.namesBefore s.mark = s.names := by
  rw [namesBefore, names, mark, List.take_of_length_le (by simp)]

theorem names_bindLocal : (s.bindLocal name).2.names = (name, s.slots) :: s.names := by
  simp [names, bindLocal, namesFrom_append, namesFrom, slots]

theorem namesBefore_bindLocal {mark : Nat} (le : mark ≤ s.mark) :
    (s.bindLocal name).2.namesBefore mark = s.namesBefore mark := by
  have inside : mark ≤ s.locals.toList.length := by simpa [Scope.mark] using le
  simp only [namesBefore, bindLocal, Array.toList_push, List.take_append_of_le_length inside]

theorem toList_release {mark : Nat} (le : mark ≤ s.mark) :
    (s.release mark).locals.toList =
      s.locals.toList.take mark ++ List.replicate (s.mark - mark) none := by
  have split : s.locals =
      (s.locals.toList.take mark).toArray ++ (s.locals.toList.drop mark).toArray := by
    rw [List.append_toArray, List.take_append_drop]
  have ended := s.release_append _ _ split
  have size : (s.locals.toList.take mark).toArray.size = mark := by
    rw [List.size_toArray, List.length_take, Array.length_toList]
    exact Nat.min_eq_left le
  rw [size] at ended
  rw [ended]
  simp [Scope.mark]

theorem namesBefore_release {mark mark' : Nat} (le : mark ≤ s.mark) (le' : mark' ≤ mark) :
    (s.release mark).namesBefore mark' = s.namesBefore mark' := by
  have inside : mark' ≤ (s.locals.toList.take mark).length := by
    rw [List.length_take, Array.length_toList]
    exact Nat.le_min.2 ⟨le', Nat.le_trans le' le⟩
  rw [namesBefore, toList_release s le, List.take_append_of_le_length inside, List.take_take,
    Nat.min_eq_left le']
  rfl

/-- A release comes back to the names that were in force at its mark. -/
theorem names_release {mark : Nat} (le : mark ≤ s.mark) :
    (s.release mark).names = s.namesBefore mark := by
  rw [names, toList_release s le, namesFrom_append, namesFrom_blank]
  rfl

end

/-- Each mark, the latest first, is one at which these blocks were in force. No mark lies
    beyond the one after it, and the latest not beyond the bound. -/
inductive Marked (s : Scope) (parameters : List Ref) :
    Nat → List Nat → List (List (Ref × Nat)) → Prop where
  | nil {bound : Nat} : Marked s parameters bound [] []
  | cons {bound mark : Nat} {marks : List Nat} {block : List (Ref × Nat)}
      {around : List (List (Ref × Nat))} : mark ≤ bound →
      s.namesBefore mark = block ++ around.flatten ++ parameters.zipIdx →
      Marked s parameters mark marks around →
      Marked s parameters bound (mark :: marks) (block :: around)

section

variable {s s' : Scope} {parameters : List Ref} {bound bound' : Nat} {marks : List Nat}
  {around : List (List (Ref × Nat))}

theorem Marked.mono (marked : Marked s parameters bound marks around) (le : bound ≤ bound') :
    Marked s parameters bound' marks around := by
  cases marked with
  | nil => exact .nil
  | cons within same rest => exact .cons (Nat.le_trans within le) same rest

theorem Marked.congr (marked : Marked s parameters bound marks around)
    (same : ∀ mark ≤ bound, s'.namesBefore mark = s.namesBefore mark) :
    Marked s' parameters bound marks around := by
  induction marked with
  | nil => exact .nil
  | cons within here _ ih =>
      refine .cons within ((same _ within).trans here) (ih fun mark below => ?_)
      exact same mark (Nat.le_trans below within)

end

/-! ## Scope and blocks side by side -/

/-- The scope has the names of the blocks in force, and after each release it will have
    those of the blocks that are left. -/
structure Course.Follows (c : Course) (b : Blocks) : Prop where
  arguments : c.scope.arguments = b.parameters.toArray
  count : c.scope.mark = b.count
  names : c.scope.names = b.names ++ b.around.flatten ++ b.parameters.zipIdx
  marked : Marked c.scope b.parameters c.scope.mark c.marks b.around
  given : c.given = List.range' b.parameters.length b.count

namespace Course.Follows

variable {c : Course} {b : Blocks}

theorem start (parameters : List Ref) (takesRest : Bool) :
    (Course.start parameters takesRest).Follows (.start parameters) :=
  ⟨rfl, rfl, rfl, .nil, rfl⟩

theorem slots (follows : c.Follows b) : c.scope.slots = b.parameters.length + b.count := by
  rw [Scope.slots, follows.arguments, ← follows.count]
  rfl

theorem lookup (follows : c.Follows b) (name : Ref) : c.scope.resolve name = b.lookup name := by
  rw [resolve_eq, follows.names, Assoc.lookup_append, lookup_zipIdx, Blocks.lookup]
  simp

/-- A mark opens a block, to whose end a release will come back. -/
theorem mark (follows : c.Follows b) :
    Course.Follows { c with marks := c.scope.mark :: c.marks }
      { b with names := [], around := b.names :: b.around } where
  arguments := follows.arguments
  count := follows.count
  names := follows.names
  marked := by
    apply Marked.cons (Nat.le_refl _) _ follows.marked
    rw [namesBefore_mark]
    exact follows.names
  given := follows.given

/-- A new local has the next slot, and leaves the names before each mark alone. -/
theorem bind (follows : c.Follows b) (name : Ref) :
    Course.Follows
      { c with
        scope := (c.scope.bindLocal name).2
        given := c.given ++ [(c.scope.bindLocal name).1] }
      { b with
        names := (name, b.parameters.length + b.count) :: b.names
        count := b.count + 1 } where
  arguments := follows.arguments
  count := by
    rw [← follows.count]
    exact Array.size_push _
  names := by
    show (c.scope.bindLocal name).2.names = _
    rw [names_bindLocal, follows.names, follows.slots]
    rfl
  marked := by
    have kept := follows.marked.congr fun mark below => namesBefore_bindLocal c.scope name below
    apply kept.mono
    show c.scope.mark ≤ (c.scope.locals.push (some name)).size
    rw [Array.size_push]
    exact Nat.le_succ _
  given := by
    show c.given ++ [c.scope.slots] = _
    rw [follows.given, follows.slots, List.range'_concat, Nat.one_mul]

/-- A release ends the innermost block, and the blocks around it are as they were. -/
theorem release {mark : Nat} {marks : List Nat} {block : List (Ref × Nat)}
    {around : List (List (Ref × Nat))} (follows : c.Follows b) (latest : c.marks = mark :: marks)
    (inner : b.around = block :: around) :
    Course.Follows { c with scope := c.scope.release mark, marks := marks }
      { b with names := block, around := around } := by
  have marked := follows.marked
  rw [latest, inner] at marked
  cases marked with
  | cons within here rest =>
      have size : (c.scope.release mark).mark = c.scope.mark := Array.size_mapIdx
      refine ⟨follows.arguments, size.trans follows.count, ?_, ?_, follows.given⟩
      · show (c.scope.release mark).names = _
        rw [names_release c.scope within]
        exact here
      · show Marked _ _ (c.scope.release mark).mark _ _
        have kept := rest.congr fun mark' below => namesBefore_release c.scope within below
        rw [size]
        exact kept.mono within

/-- One use is carried out on both sides, except for a release without a mark. -/
theorem step (follows : c.Follows b) {use : Use} {uses : List Use}
    (nested : Nested c.marks.length (use :: uses)) :
    ∃ c' b', c.step use = some c' ∧ b.step use = some b' ∧ c'.Follows b' ∧
      Nested c'.marks.length uses ∧ b'.parameters = b.parameters ∧
      b'.count = b.count + [use].countP Use.isBind := by
  cases use with
  | mark => exact ⟨_, _, rfl, rfl, follows.mark, nested, rfl, rfl⟩
  | bind name => exact ⟨_, _, rfl, rfl, follows.bind name, nested, rfl, rfl⟩
  | release =>
      have marked := follows.marked
      cases latest : c.marks with
      | nil =>
          rw [latest] at nested
          exact nested.elim
      | cons mark marks =>
          rw [latest] at marked nested
          cases inner : b.around with
          | nil =>
              rw [inner] at marked
              cases marked
          | cons block around =>
              refine ⟨_, _, ?_, ?_, follows.release latest inner, nested, rfl, rfl⟩
              · simp only [Course.step, latest]
              · simp only [Blocks.step, inner]

/-- Nested uses can all be carried out, one after the other. -/
theorem run (follows : c.Follows b) {uses : List Use} (nested : Nested c.marks.length uses) :
    ∃ c' b', c.run uses = some c' ∧ b.run uses = some b' ∧ c'.Follows b' ∧
      b'.parameters = b.parameters ∧ b'.count = b.count + uses.countP Use.isBind := by
  induction uses generalizing c b with
  | nil => exact ⟨c, b, rfl, rfl, follows, rfl, rfl⟩
  | cons use uses ih =>
      obtain ⟨c₁, b₁, stepped, stepped', follows₁, nested₁, same, count⟩ := follows.step nested
      obtain ⟨c₂, b₂, rest, rest', follows₂, same', count'⟩ := ih follows₁ nested₁
      refine ⟨c₂, b₂, ?_, ?_, follows₂, same'.trans same, ?_⟩
      · rw [Course.run, List.foldlM_cons, stepped]
        exact rest
      · rw [Blocks.run, List.foldlM_cons, stepped']
        exact rest'
      · rw [count', count, Nat.add_assoc, ← List.countP_append, List.singleton_append]

end Course.Follows

end Scope

/-! ## Lexical scope -/

theorem toList_prefix {α : Type} {a b : Array α} (kept : ∀ i, i < a.size → b[i]? = a[i]?) :
    a.toList <+: b.toList := by
  rw [List.prefix_iff_getElem?]
  intro i inside
  rw [Array.length_toList] at inside
  rw [Array.getElem?_toList, kept i inside, Array.getElem_toList, Array.getElem?_eq_getElem inside]

namespace Draft.Extends

variable {d d' : Draft}

theorem resolve (more : d.Extends d') (name : Ref) :
    d'.scope.resolve name = d.scope.resolve name := by
  rw [Scope.resolve_eq, Scope.resolve_eq, more.names]

theorem words_prefix (more : d.Extends d') : d.words.toList <+: d'.words.toList :=
  toList_prefix more.words

theorem constants_prefix (more : d.Extends d') :
    d.constants.toList <+: d'.constants.toList := by
  apply toList_prefix
  intro i inside
  have found := Array.getElem?_eq_getElem inside
  rw [found]
  exact more.constants i _ found

end Draft.Extends

namespace Scope

/-- The slots of a function implement lexical scope. After any nested blocks, a name has the
    slot of the latest binding in the innermost open block that has one, and otherwise that
    of the first parameter of that name. The slots given out start after the parameters and
    increase by one each time, so none is given out twice, and all stay in use. A form that
    is compiled leaves the slot of every name as it was, keeps the words and constants
    written before, and never takes a slot away. -/
theorem flat_slots_implement_lexical_scope :
    (∀ (parameters : List Ref) (takesRest : Bool) (uses : List Use), Nested 0 uses →
      ∃ course blocks, (Course.start parameters takesRest).run uses = some course ∧
        (Blocks.start parameters).run uses = some blocks ∧
        (∀ name, course.scope.resolve name = blocks.lookup name) ∧
        course.given = List.range' parameters.length (uses.countP Use.isBind) ∧
        course.given.Pairwise (· < ·) ∧
        course.scope.slots = parameters.length + uses.countP Use.isBind) ∧
    ∀ (home : ModuleId) (expand : Expand) (fuel levels : Nat) (form : Ref) (w w' : Workbench),
      Compile.emitAt home expand fuel levels form w = .ok () w' →
        (∀ name, w'.draft.scope.resolve name = w.draft.scope.resolve name) ∧
        w.draft.words.toList <+: w'.draft.words.toList ∧
        w.draft.constants.toList <+: w'.draft.constants.toList ∧
        w.draft.scope.slots ≤ w'.draft.scope.slots := by
  constructor
  · intro parameters takesRest uses nested
    obtain ⟨course, blocks, ran, ran', follows, same, count⟩ :=
      (Course.Follows.start parameters takesRest).run nested
    have count : blocks.count = uses.countP Use.isBind := count.trans (Nat.zero_add _)
    have same : blocks.parameters = parameters := same
    have given := follows.given
    have slots := follows.slots
    rw [same, count] at given slots
    refine ⟨course, blocks, ran, ran', follows.lookup, given, ?_, slots⟩
    rw [given]
    exact List.pairwise_lt_range'
  · intro home expand fuel levels form w w' done
    obtain ⟨_, _, written⟩ := Compile.emitAt_emits fuel levels form w w' done
    exact ⟨written.more.resolve, written.more.words_prefix, written.more.constants_prefix,
      written.more.slots⟩

/-- A machine whose heap holds `(let ((x x)) x)`, and a draft with the parameter `x`, a constant
    and a word. -/
def shadowWorkbench : Workbench :=
  ⟨{ Machine.blank default none with
      store := ⟨{ Heap.ofArenaSize 1 with
        cells := (([.scalar (.symbol "let"), .scalar (.symbol "x"), .pair ⟨2⟩ .null,
          .pair ⟨2⟩ ⟨3⟩, .pair ⟨4⟩ .null, .pair ⟨5⟩ ⟨3⟩, .pair ⟨1⟩ ⟨6⟩] :
          List Cell).map fun cell => ⟨cell, false⟩).toArray }, []⟩ },
    ⟨⟨#[⟨2⟩], false, #[]⟩, #[⟨1⟩], #[0]⟩⟩

/-- The parameters `x`, `y` and `x`; `y` is bound in one block, `x` twice in a block inside it,
    and `z` when that has ended. Of the form, the inner `x` is gone when it is compiled. -/
theorem flat_slots_implement_lexical_scope_shadow :
    (∃ course, (Course.start [⟨1⟩, ⟨2⟩, ⟨1⟩] true).run
        [.mark, .bind ⟨2⟩, .mark, .bind ⟨1⟩, .bind ⟨1⟩, .release, .bind ⟨3⟩] = some course ∧
      course.given = [3, 4, 5, 6] ∧
      [⟨1⟩, ⟨2⟩, ⟨3⟩, ⟨4⟩].map course.scope.resolve = [some 0, some 3, some 6, none]) ∧
    ∃ w', Compile.emitAt 0 (fun _ _ m => .error .outOfFuel m) 9 9 ⟨7⟩ shadowWorkbench = .ok () w' ∧
      w'.draft.scope.resolve ⟨2⟩ = some 0 ∧ w'.draft.scope.slots = 2 ∧
      [0] <+: w'.draft.words.toList := by
  obtain ⟨lexical, compiled⟩ := flat_slots_implement_lexical_scope
  constructor
  · obtain ⟨course, blocks, ran, ran', names, given, -, -⟩ := lexical [⟨1⟩, ⟨2⟩, ⟨1⟩] true
      [.mark, .bind ⟨2⟩, .mark, .bind ⟨1⟩, .bind ⟨1⟩, .release, .bind ⟨3⟩]
      (by simp [Nested])
    refine ⟨course, ran, given, ?_⟩
    rw [funext names]
    cases ran'
    rfl
  · obtain ⟨w', done, count⟩ : ∃ w', Compile.emitAt 0 (fun _ _ m => .error .outOfFuel m) 9 9 ⟨7⟩
        shadowWorkbench = .ok () w' ∧ w'.draft.scope.slots = 2 := by
      refine ⟨_, by with_unfolding_all rfl, by with_unfolding_all rfl⟩
    obtain ⟨names, words, -, -⟩ := compiled 0 _ 9 9 ⟨7⟩ shadowWorkbench w' done
    have before : shadowWorkbench.draft.scope.resolve ⟨2⟩ = some 0 := by cbv
    exact ⟨w', done, (names ⟨2⟩).trans before, count, words⟩

end Scope

end LispMachine
