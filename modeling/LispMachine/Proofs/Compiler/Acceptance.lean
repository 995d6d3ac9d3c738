import LispMachine.Proofs.Compiler.Shape
import LispMachine.Proofs.Heap.Founded
import LispMachine.Toplevel

/-!
# Which forms the compiler accepts

A form without a cycle and without macro calls is compiled if and only if it is well
formed, unless an operand is too large. Whether it is well formed is a property of
the heap alone. The compiler changes nothing, and whatever it accepts is the code of
the form, with all of its operands as they should be.
-/

namespace LispMachine

open Compile

namespace Heap

/-- The part of a form is evaluated when the form is. -/
def HasPart (h : Heap) (form part : Ref) : Prop :=
  ∃ parts, h.parts? form = some parts ∧ part ∈ parts

/-- The place is in an evaluated position of the form: it is the form itself, or an
    evaluated part of such a place. -/
abbrev Evaluates (h : Heap) : Ref → Ref → Prop := Relation.ReflTransGen h.HasPart

theorem below_of_binding? {h : Heap} {binding name value : Ref}
    (found : h.binding? binding = some (name, some value)) :
    Relation.TransGen h.HasHalf binding value := by
  unfold binding? at found
  split at found
  · cases found
  · split at found
    · split at found <;> cases found
    · next items =>
        split at found
        · cases found
          exact below_of_items? items (by simp)
        · cases found
    · cases found

theorem mem_of_mapM_binding? {h : Heap} {items : List Ref} {parsed : List (Ref × Option Ref)}
    {bound : Ref × Option Ref} (found : items.mapM h.binding? = some parsed)
    (member : bound ∈ parsed) : ∃ binding ∈ items, h.binding? binding = some bound := by
  induction items generalizing parsed with
  | nil =>
      obtain rfl : [] = parsed := by simpa using found
      cases member
  | cons item items ih =>
      rw [List.mapM_cons] at found
      obtain ⟨first, read, found⟩ := Option.bind_eq_some_iff.1 found
      obtain ⟨others, later, same⟩ := Option.bind_eq_some_iff.1 found
      cases same
      rcases List.mem_cons.1 member with rfl | member
      · exact ⟨item, by simp, read⟩
      · obtain ⟨binding, there, read⟩ := ih later member
        exact ⟨binding, List.mem_cons_of_mem _ there, read⟩

theorem below_of_bindings? {h : Heap} {list value : Ref} {parsed : List (Ref × Option Ref)}
    (found : h.bindings? list = some parsed) (member : value ∈ parsed.filterMap Prod.snd) :
    Relation.TransGen h.HasHalf list value := by
  obtain ⟨⟨name, initial⟩, bound, same⟩ := List.mem_filterMap.1 member
  obtain rfl : initial = some value := same
  unfold bindings? at found
  split at found
  · next items listed =>
      obtain ⟨binding, there, read⟩ := mem_of_mapM_binding? found bound
      exact (below_of_items? listed there).trans (below_of_binding? read)
  · cases found

/-- The evaluated parts of a form lie below it. -/
theorem HasPart.below {h : Heap} {form part : Ref} (has : h.HasPart form part) :
    Relation.TransGen h.HasHalf form part := by
  obtain ⟨parts, found, member⟩ := has
  unfold parts? at found
  split at found
  · cases found
    cases member
  · next head rest pair =>
      have second : h.HasHalf form rest := ⟨head, rest, pair, .inr rfl⟩
      have listed : ∀ {items item}, h.items? rest = some items → item ∈ items →
          Relation.TransGen h.HasHalf form item :=
        fun found member => .head second (below_of_items? found member)
      split at found
      · split at found
        · cases found
          cases member
        · cases found
      · split at found
        · next items =>
            cases found
            exact listed items member
        · next items =>
            cases found
            exact listed items member
        · cases found
      · split at found
        · next list body items =>
            obtain ⟨parsed, bound, rfl⟩ := Option.map_eq_some_iff.1 found
            rcases List.mem_append.1 member with value | inside
            · exact (listed items (List.mem_cons_self ..)).trans (below_of_bindings? bound value)
            · exact listed items (List.mem_cons_of_mem _ inside)
        · cases found
      · obtain ⟨args, items, rfl⟩ := Option.map_eq_some_iff.1 found
        split at member
        · exact listed items member
        · rcases List.mem_cons.1 member with rfl | member
          · exact .single ⟨part, rest, pair, .inl rfl⟩
          · exact listed items member

end Heap

namespace Machine

/-- The well-formed forms: all that is no pair, a quotation of one cell, a conditional of
    two or three well-formed parts, a `let` whose initial values and body are well
    formed, and every other proper list whose head is a symbol or well formed and whose
    arguments are well formed. -/
inductive IsForm (m : Machine) : Ref → Prop where
  | atom {form : Ref} : m.heap.pair? form = none → m.IsForm form
  | quotation {form rest quoted : Ref} : m.IsSpecial form rest .quote →
      m.heap.items? rest = some [quoted] → m.IsForm form
  | choice {form rest condition consequence : Ref} : m.IsSpecial form rest .if_ →
      m.heap.items? rest = some [condition, consequence] →
      m.IsForm condition → m.IsForm consequence → m.IsForm form
  | choice₃ {form rest condition consequence alternative : Ref} : m.IsSpecial form rest .if_ →
      m.heap.items? rest = some [condition, consequence, alternative] →
      m.IsForm condition → m.IsForm consequence → m.IsForm alternative → m.IsForm form
  | bind {form rest list : Ref} {body : List Ref} {parsed : List (Ref × Option Ref)} :
      m.IsSpecial form rest .let_ → m.heap.items? rest = some (list :: body) →
      m.heap.bindings? list = some parsed →
      (∀ value ∈ parsed.filterMap Prod.snd, m.IsForm value) →
      (∀ item ∈ body, m.IsForm item) → m.IsForm form
  | call {form head rest : Ref} {args : List Ref} : m.IsPlainPair form head rest →
      m.heap.items? rest = some args → (m.heap.isSymbol head = false → m.IsForm head) →
      (∀ arg ∈ args, m.IsForm arg) → m.IsForm form

theorem IsForm.parts {m : Machine} {form : Ref} (formed : m.IsForm form) :
    ∃ parts, m.heap.parts? form = some parts ∧ ∀ part ∈ parts, m.IsForm part := by
  cases formed with
  | atom other => exact ⟨[], by simp [Heap.parts?, other], by simp⟩
  | quotation special items =>
      obtain ⟨head, pair, keyword⟩ := special
      exact ⟨[], by simp [Heap.parts?, pair, keyword, items], by simp⟩
  | choice special items condition consequence =>
      obtain ⟨head, pair, keyword⟩ := special
      refine ⟨_, by simp [Heap.parts?, pair, keyword, items]; rfl, ?_⟩
      simp [condition, consequence]
  | choice₃ special items condition consequence alternative =>
      obtain ⟨head, pair, keyword⟩ := special
      refine ⟨_, by simp [Heap.parts?, pair, keyword, items]; rfl, ?_⟩
      simp [condition, consequence, alternative]
  | bind special items bound values body =>
      obtain ⟨head, pair, keyword⟩ := special
      refine ⟨_, by simp [Heap.parts?, pair, keyword, items, bound]; rfl, ?_⟩
      intro part member
      rcases List.mem_append.1 member with value | inside
      · exact values part value
      · exact body part inside
  | @call _ head rest args plain items own each =>
      refine ⟨_, by rw [parts?_of_plain plain, items]; rfl, ?_⟩
      intro part member
      split at member
      · exact each part member
      · next other =>
          rcases List.mem_cons.1 member with rfl | member
          · exact own (by simpa using other)
          · exact each part member

theorem isForm_of_parts {m : Machine} {form : Ref} {parts : List Ref}
    (found : m.heap.parts? form = some parts) (formed : ∀ part ∈ parts, m.IsForm part) :
    m.IsForm form := by
  unfold Heap.parts? at found
  split at found
  · next other => exact .atom other
  · next head rest pair =>
      split at found
      · next keyword =>
          split at found
          · next items => exact .quotation ⟨head, pair, keyword⟩ items
          · cases found
      · next keyword =>
          split at found
          · next items =>
              cases found
              exact .choice ⟨head, pair, keyword⟩ items (formed _ (by simp)) (formed _ (by simp))
          · next items =>
              cases found
              exact .choice₃ ⟨head, pair, keyword⟩ items (formed _ (by simp)) (formed _ (by simp))
                (formed _ (by simp))
          · cases found
      · next keyword =>
          split at found
          · next list body items =>
              obtain ⟨parsed, bound, rfl⟩ := Option.map_eq_some_iff.1 found
              refine .bind ⟨head, pair, keyword⟩ items bound (fun value member => ?_)
                fun item member => ?_
              · exact formed value (List.mem_append_left _ member)
              · exact formed item (List.mem_append_right _ member)
          · cases found
      · next noQuote noIf noLet =>
          obtain ⟨args, items, rfl⟩ := Option.map_eq_some_iff.1 found
          refine .call ⟨pair, noQuote, noIf, noLet⟩ items (fun other => ?_) fun arg member => ?_
          · exact formed head (by simp [other])
          · refine formed arg ?_
            split
            · exact member
            · exact List.mem_cons_of_mem _ member

/-- A form is well formed if it has the right shape and its evaluated parts are well
    formed. -/
theorem isForm_iff {m : Machine} {form : Ref} :
    m.IsForm form ↔ ∃ parts, m.heap.parts? form = some parts ∧ ∀ part ∈ parts, m.IsForm part :=
  ⟨IsForm.parts, fun ⟨_, found, formed⟩ => isForm_of_parts found formed⟩

end Machine

/-! ## What the compiler comes to -/

namespace Compile

/-- The outcomes of compiling what is `sound` if it is well formed: success, a failure
    because it is not, and an operand that one of the `evaluated` places needs and that
    is too large. The machine stays as it is. -/
inductive Settled (m : Machine) (sound : Prop) (evaluated : Ref → Prop) :
    EStateM.Result (Stop CompileError) Workbench Unit → Prop where
  | accepted {w : Workbench} : w.machine = m → sound → Settled m sound evaluated (.ok () w)
  | malformed {error : CompileError} {w : Workbench} : w.machine = m → error.isMalformed = true →
      ¬ sound → Settled m sound evaluated (.error (.failed error) w)
  | overflow {inner : Ref} {what : String} {index : Nat} {w : Workbench} : w.machine = m →
      evaluated inner → maxOperand < index → m.Needs inner w.draft what index →
      Settled m sound evaluated (.error (.failed (.operandOverflow what index)) w)

section

variable {home : ModuleId} {onMacro : MacroCall → Compile Unit} {m : Machine}

/-- An outline comes to what its parts come to. -/
theorem Outline.run_settled {emitForm : Ref → Compile Unit} {needs : Draft → String → Nat → Prop}
    {evaluated : Ref → Prop} {outline : Outline} {parts : List Ref} {w : Workbench}
    (same : w.machine = m) (serves : outline.Serves needs parts w.draft)
    (own : ∀ d what index, needs d what index → ∃ inner, evaluated inner ∧ m.Needs inner d what index)
    (inside : ∀ part ∈ parts, ∀ inner, m.heap.Evaluates part inner → evaluated inner)
    (settled : ∀ part ∈ parts, ∀ w : Workbench, w.machine = m →
      Settled m (m.IsForm part) (m.heap.Evaluates part) (emitForm part w)) :
    Settled m (∀ part ∈ parts, m.IsForm part) evaluated (outline.run emitForm onMacro w) := by
  induction outline generalizing parts w with
  | done =>
      obtain rfl : parts = [] := serves
      exact .accepted same (by simp)
  | fails error =>
      obtain ⟨what, index, rfl, large, needed⟩ := serves
      obtain ⟨inner, member, needed⟩ := own _ _ _ needed
      exact .overflow same member large needed
  | write change rest ih => exact ih (w := ⟨w.machine, change w.draft⟩) same serves inside settled
  | look next ih => exact ih w.draft same serves inside settled
  | part first rest ih =>
      obtain ⟨later, rfl, serves⟩ := serves
      rw [Outline.run_part, bind_apply]
      have here := settled first (by simp) w same
      revert here
      generalize emitForm first w = result
      intro here
      cases here with
      | accepted same' formed =>
          have all : (∀ part ∈ first :: later, m.IsForm part) ↔ ∀ part ∈ later, m.IsForm part := by
            simp [formed]
          rw [all]
          exact ih same' (serves _) (fun part member => inside part (by simp [member]))
            fun part member => settled part (by simp [member])
      | malformed same' own wrong =>
          exact .malformed same' own fun all => wrong (all first (by simp))
      | overflow same' member large needed =>
          exact .overflow same' (inside first (by simp) _ member) large needed
  | expand call => exact serves.elim

/-- A form without a cycle and without macro calls is accepted if and only if it is well
    formed. -/
theorem emitForm_settled {n fuel : Nat} {form : Ref} {w : Workbench}
    (within : Bounded m.heap.HasHalf n form) (enough : n < fuel) (same : w.machine = m)
    (noMacro : ∀ call : MacroCall, m.heap.Evaluates form call.form → ¬ m.CallsMacro home call) :
    Settled m (m.IsForm form) (m.heap.Evaluates form) (emitForm home onMacro fuel form w) := by
  induction fuel generalizing n form w with
  | zero => cases enough
  | succ fuel ih =>
      rw [emitForm_succ, same]
      rcases Outline.ofForm_cases home m form with ⟨call, rfl, calls, _⟩ | ⟨_, fits⟩
      · exact absurd calls (noMacro call .refl)
      · cases fits with
        | fails outline obstacle none_ =>
            obtain ⟨error, rfl, own⟩ := obstacle.malformed_of_within within
            rw [outline]
            refine .malformed same own fun formed => ?_
            obtain ⟨parts, found, _⟩ := formed.parts
            rw [none_] at found
            cases found
        | @serves parts found serves =>
            have sound : m.IsForm form ↔ ∀ part ∈ parts, m.IsForm part := by
              rw [Machine.isForm_iff, found]
              simp
            rw [sound]
            have has : ∀ part ∈ parts, m.heap.HasPart form part :=
              fun part member => ⟨parts, found, member⟩
            refine Outline.run_settled same (serves _)
              (fun _ _ _ needed => ⟨form, .refl, needed⟩)
              (fun part member inner way => .head (has part member) way) fun part member w same => ?_
            obtain ⟨k, less, within'⟩ := within.descend (has part member).below
            exact ih within' (by omega) same fun call way => noMacro call (.head (has part member) way)

end

end Compile

namespace Machine

end Machine

end LispMachine
