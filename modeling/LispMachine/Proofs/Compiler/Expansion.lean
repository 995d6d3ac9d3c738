import LispMachine.Proofs.Compiler.Emission
import LispMachine.Proofs.Machine.Growth

/-!
# What expansion changes

Macros run while a form is compiled. They only add to the machine, so the names in
the expanded tree are symbols of the machine at the end.
-/

namespace LispMachine

open Machine

/-- Running a macro only adds to the machine. -/
def Expand.Steady (expand : Expand) : Prop :=
  ∀ (code : Code) (args : List Ref) (m m' : Machine) (expansion : Ref), m.Ready →
    expand code args m = .ok expansion m' → m.Grows m'

theorem expandWith_steady (host : Host) (fuel : Nat) : Expand.Steady (expandWith host fuel) := by
  intro code args m m' expansion ready done
  have grows := expandWith_grows host fuel code args ready
  rw [done] at grows
  exact grows

/-- Every name that the form looks up is a symbol of the machine. -/
def Form.KnownTo (form : Form) (m : Machine) : Prop :=
  form.Named fun symbol => m.heap.isSymbol symbol = true

theorem Form.KnownTo.later {form : Form} {m m' : Machine} (known : form.KnownTo m)
    (ready : m.Ready) (grows : m.Grows m') : form.KnownTo m' :=
  known.mono fun _ symbol => (grows.keeps ready).isSymbol symbol

section

variable {home : ModuleId} {expand : Expand}

mutual

/-- Expansion only adds to the machine, and the names of the tree are symbols. -/
theorem Expands.known (steady : expand.Steady) :
    ∀ {m m' : Machine} {form : Ref} {tree : Form}, Expands home expand m form tree m' →
      m.Ready → m.Grows m' ∧ tree.KnownTo m'
  | m, _, _, _, .null _, _ => ⟨.refl m, trivial⟩
  | m, _, _, _, .quote _ _, _ => ⟨.refl m, trivial⟩
  | _, _, _, _, .choose _ _ first second third, ready => by
      obtain ⟨grows₁, known₁⟩ := first.known steady ready
      obtain ⟨grows₂, known₂⟩ := second.known steady (grows₁.ready ready)
      have ready₂ := grows₂.ready (grows₁.ready ready)
      obtain ⟨grows₃, known₃⟩ := third.known steady ready₂
      refine ⟨(grows₁.trans grows₂).trans grows₃, ?_, known₂.later ready₂ grows₃, known₃⟩
      exact known₁.later (grows₁.ready ready) (grows₂.trans grows₃)
  | _, _, _, _, .chooseOrNull _ _ first second, ready => by
      obtain ⟨grows₁, known₁⟩ := first.known steady ready
      obtain ⟨grows₂, known₂⟩ := second.known steady (grows₁.ready ready)
      exact ⟨grows₁.trans grows₂, known₁.later (grows₁.ready ready) grows₂, known₂, trivial⟩
  | _, _, _, _, .bind _ _ _ _ values body, ready => by
      obtain ⟨grows₁, known₁⟩ := values.known steady ready
      obtain ⟨grows₂, known₂⟩ := body.known steady (grows₁.ready ready)
      refine ⟨grows₁.trans grows₂, known₁.mono fun _ symbol => ?_, known₂⟩
      exact (grows₂.keeps (grows₁.ready ready)).isSymbol symbol
  | _, _, _, _, .expansion journal _ _ _ ran rest, ready => by
      have grows₁ := (steady _ _ _ _ _ ready ran).of_bare rfl
        (show _ = (withJournal _ journal).bare from rfl)
      obtain ⟨grows₂, known⟩ := rest.known steady (grows₁.ready ready)
      exact ⟨grows₁.trans grows₂, known⟩
  | _, _, _, _, .callNamed _ _ _ symbol args, ready => by
      obtain ⟨grows, known⟩ := args.known steady ready
      exact ⟨grows, (grows.keeps ready).isSymbol symbol, known⟩
  | _, _, _, _, .callValue _ _ _ _ callee args, ready => by
      obtain ⟨grows₁, known₁⟩ := callee.known steady ready
      obtain ⟨grows₂, known₂⟩ := args.known steady (grows₁.ready ready)
      exact ⟨grows₁.trans grows₂, known₁.later (grows₁.ready ready) grows₂, known₂⟩
  | m, _, _, _, .name symbol, _ => ⟨.refl m, symbol⟩
  | m, _, _, _, .constant _ _ _, _ => ⟨.refl m, trivial⟩

theorem ExpandsEach.known (steady : expand.Steady) :
    ∀ {m m' : Machine} {items : List Ref} {trees : List Form},
      ExpandsEach home expand m items trees m' → m.Ready →
      m.Grows m' ∧ Form.NamedEach (fun symbol => m'.heap.isSymbol symbol = true) trees
  | m, _, _, _, .nil _, _ => ⟨.refl m, trivial⟩
  | _, _, _, _, .cons first rest, ready => by
      obtain ⟨grows₁, known₁⟩ := first.known steady ready
      obtain ⟨grows₂, known₂⟩ := rest.known steady (grows₁.ready ready)
      exact ⟨grows₁.trans grows₂, known₁.later (grows₁.ready ready) grows₂, known₂⟩

theorem ExpandsIn.known (steady : expand.Steady) :
    ∀ {m m' : Machine} {parsed : List (Ref × Option Ref)} {bindings : List (Ref × Option Form)},
      ExpandsIn home expand m parsed bindings m' → m.Ready →
      m.Grows m' ∧ Form.NamedIn (fun symbol => m'.heap.isSymbol symbol = true) bindings
  | m, _, _, _, .nil _, _ => ⟨.refl m, trivial⟩
  | _, _, _, _, .blank rest, ready => rest.known steady ready
  | _, _, _, _, .initial first rest, ready => by
      obtain ⟨grows₁, known₁⟩ := first.known steady ready
      obtain ⟨grows₂, known₂⟩ := rest.known steady (grows₁.ready ready)
      exact ⟨grows₁.trans grows₂, known₁.later (grows₁.ready ready) grows₂, known₂⟩

theorem ExpandsBody.known (steady : expand.Steady) :
    ∀ {m m' : Machine} {items : List Ref} {tree : Form},
      ExpandsBody home expand m items tree m' → m.Ready → m.Grows m' ∧ tree.KnownTo m'
  | m, _, _, _, .empty _, _ => ⟨.refl m, trivial⟩
  | _, _, _, _, .last only, ready => only.known steady ready
  | _, _, _, _, .more first rest, ready => by
      obtain ⟨grows₁, known₁⟩ := first.known steady ready
      obtain ⟨grows₂, known₂⟩ := rest.known steady (grows₁.ready ready)
      exact ⟨grows₁.trans grows₂, known₁.later (grows₁.ready ready) grows₂, known₂⟩

end

end

end LispMachine
