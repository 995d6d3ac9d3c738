import LispMachine.Proofs.Toplevel.Handles

/-!
# Values that are kept print the same

The text of a value is made of the cells that are reachable from it and of the names of
modules. So a value that stays reachable prints in the same way, whatever is read and
evaluated in the meantime.
-/

namespace LispMachine

namespace Printer

/-- The cells that are kept have the same contents in the second heap, the children of such a
    cell are kept, and modules that they stand for have the same name. -/
structure Stays (kept : Ref → Prop) (h : Heap) (r : Registry) (h' : Heap) (r' : Registry) : Prop where
  cell : ∀ a, kept a → h'.cell? a = h.cell? a
  child : ∀ a cell, kept a → h.cell? a = some cell → ∀ child ∈ cell.children, kept child
  name : ∀ a id, kept a → h.cell? a = some (.scalar (.moduleCell id)) →
    nameOr h' (r'.nameOf id) = nameOr h (r.nameOf id)

section

variable {kept : Ref → Prop} {h h' : Heap} {r r' : Registry} {a : Ref}

theorem nameOr_eq (same : h'.cell? a = h.cell? a) : nameOr h' a = nameOr h a := by
  simp only [nameOr, Heap.symbol?, Heap.scalar?, same]

theorem Stays.pair? (stays : Stays kept h r h' r') (here : kept a) : h'.pair? a = h.pair? a := by
  simp only [Heap.pair?, stays.cell a here]

theorem Stays.scalar (stays : Stays kept h r h' r') (here : kept a) {s : Scalar}
    (found : h.cell? a = some (.scalar s)) : scalar h' r' s = scalar h r s := by
  cases s with
  | integer value => rfl
  | symbol name => rfl
  | native native => rfl
  | function code =>
      have name := stays.child a _ here found code.name List.mem_cons_self
      simp only [Printer.scalar, nameOr_eq (stays.cell _ name)]
  | expander code =>
      have name := stays.child a _ here found code.name List.mem_cons_self
      simp only [Printer.scalar, nameOr_eq (stays.cell _ name)]
  | moduleCell id => simp only [Printer.scalar, stays.name a id here found]

theorem Stays.leaf (stays : Stays kept h r h' r') (here : kept a) : leaf h' r' a = leaf h r a := by
  unfold Printer.leaf
  rw [stays.cell a here]
  cases found : h.cell? a with
  | none => rfl
  | some cell =>
      cases cell with
      | free next => rfl
      | pair car cdr => rfl
      | scalar s => simp only [stays.scalar here found]

/-- Writing a value that is kept, under the same bound. -/
theorem Stays.write (stays : Stays kept h r h' r') (bound : Nat) (here : kept a) (out : String) :
    write h' r' bound out a = write h r bound out a ∧
      writeRest h' r' bound out a = writeRest h r bound out a := by
  induction bound generalizing a out with
  | zero => simp only [Printer.write, writeRest, and_self]
  | succ bound ih =>
      have same := stays.pair? here
      cases halves : h.pair? a with
      | some pair =>
          rcases pair with ⟨car, cdr⟩
          rw [halves] at same
          have inside := stays.child a _ here (Heap.pair?_eq_some.1 halves)
          have first := inside car (by simp [Cell.children])
          have second := inside cdr (by simp [Cell.children])
          rw [write_pair halves, write_pair same, writeRest_pair halves, writeRest_pair same,
            (ih first _).1, (ih first _).1]
          constructor <;> exact Option.bind_congr fun begun _ => (ih second begun).2
      | none =>
          rw [halves] at same
          refine ⟨?_, ?_⟩
          · rw [write_leaf halves, write_leaf same, stays.leaf here]
          · by_cases null : a = .null
            · rw [null, writeRest_null, writeRest_null]
            · rw [writeRest_leaf null halves, writeRest_leaf null same, (ih here _).1]

/-- The bounds of the two heaps may differ. -/
theorem Stays.display (stays : Stays kept h r h' r') (here : kept a) : display h' r' a = display h r a := by
  have enough : h.cells.size + 2 ≤ h.cells.size + h'.cells.size + 2 := by omega
  have enough' : h'.cells.size + 2 ≤ h.cells.size + h'.cells.size + 2 := by omega
  unfold Printer.display
  rw [← write_eq enough, ← write_eq enough', (stays.write _ here "").1]

end

end Printer

namespace Machine

variable {m m' : Machine} {value form : Ref}

/-- Every module cell in use stands for a module. -/
def Registered (m : Machine) : Prop :=
  ∀ r id, m.heap.scalar? r = some (.moduleCell id) → id < m.registry.size

/-- The value is the empty list, or a cell that is reachable from the roots. -/
def Shows (m : Machine) (value : Ref) : Prop := value = .null ∨ m.heap.Reachable m.roots value

theorem Registered.keeps (registered : m.Registered) (names : m.KeepsNames m') : m'.Registered := by
  intro r id found
  rcases names.modules r id found with before | known
  · exact Nat.lt_of_lt_of_le (registered r id before) names.size
  · exact known

theorem Resting.shows_root (resting : m.Resting) (member : value ∈ m.roots) : m.Shows value :=
  (resting.intact.held value member).imp id fun live => .root member live

theorem Resting.shows_child (resting : m.Resting) {cell : Cell} (here : m.Shows value)
    (found : m.heap.cell? value = some cell) {child : Ref} (member : child ∈ cell.children) :
    m.Shows child := by
  rcases here with rfl | reached
  · cases found
  · refine (resting.intact.tidy.closed value cell found child member).imp id fun live => ?_
    exact .child reached found (Cell.mem_children.1 member) live

/-- A value prints as before, if what was reachable keeps its contents and modules keep their
    names. -/
theorem Resting.display_eq (resting : m.Resting) (registered : m.Registered) (names : m.KeepsNames m')
    (keeps : ∀ r, m.heap.Reachable m.roots r → m'.heap.cell? r = m.heap.cell? r)
    (here : m.Shows value) : m'.display value = m.display value := by
  have cells : ∀ r, m.Shows r → m'.heap.cell? r = m.heap.cell? r := by
    rintro r (rfl | reached)
    · rfl
    · exact keeps r reached
  have stays : Printer.Stays m.Shows m.heap m.registry m'.heap m'.registry := by
    refine ⟨cells, fun r cell shows found child => resting.shows_child shows found, ?_⟩
    intro r id _ found
    have known := registered r id (Heap.scalar?_eq_some.2 found)
    obtain ⟨module, placed⟩ : ∃ module, m.registry.get? id = some module :=
      ⟨_, Array.getElem?_eq_getElem known⟩
    have root : m.registry.nameOf id ∈ m.roots := by
      simp only [Registry.nameOf, placed]
      exact mem_roots_of_get? placed (by simp [Module.roots])
    rw [names.called id known]
    exact Printer.nameOr_eq (cells _ (resting.shows_root root))
  exact stays.display here

end Machine

end LispMachine
