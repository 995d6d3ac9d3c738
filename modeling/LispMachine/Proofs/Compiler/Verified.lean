import LispMachine.Proofs.Compiler.Emission

/-!
# Compiled code is well formed

A verifier's view of code: the list of its instructions, each with the height of
the work stack before it. Code passes when the instructions cover its words
without a gap, operands are in range, branches lead forward to instructions, and
the heights fit together. All compiled code passes.
-/

namespace LispMachine

/-! ## Instructions in their places -/

/-- Number of values that an operation takes from the work stack. -/
def Opcode.pops (operand : Nat) : Opcode → Nat
  | .call => operand + 1
  | .storeLocal | .loadModuleValue | .loadModuleFunction | .branchIfNull | .ret | .pop => 1
  | .pushNull | .pushConstant | .loadLocal | .branch => 0

/-- Number of values that an operation leaves on the work stack. -/
def Opcode.pushes : Opcode → Nat
  | .pushNull | .pushConstant | .loadLocal | .loadModuleValue | .loadModuleFunction | .call => 1
  | .storeLocal | .branch | .branchIfNull | .ret | .pop => 0

/-- An instruction in its place in code, with the height of the work stack before it
    and, where the instruction counts on it, the cell on top. -/
structure Site where
  offset : Nat
  op : Opcode
  operand : Nat
  height : Nat
  top : Option Ref

namespace Site

/-- The offset after the instruction. -/
def next (s : Site) : Nat := s.offset + 1 + s.op.width

/-- The height of the work stack after the instruction. -/
def heightAfter (s : Site) : Nat := s.height - s.op.pops s.operand + s.op.pushes

/-- The offsets at which the code may go on. -/
def targets (s : Site) : List Nat :=
  match s.op with
  | .branch => [s.operand]
  | .branchIfNull => [s.next, s.operand]
  | .ret => []
  | _ => [s.next]

/-- The code goes on with an instruction of the list at a certain offset, which is
    given the height that it expects, and the cell on top that it counts on. -/
def Reaches (code : Code) (sites : List Site) (s : Site) (target : Nat) : Prop :=
  ∃ t ∈ sites, t.offset = target ∧ t.height = s.heightAfter ∧
    (t.top = none ∨ s.op = .pushConstant ∧ code.constants[s.operand]? = t.top)

/-- The operand of the instruction is in range, the code goes on further ahead only, and
    the work stack is high enough. -/
structure Admitted (code : Code) (slots : Nat) (s : Site) : Prop where
  constant : s.op = .pushConstant → s.operand < code.constants.size
  slot : s.op = .loadLocal ∨ s.op = .storeLocal → s.operand < slots
  forward : ∀ target ∈ s.targets, s.offset < target
  enough : s.op.pops s.operand ≤ s.height
  name : s.op = .loadModuleValue ∨ s.op = .loadModuleFunction → s.top.isSome = true

/-- Instructions other than branches go on with the next one, if at all. -/
theorem forward_of_straight {s : Site} (straight : s.op ≠ .branch ∧ s.op ≠ .branchIfNull) :
    ∀ target ∈ s.targets, s.offset < target := by
  have ahead : s.offset < s.next := by
    simp only [next]
    omega
  unfold targets
  split <;> simp_all

end Site

/-- The instructions of a stretch of code, one after the other. -/
inductive Spans (code : Code) : Nat → List Site → Nat → Prop where
  | nil (pc : Nat) : Spans code pc [] pc
  | cons {s : Site} {rest : List Site} {pc' : Nat} :
      code.fetch s.offset = .ok (s.op, s.operand) → Spans code s.next rest pc' →
      Spans code s.offset (s :: rest) pc'

/-- An instruction of the list starts at the offset with the given height, whatever
    is on top of the work stack. -/
def Enters (sites : List Site) (pc h : Nat) : Prop :=
  ∃ t ∈ sites, t.offset = pc ∧ t.height = h ∧ t.top = none

/-- What a verifier finds in code: whole instructions from the first word to the last
    that end in the only return, operands in range, branches that lead forward to
    instructions, and one height for each instruction that fits with the height at
    every instruction that leads there. -/
structure Code.Checked (code : Code) (sites : List Site) : Prop where
  spans : Spans code 0 sites code.words.size
  returns : ∃ front last, sites = front ++ [last] ∧ last.op = .ret ∧ last.height = 1 ∧
    ∀ s ∈ front, s.op ≠ .ret
  starts : Enters sites 0 0
  admitted : ∀ s ∈ sites, s.Admitted code code.slots
  flows : ∀ s ∈ sites, ∀ target ∈ s.targets, s.Reaches code sites target
  params : code.params + (if code.takesRest then 1 else 0) ≤ code.slots

/-! ## Stretches of code -/

theorem Spans.append {code : Code} {pc pc₁ pc₂ : Nat} {first second : List Site}
    (before : Spans code pc first pc₁) (after : Spans code pc₁ second pc₂) :
    Spans code pc (first ++ second) pc₂ := by
  induction before with
  | nil => exact after
  | cons found _ ih => exact .cons found (ih after)

theorem Site.Reaches.mono {code : Code} {sites all : List Site} {s : Site} {target : Nat}
    (reaches : s.Reaches code sites target) (sub : sites ⊆ all) : s.Reaches code all target := by
  obtain ⟨t, member, rest⟩ := reaches
  exact ⟨t, sub member, rest⟩

theorem Enters.mono {sites all : List Site} {pc h : Nat} (enters : Enters sites pc h)
    (sub : sites ⊆ all) : Enters all pc h := by
  obtain ⟨t, member, rest⟩ := enters
  exact ⟨t, sub member, rest⟩

theorem Enters.reaches {code : Code} {sites : List Site} {s : Site} {pc h : Nat}
    (enters : Enters sites pc h) (height : s.heightAfter = h) : s.Reaches code sites pc := by
  obtain ⟨t, member, offset, height', top⟩ := enters
  exact ⟨t, member, offset, height'.trans height.symm, Or.inl top⟩

/-- A stretch of code without return, entered at an offset and a height and left at
    another offset and height. Every cell that an instruction counts on is a constant
    of the code with the property `p`. -/
structure Segment (code : Code) (p : Ref → Prop) (slots pc h pc' h' : Nat) (sites : List Site) :
    Prop where
  spans : Spans code pc sites pc'
  admitted : ∀ s ∈ sites, s.Admitted code slots ∧ s.op ≠ .ret
  names : ∀ s ∈ sites, ∀ r, s.top = some r → p r ∧ r ∈ code.constants
  starts : Enters sites pc h ∨ (pc = pc' ∧ h = h')
  flows : ∀ s ∈ sites, ∀ target ∈ s.targets,
    s.Reaches code sites target ∨ (target = pc' ∧ s.heightAfter = h')

section

variable {code : Code} {p : Ref → Prop} {slots pc h pc₁ h₁ pc₂ h₂ : Nat}
  {first second : List Site}

theorem Segment.nil (code : Code) (p : Ref → Prop) (slots pc h : Nat) :
    Segment code p slots pc h pc h [] where
  spans := .nil pc
  admitted := by simp
  names := by simp
  starts := Or.inr ⟨rfl, rfl⟩
  flows := by simp

/-- Where a stretch leads, seen from a longer one. -/
theorem Segment.flows_into (segment : Segment code p slots pc h pc₁ h₁ first) {all : List Site}
    (sub : first ⊆ all) (goes : Enters all pc₁ h₁ ∨ (pc₁ = pc₂ ∧ h₁ = h₂)) :
    ∀ s ∈ first, ∀ target ∈ s.targets,
      s.Reaches code all target ∨ (target = pc₂ ∧ s.heightAfter = h₂) := by
  intro s member target leads
  rcases segment.flows s member target leads with inside | ⟨rfl, height⟩
  · exact Or.inl (inside.mono sub)
  · rcases goes with enters | ⟨rfl, rfl⟩
    · exact Or.inl (enters.reaches height)
    · exact Or.inr ⟨rfl, height⟩

/-- One stretch after the other. -/
theorem Segment.append (before : Segment code p slots pc h pc₁ h₁ first)
    (after : Segment code p slots pc₁ h₁ pc₂ h₂ second) :
    Segment code p slots pc h pc₂ h₂ (first ++ second) where
  spans := before.spans.append after.spans
  admitted := by
    intro s member
    rcases List.mem_append.1 member with inside | inside
    · exact before.admitted s inside
    · exact after.admitted s inside
  names := by
    intro s member
    rcases List.mem_append.1 member with inside | inside
    · exact before.names s inside
    · exact after.names s inside
  starts := by
    rcases before.starts with enters | ⟨rfl, rfl⟩
    · exact Or.inl (enters.mono (List.subset_append_left _ _))
    · rcases after.starts with enters | same
      · exact Or.inl (enters.mono (List.subset_append_right _ _))
      · exact Or.inr same
  flows := by
    intro s member
    rcases List.mem_append.1 member with inside | inside
    · refine before.flows_into (List.subset_append_left _ _) ?_ s inside
      rcases after.starts with enters | same
      · exact Or.inl (enters.mono (List.subset_append_right _ _))
      · exact Or.inr same
    · exact after.flows_into (List.subset_append_right _ _) (Or.inr ⟨rfl, rfl⟩) s inside

/-- A single instruction that goes on with the next one. -/
theorem Segment.single {op : Opcode} {operand : Nat} (found : code.fetch pc = .ok (op, operand))
    (admitted : Site.Admitted code slots ⟨pc, op, operand, h, none⟩)
    (straight : op ≠ .branch ∧ op ≠ .branchIfNull ∧ op ≠ .ret) :
    Segment code p slots pc h (pc + 1 + op.width) (h - op.pops operand + op.pushes)
      [⟨pc, op, operand, h, none⟩] where
  spans := @Spans.cons code ⟨pc, op, operand, h, none⟩ [] _ found (.nil _)
  admitted := by
    intro s member
    rw [List.mem_singleton.1 member]
    exact ⟨admitted, straight.2.2⟩
  names := by
    intro s member r top
    rw [List.mem_singleton.1 member] at top
    cases top
  starts := Or.inl ⟨_, List.mem_singleton.2 rfl, rfl, rfl, rfl⟩
  flows := by
    intro s member target leads
    rw [List.mem_singleton.1 member] at leads ⊢
    obtain ⟨notBranch, notIf, notRet⟩ := straight
    refine Or.inr ⟨?_, rfl⟩
    cases op <;> simp_all [Site.targets, Site.next]

theorem admitted_plain {op : Opcode} {operand : Nat} (height : op.pops operand ≤ h)
    (others : op ≠ .pushConstant ∧ op ≠ .loadLocal ∧ op ≠ .storeLocal ∧ op ≠ .branch ∧
      op ≠ .branchIfNull ∧ op ≠ .loadModuleValue ∧ op ≠ .loadModuleFunction) :
    Site.Admitted code slots ⟨pc, op, operand, h, none⟩ := by
  obtain ⟨a, b, c, d, e, f, g⟩ := others
  refine ⟨?_, ?_, Site.forward_of_straight ⟨d, e⟩, height, ?_⟩ <;> simp [a, b, c, f, g]

/-- A name that is pushed as a constant and looked up at once. -/
theorem Segment.lookup {symbol : Ref} {index : Nat} {op : Opcode} (slots h : Nat)
    (push : code.fetch pc = .ok (.pushConstant, index))
    (constant : code.constants[index]? = some symbol) (load : code.fetch (pc + 2) = .ok (op, 0))
    (loads : op = .loadModuleValue ∨ op = .loadModuleFunction) (named : p symbol) :
    Segment code p slots pc h (pc + 3) (h + 1)
      [⟨pc, .pushConstant, index, h, none⟩, ⟨pc + 2, op, 0, h + 1, some symbol⟩] := by
  have width : op.width = 0 := by rcases loads with rfl | rfl <;> rfl
  have counts : op.pops 0 = 1 ∧ op.pushes = 1 := by rcases loads with rfl | rfl <;> exact ⟨rfl, rfl⟩
  have inside : index < code.constants.size := (Array.getElem?_eq_some_iff.1 constant).1
  have last : Spans code (pc + 2) [⟨pc + 2, op, 0, h + 1, some symbol⟩] (pc + 3) := by
    have only := @Spans.cons code ⟨pc + 2, op, 0, h + 1, some symbol⟩ [] _ load (.nil _)
    simpa [Site.next, width] using only
  refine ⟨@Spans.cons code ⟨pc, .pushConstant, index, h, none⟩ _ _ push last, ?_, ?_, ?_, ?_⟩
  · intro s member
    rcases List.mem_cons.1 member with rfl | member
    · refine ⟨⟨fun _ => inside, ?_, Site.forward_of_straight ?_, Nat.zero_le _, ?_⟩, ?_⟩ <;> simp
    · obtain rfl := List.mem_singleton.1 member
      rcases loads with rfl | rfl
      · refine ⟨⟨?_, ?_, Site.forward_of_straight ?_, ?_, fun _ => rfl⟩, ?_⟩ <;> simp [Opcode.pops]
      · refine ⟨⟨?_, ?_, Site.forward_of_straight ?_, ?_, fun _ => rfl⟩, ?_⟩ <;> simp [Opcode.pops]
  · intro s member r top
    rcases List.mem_cons.1 member with rfl | member
    · cases top
    · obtain rfl := List.mem_singleton.1 member
      cases top
      exact ⟨named, Array.mem_of_getElem? constant⟩
  · exact Or.inl ⟨_, List.mem_cons_self, rfl, rfl, rfl⟩
  · intro s member target leads
    rcases List.mem_cons.1 member with rfl | member
    · obtain rfl := List.mem_singleton.1 leads
      exact Or.inl ⟨_, List.mem_cons_of_mem _ (List.mem_singleton.2 rfl), rfl, rfl,
        Or.inr ⟨rfl, constant⟩⟩
    · obtain rfl := List.mem_singleton.1 member
      refine Or.inr ?_
      rcases loads with rfl | rfl
      · exact ⟨List.mem_singleton.1 leads, rfl⟩
      · exact ⟨List.mem_singleton.1 leads, rfl⟩

/-- A choice: both branches lead over the code between them. -/
theorem Segment.choice {pc₃ : Nat} {condition consequence alternative : List Site}
    (before : Segment code p slots pc h pc₁ (h + 1) condition)
    (branch : code.fetch pc₁ = .ok (.branchIfNull, pc₂ + 2))
    (between : Segment code p slots (pc₁ + 2) h pc₂ (h + 1) consequence)
    (jump : code.fetch pc₂ = .ok (.branch, pc₃))
    (after : Segment code p slots (pc₂ + 2) h pc₃ (h + 1) alternative)
    (lt : pc₁ < pc₂) (lt' : pc₂ < pc₃) :
    Segment code p slots pc h pc₃ (h + 1)
      (condition ++ ⟨pc₁, .branchIfNull, pc₂ + 2, h + 1, none⟩ ::
        (consequence ++ ⟨pc₂, .branch, pc₃, h + 1, none⟩ :: alternative)) := by
  generalize all_eq : (condition ++ (⟨pc₁, .branchIfNull, pc₂ + 2, h + 1, none⟩ : Site) ::
    (consequence ++ (⟨pc₂, .branch, pc₃, h + 1, none⟩ : Site) :: alternative)) = all
  have sub₁ : condition ⊆ all := by
    intro s member
    simp [← all_eq, member]
  have sub₂ : consequence ⊆ all := by
    intro s member
    simp [← all_eq, member]
  have sub₃ : alternative ⊆ all := by
    intro s member
    simp [← all_eq, member]
  have test : Enters all pc₁ (h + 1) :=
    ⟨⟨pc₁, .branchIfNull, pc₂ + 2, h + 1, none⟩, by simp [← all_eq], rfl, rfl, rfl⟩
  have exit : Enters all pc₂ (h + 1) :=
    ⟨⟨pc₂, .branch, pc₃, h + 1, none⟩, by simp [← all_eq], rfl, rfl, rfl⟩
  have second : Enters all (pc₁ + 2) h := by
    rcases between.starts with enters | ⟨_, height⟩
    · exact enters.mono sub₂
    · omega
  have third : Enters all (pc₂ + 2) h := by
    rcases after.starts with enters | ⟨_, height⟩
    · exact enters.mono sub₃
    · omega
  -- Whatever holds of the three parts and of the two branches holds of the whole.
  have cases_all : ∀ {motive : Site → Prop}, (∀ s ∈ condition, motive s) →
      motive ⟨pc₁, .branchIfNull, pc₂ + 2, h + 1, none⟩ → (∀ s ∈ consequence, motive s) →
      motive ⟨pc₂, .branch, pc₃, h + 1, none⟩ → (∀ s ∈ alternative, motive s) →
      ∀ s ∈ all, motive s := by
    intro motive a b c d e s member
    rw [← all_eq] at member
    simp only [List.mem_append, List.mem_cons] at member
    rcases member with inside | rfl | inside | rfl | inside
    · exact a s inside
    · exact b
    · exact c s inside
    · exact d
    · exact e s inside
  refine ⟨?_, ?_, ?_, ?_, ?_⟩
  · rw [← all_eq]
    refine before.spans.append
      (@Spans.cons code ⟨pc₁, .branchIfNull, pc₂ + 2, h + 1, none⟩ _ _ branch ?_)
    exact between.spans.append
      (@Spans.cons code ⟨pc₂, .branch, pc₃, h + 1, none⟩ _ _ jump after.spans)
  · refine cases_all before.admitted ⟨⟨?_, ?_, ?_, ?_, ?_⟩, ?_⟩ between.admitted
      ⟨⟨?_, ?_, ?_, ?_, ?_⟩, ?_⟩ after.admitted <;>
      simp [Opcode.pops, Site.targets, Site.next, Opcode.width] <;> omega
  · refine cases_all before.names ?_ between.names ?_ after.names <;> simp
  · rcases before.starts with enters | ⟨_, height⟩
    · exact Or.inl (enters.mono sub₁)
    · omega
  · refine cases_all (before.flows_into sub₁ (Or.inl test)) ?_
      (between.flows_into sub₂ (Or.inl exit)) ?_ (after.flows_into sub₃ (Or.inr ⟨rfl, rfl⟩))
    · intro target leads
      simp only [Site.targets, List.mem_cons, List.not_mem_nil, or_false] at leads
      rcases leads with rfl | rfl
      · exact Or.inl (second.reaches rfl)
      · exact Or.inl (third.reaches rfl)
    · intro target leads
      exact Or.inr ⟨List.mem_singleton.1 leads, rfl⟩

/-! ## Laid out code -/

theorem LaysStores.segment {list : List Nat} {pc pc' : Nat} (laid : LaysStores code list pc pc')
    (inside : ∀ slot ∈ list, slot < slots) (p : Ref → Prop) (h : Nat) :
    ∃ sites, Segment code p slots pc (h + list.length) pc' h sites := by
  induction laid with
  | nil pc => exact ⟨[], .nil code p slots pc h⟩
  | @cons slot pc pc' list found _ ih =>
      obtain ⟨sites, rest⟩ := ih fun other member => inside other (List.mem_cons_of_mem _ member)
      have first : Segment code p slots pc (h + list.length + 1) (pc + 2) (h + list.length)
          [⟨pc, .storeLocal, slot, h + list.length + 1, none⟩] := by
        refine Segment.single found ⟨?_, ?_, Site.forward_of_straight (by simp), ?_, ?_⟩ (by decide)
        · simp
        · exact fun _ => inside slot List.mem_cons_self
        · simp [Opcode.pops]
        · simp
      exact ⟨_, first.append rest⟩

mutual

/-- The code of a tree raises the work stack by one. -/
theorem Lays.segment {scope : List (Ref × Nat)} {form : Form} {pc n pc' n' : Nat}
    (laid : Lays code scope form pc n pc' n') (room : n' ≤ slots)
    (below : Below scope n) (named : form.Named p) (h : Nat) :
    ∃ sites, Segment code p slots pc h pc' (h + 1) sites := by
  cases laid with
  | null found =>
      exact ⟨_, .single found (admitted_plain (Nat.zero_le _) (by decide)) (by decide)⟩
  | constant found held =>
      have inside := (Array.getElem?_eq_some_iff.1 held).1
      refine ⟨_, .single found ⟨fun _ => inside, ?_, Site.forward_of_straight ?_, Nat.zero_le _, ?_⟩
        (by decide)⟩ <;> simp
  | localName resolved found =>
      have inside := below _ (Assoc.mem_of_lookup resolved)
      refine ⟨_, .single found ⟨?_, fun _ => Nat.lt_of_lt_of_le inside room,
        Site.forward_of_straight ?_, Nat.zero_le _, ?_⟩ (by decide)⟩ <;> simp
  | moduleName _ push constant load =>
      exact ⟨_, .lookup slots h push constant load (Or.inl rfl) named⟩
  | function push constant load =>
      exact ⟨_, .lookup slots h push constant load (Or.inr rfl) named⟩
  | choice first branch second jump third =>
      have bounds₁ := first.bounds
      have bounds₂ := second.bounds
      have bounds₃ := third.bounds
      obtain ⟨a, before⟩ := first.segment (by omega) below named.1 h
      obtain ⟨b, between⟩ := second.segment (by omega)
        (below.later (by omega)) named.2.1 h
      obtain ⟨c, after⟩ := third.segment room
        (below.later (by omega)) named.2.2 h
      exact ⟨_, .choice before branch between jump after (by omega) (by omega)⟩
  | sequence first pop second =>
      have bounds₁ := first.bounds
      have bounds₂ := second.bounds
      obtain ⟨a, before⟩ := first.segment (by omega) below named.1 h
      obtain ⟨b, after⟩ := second.segment room
        (below.later (by omega)) named.2 h
      have dropped := @Segment.single code p slots _ (h + 1) .pop 0 pop
        (admitted_plain (by simp [Opcode.pops]) (by decide)) (by decide)
      exact ⟨_, before.append (dropped.append after)⟩
  | @bind _ bindings _ _ _ _ n₁ _ _ _ values stores body =>
      have bounds₁ := values.bounds
      have bounds₃ := body.bounds
      obtain ⟨a, before⟩ := values.segment (by omega) below named.1 h n₁
      have inside : ∀ slot ∈ (storeSlots n₁ bindings).reverse, slot < slots := by
        intro slot member
        have _ := mem_storeSlots (List.mem_reverse.1 member)
        omega
      obtain ⟨b, stored⟩ := stores.segment inside p h
      obtain ⟨c, after⟩ := body.segment room ((below.later bounds₁.2).scopeWith bindings) named.2 h
      rw [List.length_reverse] at stored
      exact ⟨_, before.append (stored.append after)⟩
  | @call _ _ args _ _ _ _ _ _ callee each call =>
      have bounds₁ := callee.bounds
      have bounds₂ := each.bounds
      obtain ⟨a, before⟩ := callee.segment (by omega) below named.1 h
      obtain ⟨b, between⟩ := each.segment room
        (below.later (by omega)) named.2 (h + 1)
      have called := @Segment.single code p slots _ (h + 1 + args.length) .call args.length call
        (admitted_plain (by simp only [Opcode.pops]; omega) (by decide)) (by decide)
      have height : h + 1 + args.length - Opcode.call.pops args.length + Opcode.call.pushes =
          h + 1 := by
        simp only [Opcode.pops, Opcode.pushes]
        omega
      rw [height] at called
      exact ⟨_, before.append (between.append called)⟩

theorem LaysEach.segment {scope : List (Ref × Nat)} {forms : List Form} {pc n pc' n' : Nat}
    (laid : LaysEach code scope forms pc n pc' n') (room : n' ≤ slots)
    (below : Below scope n) (named : Form.NamedEach p forms) (h : Nat) :
    ∃ sites, Segment code p slots pc h pc' (h + forms.length) sites := by
  cases laid with
  | nil => exact ⟨[], .nil code p slots pc h⟩
  | @cons _ _ forms _ _ _ _ _ _ first rest =>
      have bounds₁ := first.bounds
      have bounds₂ := rest.bounds
      obtain ⟨a, before⟩ := first.segment (by omega) below named.1 h
      obtain ⟨b, after⟩ := rest.segment room
        (below.later (by omega)) named.2 (h + 1)
      rw [Nat.add_assoc, Nat.add_comm 1] at after
      exact ⟨_, before.append after⟩

theorem LaysIn.segment {scope : List (Ref × Nat)} {bindings : List (Ref × Option Form)}
    {pc n pc' n' : Nat} (laid : LaysIn code scope bindings pc n pc' n') (room : n' ≤ slots)
    (below : Below scope n) (named : Form.NamedIn p bindings) (h k : Nat) :
    ∃ sites, Segment code p slots pc h pc' (h + (storeSlots k bindings).length) sites := by
  cases laid with
  | nil => exact ⟨[], .nil code p slots pc h⟩
  | blank rest => exact rest.segment room below named h (k + 1)
  | @initial _ _ _ bindings _ _ _ _ _ _ first rest =>
      have bounds₁ := first.bounds
      have bounds₂ := rest.bounds
      obtain ⟨a, before⟩ := first.segment (by omega) below named.1 h
      obtain ⟨b, after⟩ := rest.segment room
        (below.later (by omega)) named.2 (h + 1) (k + 1)
      rw [Nat.add_assoc, Nat.add_comm 1] at after
      exact ⟨_, before.append after⟩

end

end

/-! ## Whole functions -/

/-- The code passes, and the cells that its instructions count on are constants with
    the property `p`. -/
def Code.Verified (code : Code) (p : Ref → Prop) : Prop :=
  ∃ sites, code.Checked sites ∧ ∀ s ∈ sites, ∀ r, s.top = some r → p r ∧ r ∈ code.constants

theorem Code.Verified.imp {code : Code} {p q : Ref → Prop} (verified : code.Verified p)
    (imp : ∀ r ∈ code.constants, p r → q r) : code.Verified q := by
  obtain ⟨sites, checked, names⟩ := verified
  refine ⟨sites, checked, ?_⟩
  intro s member r top
  obtain ⟨held, constant⟩ := names s member r top
  exact ⟨imp r constant held, constant⟩

/-- Code that implements a function passes. -/
theorem Code.Implements.verified {code : Code} {fixed : List Ref} {rest : Option Ref} {tree : Form}
    {p : Ref → Prop} (impl : code.Implements fixed rest tree) (named : tree.Named p) :
    code.Verified p := by
  obtain ⟨pc, laid, returns, size⟩ := impl.laid
  have bounds := laid.bounds
  have below : Below (fixed ++ rest.toList).zipIdx (fixed ++ rest.toList).length := by
    intro entry member
    have inside := (List.mem_zipIdx member).2.1
    omega
  obtain ⟨sites, body⟩ := laid.segment (Nat.le_refl _) below named 0
  have enters : Enters (sites ++ [⟨pc, .ret, 0, 1, none⟩]) pc 1 :=
    ⟨⟨pc, .ret, 0, 1, none⟩, by simp, rfl, rfl, rfl⟩
  have sub : sites ⊆ sites ++ [⟨pc, .ret, 0, 1, none⟩] := List.subset_append_left _ _
  refine ⟨sites ++ [⟨pc, .ret, 0, 1, none⟩], ⟨?_, ?_, ?_, ?_, ?_, ?_⟩, ?_⟩
  · rw [size]
    exact body.spans.append (@Spans.cons code ⟨pc, .ret, 0, 1, none⟩ [] _ returns (.nil _))
  · exact ⟨sites, _, rfl, rfl, rfl, fun s member => (body.admitted s member).2⟩
  · rcases body.starts with start | ⟨_, height⟩
    · exact start.mono sub
    · cases height
  · intro s member
    rcases List.mem_append.1 member with inside | last
    · exact (body.admitted s inside).1
    · rw [List.mem_singleton.1 last]
      exact admitted_plain (Nat.le_refl _) (by decide)
  · intro s member target leads
    rcases List.mem_append.1 member with inside | last
    · rcases body.flows s inside target leads with reaches | ⟨rfl, height⟩
      · exact reaches.mono sub
      · exact enters.reaches height
    · rw [List.mem_singleton.1 last] at leads
      cases leads
  · have count : (fixed ++ rest.toList).length = code.params + if code.takesRest then 1 else 0 := by
      rw [impl.params, impl.takesRest]
      cases rest <;> simp
    omega
  · intro s member r top
    rcases List.mem_append.1 member with inside | last
    · exact body.names s inside r top
    · rw [List.mem_singleton.1 last] at top
      cases top

end LispMachine
