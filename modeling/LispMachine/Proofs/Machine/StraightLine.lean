import LispMachine.Proofs.Compiler.Emission
import LispMachine.Proofs.Machine.Containment
import LispMachine.Proofs.Opcode.Listing

/-!
# Code that is executed straight through

Code that is made of whole instructions has a line in its listing for each of them. A frame
that neither branches nor returns fetches the instructions at the offsets of these lines, one
after the other, whatever the functions do that it calls in between.
-/

namespace LispMachine

/-! ## Instructions with their operands -/

/-- An operation with the operands that it is encoded with. -/
structure Instruction where
  op : Opcode
  operands : List Nat

namespace Instruction

/-- The words of an instruction. -/
def words (i : Instruction) : List UInt16 := i.op.encode i.operands

/-- The operand that the operation takes, or zero. -/
def operand (i : Instruction) : Nat := (i.operands.take i.op.width).headD 0

/-- The operation has an operand if it takes one, and a word holds it. -/
structure Fits (i : Instruction) : Prop where
  enough : i.op.width ≤ i.operands.length
  small : ∀ operand ∈ i.operands.take i.op.width, operand ≤ maxOperand

/-- The text of an instruction: its offset, its operation and its operand if it takes one. -/
def text (i : Instruction) (pos : Nat) : String :=
  if i.op.width = 1 then Text.spaced [Text.offset pos, i.op.mnemonic, i.operand.repr]
  else Text.spaced [Text.offset pos, i.op.mnemonic]

end Instruction

theorem Opcode.width_cases (op : Opcode) : op.width = 0 ∨ op.width = 1 := by
  cases op <;> decide

/-- An instruction is an operation word alone, or with the word of its operand. -/
theorem Instruction.Fits.words_eq {i : Instruction} (fits : i.Fits) :
    (i.op.width = 0 ∧ i.words = [i.op.word] ∧ i.operand = 0) ∨
      (i.op.width = 1 ∧ i.words = [i.op.word, UInt16.ofNat i.operand] ∧ i.operand ≤ maxOperand) := by
  rcases i with ⟨op, operands⟩
  rcases op.width_cases with none | one
  · left
    simp [Instruction.words, Opcode.encode, Instruction.operand, none]
  · right
    obtain ⟨enough, small⟩ := fits
    dsimp only at enough small
    rw [one] at enough small
    cases operands with
    | nil => cases enough
    | cons operand rest =>
        have held : operand ≤ maxOperand := small operand (by simp)
        simp [Instruction.words, Opcode.encode, Instruction.operand, one, held]

theorem Instruction.Fits.length_words {i : Instruction} (fits : i.Fits) :
    i.words.length = 1 + i.op.width := by
  rcases fits.words_eq with ⟨width, words, _⟩ | ⟨width, words, _⟩
  · rw [words, width]
    rfl
  · rw [words, width]
    rfl

/-- The code of a sequence of instructions. -/
def assemble (program : List Instruction) : List UInt16 := program.flatMap Instruction.words

/-- The instructions with the offsets at which they begin. -/
def placed : Nat → List Instruction → List (Nat × Instruction)
  | _, [] => []
  | pos, i :: rest => (pos, i) :: placed (pos + i.words.length) rest

theorem listingFrom_plain (pos : Nat) {op : Opcode} (rest : List UInt16) (width : op.width = 0) :
    listingFrom pos (op.word :: rest) = .plain pos op :: listingFrom (pos + 1) rest := by
  cases rest <;> simp [listingFrom, width]

theorem listingFrom_operand (pos : Nat) {op : Opcode} (value : UInt16) (rest : List UInt16)
    (width : op.width = 1) :
    listingFrom pos (op.word :: value :: rest) =
      .operand pos op value :: listingFrom (pos + 2) rest := by
  simp [listingFrom, width]

/-- One line for each instruction. -/
theorem listingFrom_assemble (pos : Nat) {program : List Instruction}
    (fits : ∀ i ∈ program, i.Fits) :
    (listingFrom pos (assemble program)).map ListingLine.text =
      (placed pos program).map fun site => site.2.text site.1 := by
  induction program generalizing pos with
  | nil => rfl
  | cons i rest ih =>
      obtain ⟨first, others⟩ := List.forall_mem_cons.1 fits
      have tail := ih (pos + i.words.length) others
      unfold assemble at tail ⊢
      rw [List.flatMap_cons, placed, List.map_cons, ← tail]
      rcases first.words_eq with ⟨width, words, _⟩ | ⟨width, words, small⟩
      · rw [words, List.singleton_append, listingFrom_plain pos _ width]
        simp [ListingLine.text, ListingLine.parts, Instruction.text, width]
      · have value := UInt16.toNat_ofNat_of_lt' (Nat.lt_succ_of_le small)
        rw [words, List.cons_append, List.singleton_append, listingFrom_operand pos _ _ width]
        simp only [List.map_cons, List.length_cons, List.length_nil, ListingLine.text,
          ListingLine.parts, Instruction.text, width, if_true, value]

/-! ## Where the instructions are found -/

theorem mem_placed {pos : Nat} {program : List Instruction} {site : Nat × Instruction}
    (member : site ∈ placed pos program) :
    ∃ done rest, program = done ++ site.2 :: rest ∧ site.1 = pos + (assemble done).length := by
  induction program generalizing pos with
  | nil => cases member
  | cons i program ih =>
      rcases List.mem_cons.1 member with rfl | later
      · exact ⟨[], program, rfl, rfl⟩
      · obtain ⟨done, rest, split, start⟩ := ih later
        refine ⟨i :: done, rest, congrArg _ split, ?_⟩
        simp only [start, assemble, List.flatMap_cons, List.length_append, Nat.add_assoc]

namespace Code

variable {code : Code}

theorem words_at {before after : List UInt16} (held : code.words.toList = before ++ after)
    (i : Nat) : code.words[before.length + i]? = after[i]? := by
  rw [← Array.getElem?_toList, held, List.getElem?_append_right (Nat.le_add_right _ _),
    Nat.add_sub_cancel_left]

/-- An instruction is fetched where it begins. -/
theorem fetch_instruction {i : Instruction} (fits : i.Fits) {before after : List UInt16}
    (held : code.words.toList = before ++ (i.words ++ after)) :
    code.fetch before.length = .ok (i.op, i.operand) := by
  have word := words_at held 0
  have next := words_at held 1
  rcases fits.words_eq with ⟨width, words, none⟩ | ⟨width, words, small⟩
  · rw [words] at word
    rw [none]
    exact fetch_plain word width
  · rw [words] at word next
    exact fetch_operand word next width small

/-- Nothing is fetched where the code ends. -/
theorem fetch_end : code.fetch code.words.size = .error (.truncatedInstruction code.words.size) := by
  simp [fetch]

end Code

/-! ## Straight through -/

/-- Whether the next instruction of a frame branches. -/
def Frame.branches (frame : Frame) : Bool :=
  match frame.activity with
  | .running code pc =>
      match code.fetch pc with
      | .ok (.branch, _) => true
      | .ok (.branchIfNull, _) => frame.stack.head?.any Ref.isNull
      | _ => false
  | _ => false

section

variable {m : Machine}

theorem Frame.pushedOr_activity (frame : Frame) (value : Option Ref) (error : RuntimeError) :
    (frame.pushedOr value error).frame.activity = frame.activity := by
  cases value <;> rfl

theorem Frame.popped_activity (frame : Frame) {next : Ref → Frame → Effect}
    (keeps : ∀ value rest, frame.stack = value :: rest →
      (next value { frame with stack := rest }).frame.activity = frame.activity) :
    (frame.popped next).frame.activity = frame.activity := by
  unfold Frame.popped
  split
  · rfl
  · next value rest stack => exact keeps value rest stack

theorem Frame.lookedUp_activity (frame : Frame) (op : Opcode) (binding : Ref → Option Ref)
    (unbound : String → RuntimeError) :
    (frame.lookedUp m op binding unbound).frame.activity = frame.activity := by
  refine frame.popped_activity fun symbol rest _ => ?_
  split
  · exact Frame.pushedOr_activity _ _ _
  · rfl

/-- An instruction that does not branch leaves its frame where it has moved on to. -/
theorem Opcode.effect_activity (code : Code) (pc operand : Nat) (frame : Frame) {op : Opcode}
    (straight : op ≠ .branch)
    (untaken : op = .branchIfNull → frame.stack.head?.any Ref.isNull = false) :
    (op.effect m code pc operand frame).frame.activity = frame.activity := by
  cases op with
  | pushNull => rfl
  | pushConstant => exact frame.pushedOr_activity _ _
  | loadLocal => exact frame.pushedOr_activity _ _
  | storeLocal =>
      simp only [Opcode.effect]
      refine frame.popped_activity fun value rest _ => ?_
      split <;> rfl
  | loadModuleValue => exact frame.lookedUp_activity _ _ _
  | loadModuleFunction => exact frame.lookedUp_activity _ _ _
  | branch => exact absurd rfl straight
  | branchIfNull =>
      simp only [Opcode.effect]
      refine frame.popped_activity fun value rest stack => ?_
      have some : value.isNull = false := by simpa [stack] using untaken rfl
      simp [some, Effect.frame]
  | call =>
      simp only [Opcode.effect]
      split <;> rfl
  | ret => rfl
  | pop => exact frame.popped_activity fun _ _ _ => rfl

/-- The frame that the next instruction leaves is behind that instruction, unless it branches. -/
theorem Frame.effect_activity {frame : Frame} {code : Code} {pc operand : Nat} {op : Opcode}
    (doing : frame.activity = .running code pc) (found : code.fetch pc = .ok (op, operand))
    (straight : frame.branches = false) :
    (frame.effect m).frame.activity = .running code (pc + 1 + op.width) := by
  rw [Machine.effect_of_fetch doing found]
  apply Opcode.effect_activity
  · rintro rfl
    simp [Frame.branches, doing, found] at straight
  · rintro rfl
    simpa [Frame.branches, doing, found] using straight

end

namespace Machine

/-- One instruction of the current frame is carried out, together with the call that it may
    make. -/
def Strides (host : Host) (m m' : Machine) : Prop :=
  ∃ m₁ fuel, step host m = .ok () m₁ ∧ run host m.depth fuel m₁ = .ok () m' ∧ m'.depth = m.depth

/-- A run that has nothing to do. -/
theorem run_idle {host : Host} {floor fuel : Nat} {m m' : Machine}
    (done : run host floor fuel m = .ok () m') (idle : m.depth ≤ floor) : m' = m := by
  cases fuel with
  | zero => cases done
  | succ fuel =>
      unfold Machine.run at done
      rw [if_neg (Nat.not_lt.2 idle)] at done
      cases done
      rfl

theorem giveBack_depth {m m' : Machine} (done : giveBack m = .ok () m') : m'.depth + 1 = m.depth := by
  unfold giveBack at done
  split at done
  · cases done
  · next caller below =>
      split at done
      · cases done
        have some : m.callers.size ≠ 0 := by
          intro none
          simp [Array.back?, none] at below
        simp only [depth, Array.size_pop]
        omega
      · cases done

/-- What is carried out is the effect of the instruction: the frame goes on, or it gets the
    value of its call. -/
theorem Strides.top {host : Host} {m m' : Machine} (ready : m.Ready) (strides : Strides host m m') :
    m'.top.activity = (m.top.effect m).frame.activity := by
  obtain ⟨m₁, fuel, stepped, ran, level⟩ := strides
  have grown := step_grows host ready
  obtain ⟨journal, eq⟩ := step_apply host m
  rw [stepped] at eq grown
  have ready₁ : m₁.Ready := grown.ready ready
  cases effect : m.top.effect m with
  | stay frame =>
      rw [effect] at eq
      cases eq
      rw [run_idle ran (Nat.le_refl m.depth)]
      rfl
  | fail frame error =>
      rw [effect] at eq
      cases eq
  | back frame =>
      rw [effect] at eq
      have lower : m₁.depth + 1 = m.depth :=
        @giveBack_depth ((m.withJournal journal).withTop frame) m₁ eq.symm
      rw [run_idle ran (by omega)] at level
      omega
  | call frame callee args =>
      rw [effect] at eq
      simp only [Effect.perform] at eq
      rw [invoke_apply host callee args ((m.withJournal journal).withTop frame) ready.plain] at eq
      cases called : callEffect ((m.withJournal journal).withTop frame)
          ((m.withJournal journal).withTop frame).depth
          ((m.withJournal journal).withTop frame).top.home callee args with
      | failed error heap inside =>
          rw [called] at eq
          cases inside <;> cases eq
      | returned heap output value =>
          rw [called] at eq
          cases eq
          rw [run_idle ran (Nat.le_refl m.depth)]
          rfl
      | entered heap entered =>
          rw [called] at eq
          cases eq
          have above : ((((m.withJournal journal).withTop frame).withHeap heap).withFrame
              entered).Above (m.callers.push frame) := ⟨#[], Array.append_empty.symm⟩
          obtain ⟨value, top, _⟩ := run_back host ready₁ above ran
          rw [top]
          rfl

/-- The current frame carries out its instructions straight through, without a branch and
    without a return; the numbers are the offsets at which they are fetched. -/
inductive Passes (host : Host) (code : Code) : Machine → List Nat → Machine → Prop where
  | nil (m : Machine) : Passes host code m [] m
  | cons {m m₁ m' : Machine} {pc : Nat} {pcs : List Nat}
      (fetches : m.top.activity = .running code pc) (straight : m.top.branches = false)
      (strides : Strides host m m₁) (rest : Passes host code m₁ pcs m') :
      Passes host code m (pc :: pcs) m'

theorem Strides.ready {host : Host} {m m' : Machine} (ready : m.Ready) (strides : Strides host m m') :
    m'.Ready := by
  obtain ⟨m₁, fuel, stepped, ran, _⟩ := strides
  have first := step_grows host ready
  rw [stepped, after_ok] at first
  have second := run_grows host m.depth fuel (first.ready ready)
  rw [ran, after_ok] at second
  exact second.ready (first.ready ready)

/-- A stride carries out an instruction that there is. -/
theorem Strides.fetches {host : Host} {m m' : Machine} {code : Code} {pc : Nat}
    (doing : m.top.activity = .running code pc) (strides : Strides host m m') :
    ∃ op operand, code.fetch pc = .ok (op, operand) := by
  obtain ⟨m₁, fuel, stepped, _⟩ := strides
  unfold step at stepped
  rw [doing] at stepped
  cases found : code.fetch pc with
  | error e =>
      simp only [found] at stepped
      cases stepped
  | ok instruction => exact ⟨instruction.1, instruction.2, rfl⟩

/-- The instructions of a program are fetched one after the other, each where it begins. The
    induction is on the strides; `done` are the instructions that have been carried out. -/
theorem Passes.sites {host : Host} {code : Code} {m m' : Machine} {pcs : List Nat}
    (passes : Passes host code m pcs m') (ready : m.Ready) {done rest : List Instruction}
    (fits : ∀ i ∈ rest, i.Fits) (held : code.words.toList = assemble done ++ assemble rest)
    (start : m.top.activity = .running code (assemble done).length) :
    ∃ more ahead, rest = more ++ ahead ∧
      pcs = (placed (assemble done).length more).map Prod.fst ∧
      m'.top.activity = .running code (assemble (done ++ more)).length := by
  induction passes generalizing done rest with
  | nil m => exact ⟨[], rest, rfl, rfl, by simpa using start⟩
  | cons fetches straight strides _ ih =>
      rw [start] at fetches
      cases fetches
      cases rest with
      | nil =>
          obtain ⟨op, operand, found⟩ := strides.fetches start
          have size : (assemble done).length = code.words.size := by
            rw [← Array.length_toList, held]
            simp [assemble]
          rw [size, code.fetch_end] at found
          cases found
      | cons i rest =>
          obtain ⟨first, others⟩ := List.forall_mem_cons.1 fits
          have words : code.words.toList = assemble done ++ (i.words ++ assemble rest) := held
          have found := code.fetch_instruction first words
          have next : assemble (done ++ [i]) = assemble done ++ i.words := by simp [assemble]
          have length : (assemble (done ++ [i])).length = (assemble done).length + 1 + i.op.width := by
            rw [next, List.length_append, first.length_words, Nat.add_assoc]
          have moved := strides.top ready
          rw [Frame.effect_activity start found straight, ← length] at moved
          have held' : code.words.toList = assemble (done ++ [i]) ++ assemble rest := by
            rw [next, List.append_assoc]
            exact words
          obtain ⟨more, ahead, split, pcs, doing⟩ := ih (strides.ready ready) others held' moved
          refine ⟨i :: more, ahead, congrArg _ split, ?_, ?_⟩
          · simp [placed, pcs, next]
          · simpa using doing

/-- A step fetches the instruction at its offset, writes its note, moves on to the next
    instruction and carries it out. -/
theorem step_of_fetch (host : Host) {m : Machine} {code : Code} {pc operand : Nat} {op : Opcode}
    (doing : m.top.activity = .running code pc) (found : code.fetch pc = .ok (op, operand)) :
    ∃ journal, step host m =
      execute host code pc op operand ((m.withJournal journal).jump (pc + 1 + op.width)) := by
  unfold step
  simp only [doing, found]
  obtain ⟨journal, noted⟩ := noteIf_eq m m.config.trace .trace fun m =>
    m.traceLine code pc op operand
  exact ⟨journal, by rw [noted]⟩

/-- A listing is lossless and agrees with execution. It determines the words of any code,
    well formed or not. The code of a sequence of instructions has exactly one line for each of
    them, with the offset where it begins and its operand. There a step fetches it, from there
    the step moves on to the offset of the next line, and a frame that executes the code
    straight through fetches at the offsets of the lines and at no others, in their order. -/
theorem listing_determines_words_and_fetches :
    (∀ words : List UInt16, Listing.words? (listing words) = some words) ∧
    ∀ program : List Instruction, (∀ i ∈ program, i.Fits) →
      Listing.lines? (listing (assemble program)) =
        some ((placed 0 program).map fun site => site.2.text site.1) ∧
      ∀ code : Code, code.words.toList = assemble program →
        (∀ site ∈ placed 0 program,
          code.fetch site.1 = .ok (site.2.op, site.2.operand) ∧
          ∀ (host : Host) (m : Machine), m.top.activity = .running code site.1 →
            ∃ journal, step host m = execute host code site.1 site.2.op site.2.operand
              ((m.withJournal journal).jump (site.1 + site.2.words.length))) ∧
        ∀ (host : Host) (m m' : Machine) (pcs : List Nat), m.Ready →
          m.top.activity = .running code 0 → Passes host code m pcs m' →
            ∃ done rest, program = done ++ rest ∧ pcs = (placed 0 done).map Prod.fst ∧
              m'.top.activity = .running code (assemble done).length := by
  refine ⟨Listing.words?_listing, fun program fits => ⟨?_, fun code held => ⟨?_, ?_⟩⟩⟩
  · rw [Listing.lines?_listing, listingFrom_assemble 0 fits]
  · rintro ⟨pc, i⟩ member
    obtain ⟨done, rest, rfl, start⟩ := mem_placed member
    have small : i.Fits := fits i (by simp)
    have words : code.words.toList = assemble done ++ (i.words ++ assemble rest) := by
      rw [held]
      simp [assemble]
    dsimp only at start ⊢
    rw [Nat.zero_add] at start
    have found : code.fetch pc = .ok (i.op, i.operand) := by
      rw [start]
      exact code.fetch_instruction small words
    refine ⟨found, fun host m doing => ?_⟩
    rw [small.length_words, ← Nat.add_assoc]
    exact step_of_fetch host doing found
  · intro host m m' pcs ready start passes
    obtain ⟨done, rest, split, pcs, doing⟩ :=
      @Passes.sites host code m m' pcs passes ready [] program fits held start
    exact ⟨done, rest, split, pcs, doing⟩

/-- A loop of three instructions; the operand of the second is the word of a return. -/
theorem listing_determines_words_and_fetches_sample :
    let program : List Instruction := [⟨.pushNull, []⟩, ⟨.storeLocal, [9]⟩, ⟨.branch, [0]⟩]
    let code : Code := ⟨.null, 0, false, 10, #[], #[0, 3, 9, 6, 0], .null⟩
    let start : Machine :=
      { blank default none with top := .ofCode code 0 (Array.replicate 10 .null) }
    let host : Host := fun _ => throw .outOfFuel
    Listing.words? (listing [3, 77, 9, 8]) = some [3, 77, 9, 8] ∧
    (∀ i ∈ program, i.Fits) ∧ code.words.toList = assemble program ∧
    (∃ site ∈ placed 0 program, start.top.activity = .running code site.1) ∧
    start.Ready ∧ ∃ m', Passes host code start [0, 1] m' ∧
      ∃ done rest, program = done ++ rest ∧ [0, 1] = (placed 0 done).map Prod.fst ∧
        m'.top.activity = .running code (assemble done).length := by
  intro program code start host
  have fits : ∀ i ∈ program, i.Fits := by
    have each : ∀ i ∈ program, i.op.width ≤ i.operands.length ∧
      ∀ operand ∈ i.operands.take i.op.width, operand ≤ maxOperand := by decide
    exact fun i member => ⟨(each i member).1, (each i member).2⟩
  have held : code.words.toList = assemble program := by decide
  have ready : start.Ready := by
    refine ⟨Heap.wellFormed_ofConfig default, fun r probe found => ?_⟩
    have empty : start.heap.cell? r = none := by
      rcases r with _ | slot <;> rfl
    rw [Heap.scalar?_eq_some, empty] at found
    cases found
  obtain ⟨lossless, execution⟩ := listing_determines_words_and_fetches
  obtain ⟨lines, along⟩ := execution program fits
  obtain ⟨fetched, straight⟩ := along code held
  refine ⟨lossless _, fits, held, ⟨(0, ⟨.pushNull, []⟩), .head _, rfl⟩, ready, ?_⟩
  have passes : ∃ m', Passes host code start [0, 1] m' := by
    refine ⟨_, .cons rfl (by decide) ⟨_, 1, rfl, rfl, rfl⟩ (.cons rfl (by decide) ⟨_, 1, rfl, rfl, rfl⟩ (.nil _))⟩
  obtain ⟨m', passes⟩ := passes
  exact ⟨m', passes, straight host start m' _ ready rfl passes⟩

end Machine

end LispMachine
