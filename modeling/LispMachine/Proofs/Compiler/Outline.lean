import LispMachine.Compiler
import LispMachine.Proofs.Machine.Effect

/-!
# The outline of a form

All questions that the compiler asks about a form it asks of the heap as it finds
it, before it compiles a part of the form. So what it does with a form is laid
down at the start: it fails, it expands a macro call, or it writes code and
compiles the parts in a fixed order. The outline says this as data, and
`emitForm_succ` says that the compiler carries it out. A list that has no end is a
failure too, for want of fuel.
-/

namespace LispMachine

namespace Compile

/-- What the compiler does with one form. It may look at the draft in between, to
    find slots, constants and offsets. -/
inductive Outline where
  | done
  | fails (error : Stop CompileError)
  | write (change : Draft → Draft) (rest : Outline)
  | look (next : Draft → Outline)
  | part (form : Ref) (rest : Outline)
  | expand (call : MacroCall)

namespace Outline

/-- Carries out an outline. -/
def run (emitForm : Ref → Compile Unit) (onMacro : MacroCall → Compile Unit) :
    Outline → Compile Unit
  | done => return ()
  | fails error => throw error
  | write change rest => do
      modifyDraft change
      rest.run emitForm onMacro
  | look next => fun w => (next w.draft).run emitForm onMacro w
  | part form rest => do
      emitForm form
      rest.run emitForm onMacro
  | expand call => onMacro call

/-! ## Pieces

Each piece is followed by the rest of the outline. -/

/-- An instruction without operand. -/
def plain (op : Opcode) (rest : Outline) : Outline := write (fun d => d.write (op.encode [])) rest

/-- An instruction with its operand, if it is not too large. -/
def operand (op : Opcode) (index : Nat) (rest : Outline) : Outline :=
  if maxOperand < index then fails (.failed (.operandOverflow op.mnemonic index))
  else write (fun d => d.write (op.encode [index])) rest

/-- A branch whose target is filled in later; the rest is told where it is. -/
def branch (op : Opcode) (rest : Nat → Outline) : Outline :=
  look fun d => operand op 9999 (rest d.words.size)

/-- The target of a branch. -/
def land (position : Nat) (rest : Outline) : Outline :=
  look fun d =>
    if maxOperand < d.words.size then
      fails (.failed (.operandOverflow "branch target" d.words.size))
    else write (fun d' => d'.patch position d.words.size) rest

/-- A constant. -/
def constant (cell : Ref) (rest : Outline) : Outline :=
  look fun d =>
    write (fun _ => (d.addConstant cell).2) (operand .pushConstant (d.addConstant cell).1 rest)

/-- A variable. -/
def variable_ (symbol : Ref) (rest : Outline) : Outline :=
  look fun d =>
    match d.scope.resolve symbol with
    | some slot => operand .loadLocal slot rest
    | none => constant symbol (plain .loadModuleValue rest)

/-- Forms one after the other. -/
def each (items : List Ref) (rest : Outline) : Outline := items.foldr part rest

/-- Forms after the first of a body. -/
def more (items : List Ref) (rest : Outline) : Outline :=
  items.foldr (fun form rest => plain .pop (part form rest)) rest

/-- A body. -/
def body (items : List Ref) (rest : Outline) : Outline :=
  match items with
  | [] => plain .pushNull rest
  | form :: items => part form (more items rest)

/-- The initial values of bindings. -/
def values (bindings : List (Ref × Option Ref)) (rest : Outline) : Outline :=
  each (bindings.filterMap Prod.snd) rest

/-- Values that are stored into slots. -/
def stores (slots : List Nat) (rest : Outline) : Outline :=
  slots.foldr (fun slot rest => operand .storeLocal slot rest) rest

/-- The names of bindings, and a body that sees them. -/
def inScope (bindings : List (Ref × Option Ref)) (items : List Ref) (rest : Outline) : Outline :=
  look fun d =>
    write (fun _ => { d with scope := (d.scope.bindAll bindings).1 })
      (stores (d.scope.bindAll bindings).2
        (body items (write (fun d' => { d' with scope := d'.scope.release d.scope.mark }) rest)))

/-- A conditional. -/
def choice (condition consequence : Ref) (alternative : Option Ref) (rest : Outline) : Outline :=
  part condition <| branch .branchIfNull fun toAlternative =>
    part consequence <| branch .branch fun toEnd => land toAlternative <|
      match alternative with
      | some alternative => part alternative (land toEnd rest)
      | none => plain .pushNull (land toEnd rest)

/-- The arguments of a call, and the call. -/
def arguments (args : List Ref) : Outline := each args (operand .call args.length done)

/-- What follows when a form is taken apart. -/
def take {α : Type} (result : Except (Stop CompileError) α) (next : α → Outline) : Outline :=
  match result with
  | .ok value => next value
  | .error error => fails error

end Outline

/-! ## Taking forms apart -/

/-- The step asks the machine only, and changes nothing. -/
def Asks {α : Type} (action : Compile α) (answer : Machine → Except (Stop CompileError) α) : Prop :=
  ∀ w, action w =
    match answer w.machine with
    | .ok value => .ok value w
    | .error error => .error error w

/-- The items of a list that is part of a form. -/
def itemsOf (list form : Ref) (context : String) (m : Machine) :
    Except (Stop CompileError) (List Ref) :=
  match m.heap.items? list with
  | some items => .ok items
  | none =>
      if m.heap.isEndless list then .error .outOfFuel
      else .error (.failed (.improperList context (m.display form)))

/-- Whether a cell is a symbol. -/
def symbolOf (cell : Ref) (context : String) (m : Machine) : Except (Stop CompileError) Unit :=
  if m.heap.isSymbol cell then .ok ()
  else .error (.failed (.nonSymbolName context (m.display cell)))

/-- The name and the initial value of a binding. -/
def bindingOf (form binding : Ref) (m : Machine) : Except (Stop CompileError) (Ref × Option Ref) :=
  if m.heap.isSymbol binding then .ok (binding, none)
  else
    match itemsOf binding form "let binding" m with
    | .error error => .error error
    | .ok [name] => (symbolOf name "let binding name" m).map fun _ => (name, none)
    | .ok [name, value] => (symbolOf name "let binding name" m).map fun _ => (name, some value)
    | .ok _ => .error (.failed (.malformedSpecialForm "let binding" (m.display binding)))

/-- The bindings of a list. -/
def bindingsOf (form : Ref) (m : Machine) :
    List Ref → Except (Stop CompileError) (List (Ref × Option Ref))
  | [] => .ok []
  | binding :: rest =>
      match bindingOf form binding m with
      | .error error => .error error
      | .ok binding => (bindingsOf form m rest).map (binding :: ·)

theorem asks_listOf (list form : Ref) (context : String) :
    Asks (listOf list form context) (itemsOf list form context) := by
  intro w
  unfold listOf itemsOf
  cases w.machine.heap.items? list with
  | some items => rfl
  | none =>
      dsimp only
      split <;> rfl

theorem asks_expectSymbol (cell : Ref) (context : String) :
    Asks (expectSymbol cell context) (symbolOf cell context) := by
  intro w
  unfold expectSymbol symbolOf
  split <;> rfl

theorem asks_parseBinding (form binding : Ref) :
    Asks (parseBinding form binding) (bindingOf form binding) := by
  intro w
  simp only [parseBinding, bindingOf, bind_apply, get_apply]
  cases w.machine.heap.isSymbol binding with
  | true => rfl
  | false =>
      simp only [Bool.false_eq_true, if_false, bind_apply, asks_listOf binding form _ w]
      cases itemsOf binding form "let binding" w.machine with
      | error error => rfl
      | ok items =>
          rcases items with _ | ⟨name, _ | ⟨value, _ | ⟨_, _⟩⟩⟩
          · rfl
          · simp only [bind_apply, asks_expectSymbol name _ w]
            cases symbolOf name "let binding name" w.machine <;> rfl
          · simp only [bind_apply, asks_expectSymbol name _ w]
            cases symbolOf name "let binding name" w.machine <;> rfl
          · rfl

theorem asks_parseBindings (form : Ref) (items : List Ref) (parsed : List (Ref × Option Ref)) :
    Asks (parseBindings form items parsed)
      fun m => (bindingsOf form m items).map (parsed.reverse ++ ·) := by
  induction items generalizing parsed with
  | nil =>
      intro w
      simp [parseBindings, bindingsOf, Except.map]
  | cons binding rest ih =>
      intro w
      simp only [parseBindings, bindingsOf, bind_apply, asks_parseBinding form binding w]
      cases bindingOf form binding w.machine with
      | error error => rfl
      | ok binding =>
          simp only [ih (binding :: parsed) w]
          cases bindingsOf form w.machine rest with
          | error error => rfl
          | ok bindings => simp [Except.map]

/-! ## The outline that the compiler follows -/

namespace Outline

/-- The outline of `(quote x)`. -/
def ofQuote (m : Machine) (form rest : Ref) : Outline :=
  take (itemsOf rest form "quote" m) fun
    | [quoted] => constant quoted done
    | _ => fails (.failed (.malformedSpecialForm "quote" (m.display form)))

/-- The outline of a conditional. -/
def ofIf (m : Machine) (form rest : Ref) : Outline :=
  take (itemsOf rest form "if" m) fun
    | [condition, consequence] => choice condition consequence none done
    | [condition, consequence, alternative] =>
        choice condition consequence (some alternative) done
    | _ => fails (.failed (.malformedSpecialForm "if" (m.display form)))

/-- The outline of a `let`. -/
def ofLet (m : Machine) (form rest : Ref) : Outline :=
  take (itemsOf rest form "let" m) fun
    | [] => fails (.failed (.malformedSpecialForm "let" (m.display form)))
    | list :: items =>
        take (itemsOf list form "let binding list" m) fun bindings =>
          take (bindingsOf form m bindings) fun parsed =>
            values parsed (inScope parsed items done)

/-- The outline of a call. -/
def ofCall (m : Machine) (form head rest : Ref) : Outline :=
  take (itemsOf rest form "call" m) fun args =>
    if m.heap.isSymbol head then constant head (plain .loadModuleFunction (arguments args))
    else part head (arguments args)

/-- The outline of a form in a module. -/
def ofForm (home : ModuleId) (m : Machine) (form : Ref) : Outline :=
  if form.isNull then plain .pushNull done
  else
    match m.heap.pair? form with
    | some (head, rest) =>
        match m.heap.keyword? head with
        | some .quote => ofQuote m form rest
        | some .if_ => ofIf m form rest
        | some .let_ => ofLet m form rest
        | _ =>
            match macroOf? m home head with
            | some code => expand ⟨form, head, rest, code⟩
            | none => ofCall m form head rest
    | none => if m.heap.isSymbol form then variable_ form done else constant form done

/-! ## The compiler follows the outline -/

section

variable {emitForm : Ref → Compile Unit} {onMacro : MacroCall → Compile Unit}

theorem run_plain (op : Opcode) (rest : Outline) :
    (plain op rest).run emitForm onMacro = emit op >>= fun _ => rest.run emitForm onMacro := rfl

theorem run_part (form : Ref) (rest : Outline) :
    (part form rest).run emitForm onMacro = emitForm form >>= fun _ => rest.run emitForm onMacro := rfl

theorem run_operand (op : Opcode) (index : Nat) (rest : Outline) :
    (operand op index rest).run emitForm onMacro =
      emitWith op index >>= fun _ => rest.run emitForm onMacro := by
  unfold operand emitWith
  split <;> rfl

theorem run_branch (op : Opcode) (rest : Nat → Outline) :
    (branch op rest).run emitForm onMacro =
      emitBranch op >>= fun position => (rest position).run emitForm onMacro := by
  funext w
  have opened : (branch op rest).run emitForm onMacro w =
    (operand op 9999 (rest w.draft.words.size)).run emitForm onMacro w := rfl
  rw [opened, run_operand]
  rfl

theorem run_land (position : Nat) (rest : Outline) :
    (Outline.land position rest).run emitForm onMacro =
      Compile.land position >>= fun _ => rest.run emitForm onMacro := by
  funext w
  have opened : (Outline.land position rest).run emitForm onMacro w =
    (if maxOperand < w.draft.words.size then
        fails (.failed (.operandOverflow "branch target" w.draft.words.size))
      else write (fun d' => d'.patch position w.draft.words.size) rest).run emitForm onMacro w := rfl
  rw [opened, bind_apply, Compile.land, bind_apply]
  simp only [Compile.position]
  split <;> rfl

theorem run_constant (cell : Ref) (rest : Outline) :
    (constant cell rest).run emitForm onMacro =
      emitConstant cell >>= fun _ => rest.run emitForm onMacro := by
  funext w
  have opened : (constant cell rest).run emitForm onMacro w =
    (operand .pushConstant (w.draft.addConstant cell).1 rest).run emitForm onMacro
      ⟨w.machine, (w.draft.addConstant cell).2⟩ := rfl
  rw [opened, run_operand]
  rfl

theorem run_each (items : List Ref) (rest : Outline) :
    (each items rest).run emitForm onMacro =
      emitEach emitForm items >>= fun _ => rest.run emitForm onMacro := by
  induction items with
  | nil => rfl
  | cons form items ih =>
      have opened : (each (form :: items) rest).run emitForm onMacro =
        emitForm form >>= fun _ => (each items rest).run emitForm onMacro := rfl
      rw [opened, ih, emitEach, bind_assoc]

theorem run_more (items : List Ref) (rest : Outline) :
    (more items rest).run emitForm onMacro =
      emitMore emitForm items >>= fun _ => rest.run emitForm onMacro := by
  induction items with
  | nil => rfl
  | cons form items ih =>
      have opened : (more (form :: items) rest).run emitForm onMacro =
        emit .pop >>= fun _ => emitForm form >>= fun _ => (more items rest).run emitForm onMacro := rfl
      simp only [opened, ih, emitMore, bind_assoc]

theorem run_body (items : List Ref) (rest : Outline) :
    (body items rest).run emitForm onMacro =
      emitBody emitForm items >>= fun _ => rest.run emitForm onMacro := by
  cases items with
  | nil => rfl
  | cons form items =>
      have opened : (body (form :: items) rest).run emitForm onMacro =
        emitForm form >>= fun _ => (more items rest).run emitForm onMacro := rfl
      simp only [opened, run_more, emitBody, bind_assoc]

theorem run_values (bindings : List (Ref × Option Ref)) (rest : Outline) :
    (values bindings rest).run emitForm onMacro =
      emitValues emitForm bindings >>= fun _ => rest.run emitForm onMacro := by
  rw [values, run_each]
  congr 1
  induction bindings with
  | nil => rfl
  | cons binding bindings ih =>
      rcases binding with ⟨name, _ | value⟩
      · exact ih
      · simp only [List.filterMap_cons, emitEach, emitValues, ih]

theorem run_stores (slots : List Nat) (rest : Outline) :
    (stores slots rest).run emitForm onMacro =
      emitStores slots >>= fun _ => rest.run emitForm onMacro := by
  induction slots with
  | nil => rfl
  | cons slot slots ih =>
      have opened : stores (slot :: slots) rest = operand .storeLocal slot (stores slots rest) := rfl
      rw [opened, run_operand, ih, emitStores, bind_assoc]

theorem run_take {α : Type} {action : Compile α} {answer : Machine → Except (Stop CompileError) α}
    (asks : Asks action answer) {work : α → Compile Unit} {next : α → Outline} (w : Workbench)
    (same : ∀ a, work a w = (next a).run emitForm onMacro w) :
    (action >>= work) w = (take (answer w.machine) next).run emitForm onMacro w := by
  rw [bind_apply, asks w]
  cases answer w.machine with
  | error error => rfl
  | ok value => exact same value

theorem emitQuote_eq (form rest : Ref) (w : Workbench) :
    emitQuote form rest w = (ofQuote w.machine form rest).run emitForm onMacro w := by
  refine run_take (asks_listOf rest form "quote") w fun items => ?_
  rcases items with _ | ⟨quoted, _ | ⟨_, _⟩⟩
  · rfl
  · simp only [run_constant]
    exact (congrFun (bind_pure (emitConstant quoted)) w).symm
  · rfl

theorem run_choice (condition consequence : Ref) (alternative : Option Ref) :
    (choice condition consequence alternative done).run emitForm onMacro =
      emitChoice emitForm condition consequence alternative := by
  have last : ∀ position : Nat,
      (Outline.land position done).run emitForm onMacro = Compile.land position :=
    fun position => (run_land position done).trans (bind_pure (Compile.land position))
  have opened : (choice condition consequence alternative done).run emitForm onMacro =
      emitForm condition >>= fun _ =>
        (branch .branchIfNull fun toAlternative =>
          part consequence <| branch .branch fun toEnd => Outline.land toAlternative <|
            match alternative with
            | some alternative => part alternative (Outline.land toEnd done)
            | none => plain .pushNull (Outline.land toEnd done)).run emitForm onMacro := rfl
  rw [opened, emitChoice]
  refine congrArg _ (funext fun _ => ?_)
  rw [run_branch]
  refine congrArg _ (funext fun toAlternative => ?_)
  refine congrArg (emitForm consequence >>= ·) (funext fun _ => ?_)
  rw [run_branch]
  refine congrArg _ (funext fun toEnd => ?_)
  rw [run_land]
  refine congrArg _ (funext fun _ => ?_)
  cases alternative with
  | some alternative => exact congrArg (emitForm alternative >>= ·) (funext fun _ => last toEnd)
  | none => exact congrArg (emit .pushNull >>= ·) (funext fun _ => last toEnd)

theorem emitIf_eq (form rest : Ref) (w : Workbench) :
    emitIf emitForm form rest w = (ofIf w.machine form rest).run emitForm onMacro w := by
  refine run_take (asks_listOf rest form "if") w fun items => ?_
  rcases items with _ | ⟨condition, _ | ⟨consequence, _ | ⟨alternative, _ | ⟨_, _⟩⟩⟩⟩
  · rfl
  · rfl
  · simp only [run_choice]
  · simp only [run_choice]
  · rfl

theorem run_inScope (bindings : List (Ref × Option Ref)) (items : List Ref) (w : Workbench) :
    (do
      let (mark, stores) ← onDraft fun ⟨scope, constants, words⟩ =>
        let mark := scope.mark
        let (scope, stores) := scope.bindAll bindings
        ((mark, stores), ⟨scope, constants, words⟩)
      emitStores stores
      emitBody emitForm items
      modifyDraft fun d => { d with scope := d.scope.release mark } : Compile Unit) w =
      (inScope bindings items done).run emitForm onMacro w := by
  have opened : (inScope bindings items done).run emitForm onMacro w =
      (stores (w.draft.scope.bindAll bindings).2
        (body items (write (fun d' => { d' with scope := d'.scope.release w.draft.scope.mark })
          done))).run emitForm onMacro
        ⟨w.machine, { w.draft with scope := (w.draft.scope.bindAll bindings).1 }⟩ := rfl
  rw [opened, run_stores, run_body]
  rfl

theorem emitLet_eq (form rest : Ref) (w : Workbench) :
    emitLet emitForm form rest w = (ofLet w.machine form rest).run emitForm onMacro w := by
  refine run_take (asks_listOf rest form "let") w fun items => ?_
  cases items with
  | nil => rfl
  | cons list items =>
      refine run_take (asks_listOf list form "let binding list") w fun bindings => ?_
      have asks : Asks (parseBindings form bindings []) fun m => bindingsOf form m bindings := by
        intro w
        rw [asks_parseBindings form bindings [] w]
        dsimp only
        cases bindingsOf form w.machine bindings <;> rfl
      refine run_take asks w fun parsed => ?_
      rw [run_values]
      simp only [bind_apply]
      cases emitValues emitForm parsed w with
      | error e w' => rfl
      | ok _ w' => exact run_inScope parsed items w'

theorem emitCall_eq (form head rest : Ref) (w : Workbench) :
    emitCall emitForm form head rest w =
      (ofCall w.machine form head rest).run emitForm onMacro w := by
  have ending : ∀ args : List Ref, (arguments args).run emitForm onMacro =
      emitEach emitForm args >>= fun _ => emitWith .call args.length := by
    intro args
    rw [arguments, run_each]
    refine congrArg _ (funext fun _ => ?_)
    rw [run_operand]
    exact bind_pure (emitWith .call args.length)
  refine run_take (asks_listOf rest form "call") w fun args => ?_
  simp only [bind_apply, get_apply]
  cases w.machine.heap.isSymbol head with
  | true =>
      simp only [if_true, run_constant, run_plain, ending]
  | false =>
      simp only [Bool.false_eq_true, if_false]
      rw [show (part head (arguments args)).run emitForm onMacro =
        emitForm head >>= fun _ => (arguments args).run emitForm onMacro from rfl, ending]

theorem emitVariable_eq (symbol : Ref) (w : Workbench) :
    emitVariable symbol w = (variable_ symbol done).run emitForm onMacro w := by
  have opened : (variable_ symbol done).run emitForm onMacro w =
      (match w.draft.scope.resolve symbol with
        | some slot => operand .loadLocal slot done
        | none => constant symbol (plain .loadModuleValue done)).run emitForm onMacro w := rfl
  rw [opened]
  simp only [emitVariable, bind_apply, get_apply]
  cases w.draft.scope.resolve symbol with
  | some slot =>
      simp only [run_operand]
      exact (congrFun (bind_pure (emitWith .loadLocal slot)) w).symm
  | none => simp only [run_constant]; rfl

theorem emitConstant_eq (cell : Ref) (w : Workbench) :
    emitConstant cell w = (constant cell done).run emitForm onMacro w := by
  rw [run_constant]
  exact (congrFun (bind_pure (emitConstant cell)) w).symm

end

end Outline

/-- The compiler carries out the outline of a form. -/
theorem emitForm_succ (home : ModuleId) (onMacro : MacroCall → Compile Unit) (fuel : Nat)
    (form : Ref) (w : Workbench) :
    emitForm home onMacro (fuel + 1) form w =
      (Outline.ofForm home w.machine form).run (emitForm home onMacro fuel) onMacro w := by
  -- What a head without a special meaning leads to.
  have plain : ∀ head rest : Ref,
      ((do
        match macroOf? (← get).machine home head with
        | some code => onMacro ⟨form, head, rest, code⟩
        | none => emitCall (emitForm home onMacro fuel) form head rest) : Compile Unit) w =
      (match macroOf? w.machine home head with
        | some code => Outline.expand ⟨form, head, rest, code⟩
        | none => Outline.ofCall w.machine form head rest).run (emitForm home onMacro fuel)
          onMacro w := by
    intro head rest
    simp only [bind_apply, get_apply]
    cases macroOf? w.machine home head with
    | some code => rfl
    | none => exact Outline.emitCall_eq form head rest w
  unfold Outline.ofForm
  rw [emitForm]
  cases form.isNull with
  | true => rfl
  | false =>
      simp only [Bool.false_eq_true, if_false, bind_apply, get_apply]
      cases w.machine.heap.pair? form with
      | none =>
          simp only [bind_apply, get_apply]
          cases w.machine.heap.isSymbol form with
          | true => exact Outline.emitVariable_eq form w
          | false => exact Outline.emitConstant_eq form w
      | some halves =>
          rcases halves with ⟨head, rest⟩
          simp only [bind_apply, get_apply]
          cases w.machine.heap.keyword? head with
          | none => exact plain head rest
          | some keyword =>
              cases keyword with
              | quote => exact Outline.emitQuote_eq form rest w
              | if_ => exact Outline.emitIf_eq form rest w
              | let_ => exact Outline.emitLet_eq form rest w
              | _ => exact plain head rest

end Compile

end LispMachine
