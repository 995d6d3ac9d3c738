import LispMachine.Proofs.Compiler.Emission
import LispMachine.Proofs.Compiler.Outline
import LispMachine.Proofs.Heap.Founded

/-!
# The shapes of forms

The shape of a form says which of its parts are evaluated, and in which order. An
outline serves a list of parts when it compiles them one after the other and
fails on its own only where an operand does not fit. The outline of a form of
right shape serves the parts of the form; that of any other form fails at once. A form
with a list in it that has no end fails at once as well, for want of fuel.
-/

namespace LispMachine

open Compile

namespace Heap

/-- The bindings of a `let`: a proper list of them. -/
def bindings? (h : Heap) (list : Ref) : Option (List (Ref × Option Ref)) :=
  match h.items? list with
  | some items => items.mapM h.binding?
  | none => none

/-- The parts of a form that are evaluated, from left to right; none if the form is
    not of the right shape. The empty list and all that is no pair have no such
    parts. A quotation has exactly one argument, which is not evaluated; a
    conditional has two or three; a `let` has proper bindings and a body. Every
    other form is a call, a proper list, and its head is evaluated unless it is a
    symbol. -/
def parts? (h : Heap) (form : Ref) : Option (List Ref) :=
  match h.pair? form with
  | none => some []
  | some (head, rest) =>
      match h.keyword? head with
      | some .quote =>
          match h.items? rest with
          | some [_] => some []
          | _ => none
      | some .if_ =>
          match h.items? rest with
          | some [condition, consequence] => some [condition, consequence]
          | some [condition, consequence, alternative] => some [condition, consequence, alternative]
          | _ => none
      | some .let_ =>
          match h.items? rest with
          | some (list :: body) =>
              (h.bindings? list).map fun bindings => bindings.filterMap Prod.snd ++ body
          | _ => none
      | _ => (h.items? rest).map fun args => if h.isSymbol head then args else head :: args

end Heap

namespace Machine

/-- The form is a macro call in a module. -/
structure CallsMacro (m : Machine) (home : ModuleId) (call : MacroCall) : Prop where
  plain : m.IsPlainPair call.form call.head call.rest
  found : macroOf? m home call.head = some call.code

/-- The evaluated parts of a call. -/
theorem parts?_of_plain {m : Machine} {form head rest : Ref} (plain : m.IsPlainPair form head rest) :
    m.heap.parts? form =
      (m.heap.items? rest).map fun args => if m.heap.isSymbol head then args else head :: args := by
  obtain ⟨pair, noQuote, noIf, noLet⟩ := plain
  unfold Heap.parts?
  rw [pair]
  dsimp only
  split
  · next same => exact absurd same noQuote
  · next same => exact absurd same noIf
  · next same => exact absurd same noLet
  · rfl

/-- An operand that the code of a form asks for when the draft has come this far: the
    index of one of its constants, one of its slots, the current position as the
    target of a branch, or the number of arguments of the form. -/
inductive Needs (m : Machine) (form : Ref) (d : Draft) : String → Nat → Prop where
  | constant {index : Nat} : index < d.constants.size →
      Needs m form d Opcode.pushConstant.mnemonic index
  | load {slot : Nat} : slot < d.scope.slots → Needs m form d Opcode.loadLocal.mnemonic slot
  | store {slot : Nat} : slot < d.scope.slots → Needs m form d Opcode.storeLocal.mnemonic slot
  | target : Needs m form d "branch target" d.words.size
  | arguments {head rest : Ref} {args : List Ref} : m.IsPlainPair form head rest →
      m.heap.items? rest = some args → Needs m form d Opcode.call.mnemonic args.length

end Machine

/-- The form that was found is not of the shape that it should have. -/
def CompileError.isMalformed : CompileError → Bool
  | .nonSymbolName _ _ => true
  | .improperList _ _ => true
  | .malformedSpecialForm _ _ => true
  | _ => false

theorem Scope.resolve_lt {s : Scope} {name : Ref} {slot : Nat}
    (found : s.resolve name = some slot) : slot < s.slots := by
  have bound : ∀ count position, count ≤ s.locals.size →
      s.lastLocal name count = some position → position < s.locals.size := by
    intro count position inside found
    induction count with
    | zero => cases found
    | succ count ih =>
        unfold lastLocal at found
        split at found
        · split at found
          · cases found
            omega
          · exact ih (by omega) found
        · exact ih (by omega) found
  unfold resolve at found
  cases last : s.lastLocal name s.locals.size with
  | some position =>
      rw [last] at found
      cases found
      have := bound _ _ (Nat.le_refl _) last
      unfold slots
      omega
  | none =>
      rw [last] at found
      obtain ⟨inside, _⟩ := Array.findIdx?_eq_some_iff_getElem.1 found
      unfold slots
      omega

namespace Compile

namespace Outline

variable {needs : Draft → String → Nat → Prop}

/-- From a draft on, the outline compiles exactly these parts in this order, and
    fails on its own only where an operand that is needed is too large. -/
def Serves (needs : Draft → String → Nat → Prop) : List Ref → Outline → Draft → Prop
  | parts, done, _ => parts = []
  | _, fails error, d =>
      ∃ what index, error = .failed (.operandOverflow what index) ∧ maxOperand < index ∧
        needs d what index
  | parts, write change rest, d => Serves needs parts rest (change d)
  | parts, look next, d => Serves needs parts (next d) d
  | parts, part form rest, _ => ∃ later, parts = form :: later ∧ ∀ d, Serves needs later rest d
  | _, expand _, _ => False

section

variable {parts : List Ref} {rest : Outline} {d : Draft}

theorem serves_operand {op : Opcode} {index : Nat} (needed : needs d op.mnemonic index)
    (serves : rest.Serves needs parts (d.write (op.encode [index]))) :
    (operand op index rest).Serves needs parts d := by
  unfold operand
  split
  · next large => exact ⟨_, _, rfl, large, needed⟩
  · exact serves

theorem serves_each (items : List Ref) (serves : ∀ d, rest.Serves needs parts d) (d : Draft) :
    (each items rest).Serves needs (items ++ parts) d := by
  induction items generalizing d with
  | nil => exact serves d
  | cons form items ih => exact ⟨_, rfl, ih⟩

theorem serves_more (items : List Ref) (serves : ∀ d, rest.Serves needs parts d) (d : Draft) :
    (more items rest).Serves needs (items ++ parts) d := by
  induction items generalizing d with
  | nil => exact serves d
  | cons form items ih => exact ⟨_, rfl, ih⟩

theorem serves_body (items : List Ref) (serves : ∀ d, rest.Serves needs parts d) (d : Draft) :
    (body items rest).Serves needs (items ++ parts) d := by
  cases items with
  | nil => exact serves _
  | cons form items => exact ⟨_, rfl, serves_more items serves⟩

theorem serves_stores {slots : List Nat}
    (needed : ∀ (d' : Draft), ∀ slot ∈ slots, d'.scope = d.scope →
      needs d' Opcode.storeLocal.mnemonic slot)
    (serves : ∀ d, rest.Serves needs parts d) : (stores slots rest).Serves needs parts d := by
  induction slots generalizing d with
  | nil => exact serves d
  | cons slot slots ih =>
      refine serves_operand (needed d slot (by simp) rfl) (ih fun d' other member same => ?_)
      exact needed d' other (List.mem_cons_of_mem _ member) same

end

section

variable {m : Machine} {form : Ref} {parts : List Ref} {rest : Outline}

theorem serves_constant (cell : Ref) (serves : ∀ d, rest.Serves (m.Needs form) parts d) (d : Draft) :
    (constant cell rest).Serves (m.Needs form) parts d := by
  have found := (d.addConstant_extends cell).2.1
  exact serves_operand (.constant (Array.getElem?_eq_some_iff.1 found).1) (serves _)

theorem serves_variable (symbol : Ref) (serves : ∀ d, rest.Serves (m.Needs form) parts d)
    (d : Draft) : (variable_ symbol rest).Serves (m.Needs form) parts d := by
  simp only [variable_, Serves]
  cases resolved : d.scope.resolve symbol with
  | some slot => exact serves_operand (.load (Scope.resolve_lt resolved)) (serves _)
  | none =>
      have looked : ∀ d, (plain .loadModuleValue rest).Serves (m.Needs form) parts d := fun _ => serves _
      exact serves_constant symbol looked d

theorem serves_branch {op : Opcode} {rest : Nat → Outline}
    (serves : ∀ position d, (rest position).Serves needs parts d) (d : Draft) :
    (branch op rest).Serves needs parts d := by
  show Serves needs parts (operand op 9999 (rest d.words.size)) d
  rw [operand, if_neg (by decide)]
  exact serves _ _

theorem serves_land (position : Nat) (serves : ∀ d, rest.Serves (m.Needs form) parts d) (d : Draft) :
    (Outline.land position rest).Serves (m.Needs form) parts d := by
  show Serves (m.Needs form) parts (if maxOperand < d.words.size then _ else _) d
  split
  · next large => exact ⟨_, _, rfl, large, .target⟩
  · exact serves _

theorem serves_choice (condition consequence : Ref) (alternative : Option Ref) (d : Draft) :
    (choice condition consequence alternative done).Serves (m.Needs form)
      (condition :: consequence :: alternative.toList) d := by
  have ending : ∀ d, done.Serves (m.Needs form) [] d := fun _ => rfl
  refine ⟨_, rfl, serves_branch fun toAlternative d => ⟨_, rfl, ?_⟩⟩
  refine serves_branch fun toEnd d => serves_land _ (fun d => ?_) d
  cases alternative with
  | none => exact serves_land toEnd ending _
  | some alternative => exact ⟨[], rfl, serves_land toEnd ending⟩

theorem serves_inScope (parsed : List (Ref × Option Ref)) (items : List Ref) (d : Draft) :
    (inScope parsed items done).Serves (m.Needs form) items d := by
  have finish : ∀ d' : Draft, (body items (write (fun d' =>
      { d' with scope := d'.scope.release d.scope.mark }) done)).Serves (m.Needs form) items d' := by
    intro d'
    have released : ∀ d'' : Draft, (write (fun d' =>
      { d' with scope := d'.scope.release d.scope.mark }) done).Serves (m.Needs form) [] d'' :=
        fun _ => rfl
    have served := serves_body items released d'
    rwa [List.append_nil] at served
  refine serves_stores (d := { d with scope := (d.scope.bindAll parsed).1 })
    (fun d' slot member same => ?_) finish
  rw [Scope.bindAll_eq, List.mem_reverse] at member
  have bound := mem_storeSlots member
  rw [← Scope.slots_bindAll] at bound
  exact .store (by rw [same]; exact bound)

theorem serves_arguments {head rest : Ref} {args : List Ref} (plain : m.IsPlainPair form head rest)
    (found : m.heap.items? rest = some args) (d : Draft) :
    (arguments args).Serves (m.Needs form) args d := by
  have called : ∀ d, (operand .call args.length done).Serves (m.Needs form) [] d :=
    fun d => serves_operand (.arguments plain found) rfl
  have served := serves_each args called d
  rwa [List.append_nil] at served

end

end Outline

/-! ## What the compiler finds -/

/-- Why a form is not taken apart: it is not of the right shape, or a list that is the place
    itself or lies below it has no end. -/
inductive Obstacle (m : Machine) (place : Ref) : Stop CompileError → Prop where
  | malformed {error : CompileError} : error.isMalformed = true → Obstacle m place (.failed error)
  | endless {list : Ref} : Relation.ReflTransGen m.heap.HasHalf place list →
      m.heap.isEndless list = true → Obstacle m place .outOfFuel

section

variable {m : Machine} {place : Ref} {error : Stop CompileError}

/-- What is in the way of a part is in the way of the whole. -/
theorem Obstacle.above {part : Ref} (obstacle : Obstacle m part error)
    (below : Relation.ReflTransGen m.heap.HasHalf place part) : Obstacle m place error := by
  cases obstacle with
  | malformed own => exact .malformed own
  | endless way endless => exact .endless (below.trans way) endless

/-- Below a place with bounded ways, only a wrong shape is in the way. -/
theorem Obstacle.malformed_of_within {n : Nat} (obstacle : Obstacle m place error)
    (within : Bounded m.heap.HasHalf n place) :
    ∃ own, error = .failed own ∧ own.isMalformed = true := by
  cases obstacle with
  | malformed own => exact ⟨_, rfl, own⟩
  | endless way endless =>
      rcases Relation.reflTransGen_iff_eq_or_transGen.1 way with rfl | way
      · rw [Heap.isEndless_of_within within] at endless
        cases endless
      · obtain ⟨k, _, within'⟩ := within.descend way
        rw [Heap.isEndless_of_within within'] at endless
        cases endless

/-- Whatever is in the way, it is not the depth of expansions. -/
theorem Obstacle.ne_recursion (obstacle : Obstacle m place error) (depth : Nat) :
    error ≠ .failed (.macroRecursion depth) := by
  rintro rfl
  cases obstacle with
  | malformed own => cases own

end

theorem itemsOf_cases (list form : Ref) (context : String) (m : Machine) :
    (∃ items, itemsOf list form context m = .ok items ∧ m.heap.items? list = some items) ∨
      ∃ error, itemsOf list form context m = .error error ∧ m.heap.items? list = none ∧
        Obstacle m list error := by
  unfold itemsOf
  cases m.heap.items? list with
  | some items => exact .inl ⟨items, rfl, rfl⟩
  | none =>
      dsimp only
      split
      · next endless => exact .inr ⟨_, rfl, rfl, .endless .refl endless⟩
      · exact .inr ⟨_, rfl, rfl, .malformed rfl⟩

theorem bindingOf_cases (form binding : Ref) (m : Machine) :
    (∃ parsed, bindingOf form binding m = .ok parsed ∧ m.heap.binding? binding = some parsed) ∨
      ∃ error, bindingOf form binding m = .error error ∧ m.heap.binding? binding = none ∧
        Obstacle m binding error := by
  have named : ∀ (name : Ref) (value : Option Ref),
      (∃ parsed, (symbolOf name "let binding name" m).map (fun _ => (name, value)) = .ok parsed ∧
        (if m.heap.isSymbol name then some (name, value) else none) = some parsed) ∨
      ∃ error, (symbolOf name "let binding name" m).map (fun _ => (name, value)) = .error error ∧
        (if m.heap.isSymbol name then some (name, value) else none) = none ∧
        Obstacle m binding error := by
    intro name value
    unfold symbolOf
    split
    · exact .inl ⟨_, rfl, rfl⟩
    · exact .inr ⟨_, rfl, rfl, .malformed rfl⟩
  unfold bindingOf Heap.binding?
  cases m.heap.isSymbol binding with
  | true => exact .inl ⟨_, rfl, rfl⟩
  | false =>
      rcases itemsOf_cases binding form "let binding" m with
        ⟨items, found, same⟩ | ⟨error, failed, none_, obstacle⟩
      · rw [found, same]
        rcases items with _ | ⟨name, _ | ⟨value, _ | ⟨_, _⟩⟩⟩
        · exact .inr ⟨_, rfl, rfl, .malformed rfl⟩
        · exact named name none
        · exact named name (some value)
        · exact .inr ⟨_, rfl, rfl, .malformed rfl⟩
      · rw [failed, none_]
        exact .inr ⟨error, rfl, rfl, obstacle⟩

theorem bindingsOf_cases (form : Ref) (m : Machine) (items : List Ref) :
    (∃ parsed, bindingsOf form m items = .ok parsed ∧ items.mapM m.heap.binding? = some parsed) ∨
      ∃ error, bindingsOf form m items = .error error ∧ items.mapM m.heap.binding? = none ∧
        ∃ binding ∈ items, Obstacle m binding error := by
  induction items with
  | nil => exact .inl ⟨[], rfl, rfl⟩
  | cons item items ih =>
      rw [bindingsOf]
      rcases bindingOf_cases form item m with ⟨first, found, same⟩ | ⟨error, failed, none_, obstacle⟩
      · rw [found]
        rcases ih with ⟨parsed, later, same'⟩ | ⟨error, failed, none_, binding, member, obstacle⟩
        · exact .inl ⟨first :: parsed, by simp [later, Except.map], by simp [same, same']⟩
        · exact .inr ⟨error, by simp [failed, Except.map], by simp [same, none_],
            binding, List.mem_cons_of_mem _ member, obstacle⟩
      · rw [failed]
        exact .inr ⟨error, rfl, by simp [none_], item, List.mem_cons_self, obstacle⟩

/-- The outline of a form that is no macro call: it fails at once, since something is in the
    way, or it serves the parts of the form. -/
inductive Outline.Fits (m : Machine) (form : Ref) (outline : Outline) : Prop where
  | fails {error : Stop CompileError} : outline = .fails error → Obstacle m form error →
      m.heap.parts? form = none → Fits m form outline
  | serves {parts : List Ref} : m.heap.parts? form = some parts →
      (∀ d, outline.Serves (m.Needs form) parts d) → Fits m form outline

namespace Outline

variable {m : Machine} {form head rest : Ref}

theorem fits_quote (pair : m.heap.pair? form = some (head, rest))
    (keyword : m.heap.keyword? head = some .quote) : (ofQuote m form rest).Fits m form := by
  have below : m.heap.HasHalf form rest := ⟨head, rest, pair, .inr rfl⟩
  unfold ofQuote
  rcases itemsOf_cases rest form "quote" m with
    ⟨items, taken, found⟩ | ⟨error, taken, found, obstacle⟩
  · rw [taken]
    rcases items with _ | ⟨quoted, _ | ⟨_, _⟩⟩
    · exact .fails rfl (.malformed rfl) (by simp [Heap.parts?, pair, keyword, found])
    · have none_ : m.heap.parts? form = some [] := by simp [Heap.parts?, pair, keyword, found]
      exact .serves none_ (serves_constant quoted fun _ => rfl)
    · exact .fails rfl (.malformed rfl) (by simp [Heap.parts?, pair, keyword, found])
  · rw [taken]
    exact .fails rfl (obstacle.above (.single below)) (by simp [Heap.parts?, pair, keyword, found])

theorem fits_if (pair : m.heap.pair? form = some (head, rest))
    (keyword : m.heap.keyword? head = some .if_) : (ofIf m form rest).Fits m form := by
  have below : m.heap.HasHalf form rest := ⟨head, rest, pair, .inr rfl⟩
  unfold ofIf
  rcases itemsOf_cases rest form "if" m with
    ⟨items, taken, found⟩ | ⟨error, taken, found, obstacle⟩
  · rw [taken]
    rcases items with _ | ⟨condition, _ | ⟨consequence, _ | ⟨alternative, _ | ⟨_, _⟩⟩⟩⟩
    · exact .fails rfl (.malformed rfl) (by simp [Heap.parts?, pair, keyword, found])
    · exact .fails rfl (.malformed rfl) (by simp [Heap.parts?, pair, keyword, found])
    · exact .serves (by simp [Heap.parts?, pair, keyword, found])
        (serves_choice condition consequence none)
    · exact .serves (by simp [Heap.parts?, pair, keyword, found])
        (serves_choice condition consequence (some alternative))
    · exact .fails rfl (.malformed rfl) (by simp [Heap.parts?, pair, keyword, found])
  · rw [taken]
    exact .fails rfl (obstacle.above (.single below)) (by simp [Heap.parts?, pair, keyword, found])

theorem fits_let (pair : m.heap.pair? form = some (head, rest))
    (keyword : m.heap.keyword? head = some .let_) : (ofLet m form rest).Fits m form := by
  have below : m.heap.HasHalf form rest := ⟨head, rest, pair, .inr rfl⟩
  unfold ofLet
  rcases itemsOf_cases rest form "let" m with
    ⟨items, taken, found⟩ | ⟨error, taken, found, obstacle⟩
  · rw [taken]
    cases items with
    | nil => exact .fails rfl (.malformed rfl) (by simp [Heap.parts?, pair, keyword, found])
    | cons list body =>
        have first : Relation.ReflTransGen m.heap.HasHalf form list :=
          .head below (Heap.below_of_items? found List.mem_cons_self).to_reflTransGen
        simp only [take]
        rcases itemsOf_cases list form "let binding list" m with
          ⟨bindings, taken, listed⟩ | ⟨error, taken, listed, obstacle⟩
        · rw [taken]
          dsimp only
          rcases bindingsOf_cases form m bindings with
            ⟨parsed, same, bound⟩ | ⟨error, same, bound, binding, member, obstacle⟩
          · rw [same]
            exact .serves
              (by simp [Heap.parts?, Heap.bindings?, pair, keyword, found, listed, bound])
              (serves_each _ (serves_inScope parsed body))
          · rw [same]
            have inside := first.trans (Heap.below_of_items? listed member).to_reflTransGen
            exact .fails rfl (obstacle.above inside)
              (by simp [Heap.parts?, Heap.bindings?, pair, keyword, found, listed, bound])
        · rw [taken]
          exact .fails rfl (obstacle.above first)
            (by simp [Heap.parts?, Heap.bindings?, pair, keyword, found, listed])
  · rw [taken]
    exact .fails rfl (obstacle.above (.single below)) (by simp [Heap.parts?, pair, keyword, found])

theorem fits_call (plain : m.IsPlainPair form head rest) : (ofCall m form head rest).Fits m form := by
  have parts := Machine.parts?_of_plain plain
  have below : m.heap.HasHalf form rest := ⟨head, rest, plain.1, .inr rfl⟩
  unfold ofCall
  rcases itemsOf_cases rest form "call" m with
    ⟨args, taken, found⟩ | ⟨error, taken, found, obstacle⟩
  · rw [taken]
    have served := serves_arguments plain found
    simp only [take]
    cases symbol : m.heap.isSymbol head with
    | true =>
        have looked : ∀ d, (Outline.plain .loadModuleFunction (arguments args)).Serves
            (m.Needs form) args d := fun d => served _
        exact .serves (by rw [parts, found, Option.map_some, symbol, if_pos rfl])
          (serves_constant head looked)
    | false =>
        have all : m.heap.parts? form = some (head :: args) := by
          rw [parts, found, Option.map_some, symbol]
          rfl
        exact .serves all fun d => ⟨args, rfl, served⟩
  · rw [taken]
    exact .fails rfl (obstacle.above (.single below)) (by rw [parts, found]; rfl)

theorem ofPlain_cases (home : ModuleId) (plain : m.IsPlainPair form head rest) {outline : Outline}
    (same : outline =
      match macroOf? m home head with
      | some code => expand ⟨form, head, rest, code⟩
      | none => ofCall m form head rest) :
    (∃ call : MacroCall, call.form = form ∧ m.CallsMacro home call ∧ outline = expand call) ∨
    ((∀ call : MacroCall, call.form = form → ¬ m.CallsMacro home call) ∧ outline.Fits m form) := by
  cases bound : macroOf? m home head with
  | some code =>
      rw [bound] at same
      exact .inl ⟨⟨form, head, rest, code⟩, rfl, ⟨plain, bound⟩, same⟩
  | none =>
      rw [bound] at same
      rw [same]
      refine .inr ⟨?_, fits_call plain⟩
      rintro call rfl ⟨plain', found⟩
      have heads := plain.1.symm.trans plain'.1
      cases heads
      rw [bound] at found
      cases found

/-- The outline of a form is the expansion of a macro call, or it fits the form. -/
theorem ofForm_cases (home : ModuleId) (m : Machine) (form : Ref) :
    (∃ call : MacroCall, call.form = form ∧ m.CallsMacro home call ∧
      ofForm home m form = expand call) ∨
    ((∀ call : MacroCall, call.form = form → ¬ m.CallsMacro home call) ∧
      (ofForm home m form).Fits m form) := by
  have special : ∀ {head rest : Ref} {keyword : Keyword},
      m.heap.pair? form = some (head, rest) → m.heap.keyword? head = some keyword →
      keyword = .quote ∨ keyword = .if_ ∨ keyword = .let_ →
      ∀ call : MacroCall, call.form = form → ¬ m.CallsMacro home call := by
    rintro head rest keyword pair found syntactic call rfl ⟨⟨pair', noQuote, noIf, noLet⟩, _⟩
    rw [pair] at pair'
    cases pair'
    rcases syntactic with rfl | rfl | rfl
    · exact noQuote found
    · exact noIf found
    · exact noLet found
  cases pair : m.heap.pair? form with
  | none =>
      have atom : m.heap.parts? form = some [] := by rw [Heap.parts?, pair]
      have ending : ∀ d, done.Serves (m.Needs form) [] d := fun _ => rfl
      refine .inr ⟨?_, ?_⟩
      · rintro call rfl ⟨⟨pair', _⟩, _⟩
        rw [pair] at pair'
        cases pair'
      · simp only [ofForm, pair]
        split
        · exact .serves atom ending
        · split
          · exact .serves atom (serves_variable form ending)
          · exact .serves atom (serves_constant form ending)
  | some halves =>
      rcases halves with ⟨head, rest⟩
      have some_ : form.isNull = false := Heap.ne_null_of_pair? pair
      simp only [ofForm, some_, pair, Bool.false_eq_true, if_false]
      cases keyword : m.heap.keyword? head with
      | none => exact ofPlain_cases home ⟨pair, by simp [keyword]⟩ rfl
      | some found =>
          cases found with
          | quote => exact .inr ⟨special pair keyword (by simp), fits_quote pair keyword⟩
          | if_ => exact .inr ⟨special pair keyword (by simp), fits_if pair keyword⟩
          | let_ => exact .inr ⟨special pair keyword (by simp), fits_let pair keyword⟩
          | _ => exact ofPlain_cases home ⟨pair, by simp [keyword]⟩ rfl

end Outline

end Compile

end LispMachine
