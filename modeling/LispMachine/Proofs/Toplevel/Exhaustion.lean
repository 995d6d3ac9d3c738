import LispMachine.Proofs.Machine.Exhaustion
import LispMachine.Proofs.Twins.Collecting

/-!
# Running out of cells lasts until a collection

A form is read before the collection that goes ahead of its evaluation, and reading takes
cells. So a text that ends for want of a cell leaves a machine that reads nothing more
than the empty list and known symbols, whatever garbage it holds, until someone asks for a
collection.
-/

namespace LispMachine

open Machine

/-! ## Compiling -/

namespace Compile

section

variable {host : Host} (answers : HostSpends host) (fuel : Nat)

include answers

/-- A compilation fails for want of a cell where a macro does. -/
def exhausting : Contract (expandWith host fuel) where
  holds _ := True
  covers _ := True
  allows m error := error.isLimit true = true → m.heap.IsExhausted
  own _ error own lacks := by
    cases error with
    | macroExpansion _ _ => cases own
    | heap _ => cases own
    | _ => cases lacks
  noted _ _ _ := trivial
  found _ _ _ _ _ _ := trivial
  runs code args m _ _ _ := by
    refine ⟨trivial, ?_⟩
    cases done : expandWith host fuel code args m with
    | ok value m' => trivial
    | error e m' =>
        cases e with
        | outOfFuel => trivial
        | failed cause => exact spends_expandWith answers fuel code args m _ m' done

theorem drains_of_allowed {action : Action CompileError Code}
    (allowed : ∀ m, Allowed (exhausting answers fuel).allows (action m)) :
    Drains Machine.heap (Stop.Tells (CompileError.isLimit true)) action := by
  intro m e m' failed lacks
  have within := allowed m
  rw [failed] at within
  cases e with
  | failed error => exact within lacks
  | outOfFuel => cases lacks

theorem drains_function (home : ModuleId) (name params : Ref) (body : List Ref) :
    Drains Machine.heap (Stop.Tells (CompileError.isLimit true))
      (function (expandWith host fuel) fuel home name params body) :=
  drains_of_allowed answers fuel fun _ =>
    (function_upholds (exhausting answers fuel) trivial fuel home name params body).2

theorem drains_toplevel (home : ModuleId) (form : Ref) :
    Drains Machine.heap (Stop.Tells (CompileError.isLimit true))
      (toplevel (expandWith host fuel) fuel home form) :=
  drains_of_allowed answers fuel fun _ =>
    (toplevel_upholds (exhausting answers fuel) trivial fuel home form).2

end

end Compile

/-! ## Top-level forms -/

namespace Machine

section

variable {ε : Type} {lack : ε → Prop}

theorem drains_installNatives (f : HeapError → ε) (id : ModuleId) (natives : List Native) :
    Drains Machine.heap lack (installNatives f id natives) := by
  induction natives with
  | nil => exact drains_pure ()
  | cons native rest ih =>
      refine Drains.bind ?_ fun _ => ih
      refine (drains_intern f _).bind fun name => ?_
      exact (drains_onHeap f (Heap.drains_alloc _)).bind fun cell => drains_modify _

theorem drains_ensureModule (f : HeapError → ε) (name : Ref) :
    Drains Machine.heap lack (ensureModule f name) := by
  refine Drains.get fun m => ?_
  split
  · exact drains_pure _
  · refine Drains.bind ?_ fun id => ?_
    · refine Drains.get fun m => Drains.bind (drains_onHeap f ?_) fun created => ?_
      · exact (Heap.drains_alloc _).bind fun cell => drains_pure _
      · exact (drains_modify _).bind fun _ => drains_pure _
    · refine (drains_installNatives f id _).bind fun _ => (drains_modify _).bind fun _ => ?_
      exact (drains_modify _).bind fun _ => drains_pure id

end

/-- The evaluation leaves no room in the heap when it fails for want of a cell. -/
abbrev Consumes {α : Type} (action : Action EvalError α) : Prop :=
  Drains Machine.heap (Stop.Tells (EvalError.isLimit true)) action

theorem consumes_malformed {α : Type} (form : Ref) :
    Consumes (malformedDefinition form : Action EvalError α) := by
  rintro m e m' ⟨⟩ lacks
  cases lacks

theorem consumes_definitionParts (form : Ref) : Consumes (definitionParts form) := by
  intro m e m' failed lacks
  unfold definitionParts at failed
  split at failed
  · cases failed
  · split at failed
    · cases failed
      cases lacks
    · exact consumes_malformed form m e m' failed lacks

theorem consumes_expectName (name : Ref) (context : String) :
    Consumes (expectName name context) := by
  intro m e m' failed lacks
  unfold expectName at failed
  split at failed <;> cases failed
  cases lacks

theorem consumes_wrap {ε α : Type} {kind : ε → Bool} {f : ε → EvalError} {action : Action ε α}
    (same : ∀ e, (f e).isLimit true = kind e)
    (drains : Drains Machine.heap (Stop.Tells kind) action) : Consumes (wrap f action) := by
  intro m e m' failed lacks
  unfold wrap at failed
  cases done : action m with
  | ok value m₁ =>
      rw [done] at failed
      cases failed
  | error e₁ m₁ =>
      rw [done] at failed
      cases failed
      cases e₁ with
      | failed error => exact drains m _ _ done ((same error).symm.trans lacks)
      | outOfFuel => cases lacks

theorem consumes_evalModule {evalIn : ModuleId → Ref → Action EvalError Ref}
    (each : ∀ id form, Consumes (evalIn id form)) (form : Ref) :
    Consumes (evalModule evalIn form) := by
  have all : ∀ id forms, Consumes (evalEach (evalIn id) forms) := by
    intro id forms
    induction forms with
    | nil => exact drains_pure ()
    | cons form rest ih => exact (each id form).bind fun _ => ih
  refine (consumes_definitionParts form).bind fun parts => ?_
  split
  · refine Drains.get fun m => ?_
    split
    · refine (drains_ensureModule _ _).bind fun id => (all id _).bind fun _ => ?_
      exact Drains.get fun m => drains_pure _
    · exact consumes_malformed form
  · exact consumes_malformed form

section

variable {host : Host} (answers : HostSpends host)

include answers

theorem consumes_evalDefinition (fuel : Nat) (wrapCode : Code → Scalar) (home : ModuleId)
    (form : Ref) : Consumes (evalDefinition host fuel wrapCode home form) := by
  refine (consumes_definitionParts form).bind fun parts => ?_
  split
  · refine (consumes_expectName _ _).bind fun _ => ?_
    refine (consumes_wrap (fun _ => rfl) (Compile.drains_function answers fuel home _ _ _)).bind
      fun code => ?_
    refine (drains_onHeap _ (Heap.drains_alloc _)).bind fun cell => ?_
    exact (drains_modify _).bind fun _ => drains_pure _
  · exact consumes_malformed form

theorem consumes_evalExpression (fuel : Nat) (home : ModuleId) (form : Ref) :
    Consumes (evalExpression host fuel home form) := by
  refine (consumes_wrap (fun _ => rfl) (Compile.drains_toplevel answers fuel home form)).bind
    fun code => ?_
  refine (drains_onHeap _ (Heap.drains_alloc _)).bind fun cell => ?_
  exact consumes_wrap (fun _ => rfl) (spends_applyWith answers fuel cell [])

theorem consumes_evalVariable (fuel : Nat) (home : ModuleId) (form : Ref) :
    Consumes (evalVariable host fuel home form) := by
  have defines : ∀ name value, Consumes (defineVariable home name value) := fun name value =>
    (drains_modify _).bind fun _ => (drains_modify _).bind fun _ => drains_pure name
  refine (consumes_definitionParts form).bind fun parts => ?_
  split
  · exact (consumes_expectName _ _).bind fun _ => defines _ _
  · refine (consumes_expectName _ _).bind fun _ => ?_
    exact (consumes_evalExpression answers fuel home _).bind fun value => defines _ value
  · exact consumes_malformed form

theorem consumes_evalIn (fuel : Nat) (home : ModuleId) (form : Ref) :
    Consumes (evalIn host fuel home form) := by
  induction fuel generalizing home form with
  | zero =>
      rintro m e m' ⟨⟩ lacks
      cases lacks
  | succ fuel ih =>
      refine Drains.get fun m => ?_
      split
      · exact consumes_evalDefinition answers fuel _ home form
      · exact consumes_evalDefinition answers fuel _ home form
      · exact consumes_evalVariable answers fuel home form
      · exact consumes_evalModule ih form
      · exact consumes_evalExpression answers fuel home form

theorem consumes_evalFormWith (fuel : Nat) (form : Ref) :
    Consumes (evalFormWith host fuel form) := by
  have kept : ∀ (n : Machine) (count : Nat), (n.unwindTo count).heap = n.heap := fun n count =>
    (congrArg Machine.heap (unwindTo_bare count n)).symm
  intro m e m' failed lacks
  unfold evalFormWith at failed
  dsimp only at failed
  split at failed
  · cases failed
  · next m₁ done =>
      cases failed
      obtain ⟨journal, noted⟩ := noteFailure_eq e m₁
      rw [kept, noted]
      exact consumes_evalIn answers fuel _ form _ e m₁ done lacks

end

/-- The induction is on the fuel, which each re-entry uses up. -/
theorem spends_serve (fuel : Nat) : HostSpends (serve fuel) := by
  induction fuel with
  | zero =>
      rintro request m e m' ⟨⟩ lacks
      cases lacks
  | succ fuel ih =>
      intro request
      cases request with
      | apply callee args => exact spends_applyWith ih fuel callee args
      | eval form =>
          intro m e m' failed lacks
          unfold serve at failed
          split at failed <;> cases failed
          cases lacks

theorem consumes_evalForm (fuel : Nat) (form : Ref) : Consumes (evalForm fuel form) :=
  consumes_evalFormWith (spends_serve fuel) fuel form

end Machine

/-! ## Reading until no cell is left -/

namespace Reader

/-- The step of the reader leaves no room in the heap when it fails for want of a cell. -/
abbrev Takes {α : Type} (x : EStateM ReadError Store α) : Prop :=
  Drains Store.heap (fun e : ReadError => e.isLimit = true) x

theorem takes_onHeap {α : Type} {x : EStateM HeapError Heap α} (drains : Heap.Drains x) :
    Takes (onHeap x) := by
  intro s e s' failed _
  unfold onHeap at failed
  split at failed <;> cases failed
  next done => exact Store.drains_onHeap drains s _ s' done trivial

theorem takes_intern (name : String) : Takes (intern name) := by
  intro s e s' failed _
  unfold intern at failed
  split at failed <;> cases failed
  next done => exact Store.drains_intern name s _ s' done trivial

theorem takes_plug (contexts : List Context) (form : Ref) : Takes (plug contexts form) := by
  induction contexts generalizing form with
  | nil => exact drains_pure _
  | cons context outer ih =>
      cases context with
      | quote =>
          refine (takes_intern _).bind fun quote => ?_
          exact (takes_onHeap (Heap.drains_list _)).bind fun quoted => ih quoted
      | list items => exact drains_pure _
      | tail dot items => exact drains_pure _
      | close dot items tail => exact drains_throw nofun

theorem takes_startForm (contexts : List Context) (token : Token) (start : Nat) :
    Takes (startForm contexts token start) := by
  cases token with
  | openParen => exact drains_pure _
  | closeParen => exact drains_throw nofun
  | quote => exact drains_pure _
  | integer value => exact (takes_onHeap (Heap.drains_alloc _)).bind fun form => takes_plug _ form
  | symbol name =>
      unfold startForm
      dsimp only
      split
      · exact drains_throw nofun
      · exact (takes_intern name).bind fun form => takes_plug _ form

theorem takes_advance (contexts : List Context) (token : Token) (start : Nat) :
    Takes (advance contexts token start) := by
  unfold advance
  split
  · split
    · exact (takes_onHeap (Heap.drains_listWithTail _ _)).bind fun form => takes_plug _ form
    · exact drains_throw nofun
  · split
    · exact (takes_onHeap (Heap.drains_list _)).bind fun form => takes_plug _ form
    · split
      · exact drains_throw nofun
      · exact drains_pure _
    · exact takes_startForm _ _ start
  · exact takes_startForm _ token start

theorem readFrom_drains (length : Nat) (ahead : List Lexeme) {contexts : List Context}
    {s s' : Store} {reader : Reader} {e : ReadError}
    (failed : readFrom length contexts ahead s = .error e (reader, s'))
    (lacks : e.isLimit = true) : s'.heap.IsExhausted := by
  induction ahead generalizing contexts s with
  | nil =>
      cases contexts <;> cases failed
      cases lacks
  | cons lexeme ahead ih =>
      rcases lexeme with ⟨span, e | token⟩
      · cases failed
        cases lacks
      · unfold readFrom at failed
        split at failed
        · next stepped =>
            cases failed
            exact takes_advance _ _ _ s e s' stepped lacks
        · cases failed
        · exact ih failed

end Reader

/-! ## Reading without room -/

/-- Before the dot of an open form there is an item. -/
def Context.Dotted : Context → Prop
  | .tail _ items => items ≠ []
  | .close _ items _ => items ≠ []
  | _ => True

/-- The open forms cannot be finished without a cell: there are several of them, or the
    only one is not a list that is still empty. -/
structure Owing (contexts : List Context) : Prop where
  inside : contexts ≠ []
  begun : contexts ≠ [.list []]
  dotted : ∀ context ∈ contexts, context.Dotted

/-- What a step inside open forms comes to that finds no cell. -/
inductive Stuck (s : Store) : EStateM.Result ReadError Store Progress → Prop where
  | failed (e : ReadError) : Stuck s (.error e s)
  | more {contexts : List Context} : Owing contexts → Stuck s (.ok (.more contexts) s)

namespace Reader

section

variable {s : Store} (exhausted : s.heap.IsExhausted) {contexts : List Context}

include exhausted

theorem alloc_stuck (cell : Cell) : ∃ e, onHeap (Heap.alloc cell) s = .error e s := by
  obtain ⟨e, failed⟩ := exhausted cell
  refine ⟨.heap e, ?_⟩
  unfold onHeap
  rw [Store.onHeap_apply, failed]

theorem listWithTail_stuck {items : List Ref} (some : items ≠ []) (tail : Ref) :
    ∃ e, onHeap (Heap.listWithTail items tail) s = .error e s := by
  obtain ⟨e, failed⟩ := Heap.listWithTail_exhausted exhausted some tail
  refine ⟨.heap e, ?_⟩
  unfold onHeap
  rw [Store.onHeap_apply, failed]

theorem intern_stuck (name : String) :
    (∃ r, s.lookup name = some r ∧ intern name s = .ok r s) ∨
      (s.lookup name = none ∧ ∃ e, intern name s = .error e s) := by
  unfold intern
  rw [Store.intern_apply]
  cases s.lookup name with
  | some r => exact Or.inl ⟨r, rfl, rfl⟩
  | none =>
      obtain ⟨e, failed⟩ := exhausted (.scalar (.symbol name))
      exact Or.inr ⟨rfl, .heap e, by rw [failed]⟩

/-- Inside another form, a finished form helps no further. -/
theorem plug_stuck (inside : contexts ≠ []) (dotted : ∀ context ∈ contexts, context.Dotted)
    (form : Ref) : Stuck s (plug contexts form s) := by
  cases contexts with
  | nil => exact absurd rfl inside
  | cons context outer =>
      obtain ⟨first, others⟩ := List.forall_mem_cons.1 dotted
      cases context with
      | quote =>
          rw [plug, bind_apply]
          rcases intern_stuck exhausted Keyword.quote.name with ⟨r, _, done⟩ | ⟨_, e, done⟩
          · obtain ⟨e, full⟩ := listWithTail_stuck exhausted (List.cons_ne_nil r [form]) .null
            rw [done]
            dsimp only
            rw [bind_apply, Heap.list, full]
            exact .failed e
          · rw [done]
            exact .failed e
      | list items =>
          refine .more ⟨List.cons_ne_nil _ _, by simp, ?_⟩
          exact List.forall_mem_cons.2 ⟨trivial, others⟩
      | tail dot items =>
          refine .more ⟨List.cons_ne_nil _ _, by simp, ?_⟩
          exact List.forall_mem_cons.2 ⟨first, others⟩
      | close dot items tail => exact .failed _

/-- A form begins that owes a cell, unless it is a list outside all others or a known
    symbol there. -/
theorem startForm_stuck (dotted : ∀ context ∈ contexts, context.Dotted) (token : Token)
    (start : Nat) (inside : contexts = [] → token ≠ .openParen ∧
      ∀ name, token = .symbol name → name = "." ∨ s.lookup name = none) :
    Stuck s (startForm contexts token start s) := by
  cases token with
  | openParen =>
      refine .more ⟨List.cons_ne_nil _ _, ?_, List.forall_mem_cons.2 ⟨trivial, dotted⟩⟩
      intro same
      exact (inside (List.cons.inj same).2).1 rfl
  | closeParen => exact .failed _
  | quote =>
      exact .more ⟨List.cons_ne_nil _ _, by simp, List.forall_mem_cons.2 ⟨trivial, dotted⟩⟩
  | integer value =>
      obtain ⟨e, full⟩ := alloc_stuck exhausted (.scalar (.integer value))
      rw [startForm, bind_apply, Heap.integer, Heap.allocScalar, full]
      exact .failed e
  | symbol name =>
      unfold startForm
      dsimp only
      split
      · exact .failed _
      · next other =>
          rw [bind_apply]
          rcases intern_stuck exhausted name with ⟨r, known, done⟩ | ⟨_, e, done⟩
          · rw [done]
            refine plug_stuck exhausted (fun outside => ?_) dotted r
            rcases (inside outside).2 name rfl with dot | unknown
            · exact other dot
            · rw [unknown] at known
              cases known
          · rw [done]
            exact .failed e

/-- A list that is still empty is closed without a cell, but inside another form only. -/
theorem advance_stuck (owing : Owing contexts) (token : Token) (start : Nat) :
    Stuck s (advance contexts token start s) := by
  obtain ⟨inside, begun, dotted⟩ := owing
  have starts : ∀ token, Stuck s (startForm contexts token start s) := fun token =>
    startForm_stuck exhausted dotted token start fun outside => absurd outside inside
  cases contexts with
  | nil => exact absurd rfl inside
  | cons context outer =>
      obtain ⟨first, others⟩ := List.forall_mem_cons.1 dotted
      cases context with
      | quote => exact starts token
      | tail dot items => exact starts token
      | close dot items tail =>
          have some : items.reverse ≠ [] := List.reverse_ne_nil_iff.2 first
          obtain ⟨e, full⟩ := listWithTail_stuck exhausted some tail
          unfold advance
          dsimp only
          split
          · rw [bind_apply, full]
            exact .failed e
          · exact .failed _
      | list items =>
          unfold advance
          dsimp only
          split
          · rw [bind_apply]
            cases items with
            | nil =>
                have within : outer ≠ [] := by
                  rintro rfl
                  exact begun rfl
                exact plug_stuck exhausted within others .null
            | cons item items =>
                have some : (item :: items).reverse ≠ [] := by simp
                obtain ⟨e, full⟩ := listWithTail_stuck exhausted some .null
                rw [Heap.list, full]
                exact .failed e
          · split
            · exact .failed _
            · next some =>
                refine .more ⟨List.cons_ne_nil _ _, by simp, ?_⟩
                exact List.forall_mem_cons.2 ⟨some, others⟩
          · exact starts _

omit exhausted in
theorem readFrom_stuck {length : Nat} {token : Token} {span : Span} {ahead : List Lexeme}
    (step : Stuck s (advance contexts token span.start s))
    (later : ∀ {contexts : List Context}, Owing contexts →
      ∃ e reader, readFrom length contexts ahead s = .error e (reader, s)) :
    ∃ e reader, readFrom length contexts (⟨span, .ok token⟩ :: ahead) s = .error e (reader, s) := by
  unfold readFrom
  generalize advance contexts token span.start s = result at step
  cases step with
  | failed e => exact ⟨_, _, rfl⟩
  | more owing => exact later owing

/-- Forms that are open and owe a cell are never finished. -/
theorem readFrom_owing (length : Nat) (ahead : List Lexeme) (owing : Owing contexts) :
    ∃ e reader, readFrom length contexts ahead s = .error e (reader, s) := by
  induction ahead generalizing contexts with
  | nil =>
      cases contexts with
      | nil => exact absurd rfl owing.inside
      | cons context outer => exact ⟨_, _, rfl⟩
  | cons lexeme ahead ih =>
      rcases lexeme with ⟨span, e | token⟩
      · exact ⟨_, _, rfl⟩
      · exact readFrom_stuck (advance_stuck exhausted owing token span.start) ih

end

end Reader

/-- The text ahead begins with a form that is read without a cell, the empty list or a
    known symbol, or it is at its end. -/
def Store.takesNoCell (s : Store) : List Lexeme → Bool
  | [] => true
  | ⟨_, .ok (.symbol name)⟩ :: _ => name != "." && (s.lookup name).isSome
  | ⟨_, .ok .openParen⟩ :: ⟨_, .ok .closeParen⟩ :: _ => true
  | _ => false

namespace Reader

variable {s : Store} {ahead : List Lexeme}

theorem readFrom_free (length : Nat) (free : s.takesNoCell ahead = true) :
    ∃ form reader, readFrom length [] ahead s = .ok form (reader, s) := by
  unfold Store.takesNoCell at free
  split at free
  · exact ⟨_, _, rfl⟩
  · next span name rest =>
      simp only [Bool.and_eq_true, bne_iff_ne, ne_eq, Option.isSome_iff_exists] at free
      obtain ⟨other, r, known⟩ := free
      have interned : intern name s = .ok r s := by
        unfold intern
        rw [Store.intern_apply, known]
      refine ⟨some r, ⟨rest, span.stop, length⟩, ?_⟩
      simp [readFrom, advance, startForm, other, interned, plug]
  · exact ⟨_, _, rfl⟩
  · cases free

/-- Any other form is not read without a cell. -/
theorem readFrom_full (exhausted : s.heap.IsExhausted) (length : Nat)
    (costs : s.takesNoCell ahead = false) :
    ∃ e reader, readFrom length [] ahead s = .error e (reader, s) := by
  have opened : ∀ ahead, (∀ span rest, ahead ≠ ⟨span, .ok .closeParen⟩ :: rest) →
      ∃ e reader, readFrom length [.list []] ahead s = .error e (reader, s) := by
    intro ahead unclosed
    rcases ahead with _ | ⟨⟨span, e | token⟩, ahead⟩
    · exact ⟨_, _, rfl⟩
    · exact ⟨_, _, rfl⟩
    · refine readFrom_stuck ?_ (readFrom_owing exhausted length ahead)
      have starts := @startForm_stuck s exhausted [.list []]
        (List.forall_mem_singleton.2 trivial) token span.start nofun
      unfold advance
      dsimp only
      split
      · exact absurd rfl (unclosed span ahead)
      · exact .failed _
      · exact starts
  rcases ahead with _ | ⟨⟨span, e | token⟩, ahead⟩
  · cases costs
  · exact ⟨_, _, rfl⟩
  · by_cases opens : token = .openParen
    · subst opens
      refine opened ahead ?_
      rintro span rest rfl
      cases costs
    · refine readFrom_stuck ?_ (readFrom_owing exhausted length ahead)
      refine startForm_stuck exhausted (by simp) token span.start fun _ => ⟨opens, ?_⟩
      rintro name rfl
      simpa [Store.takesNoCell, or_iff_not_imp_left] using costs

end Reader

/-! ## Texts -/

namespace Machine

section

variable {m m' : Machine} {reader : Reader}

theorem readForm_free (free : m.store.takesNoCell reader.ahead = true) :
    ∃ form reader', readForm reader m = (.ok form, reader', m) := by
  obtain ⟨form, reader', done⟩ := Reader.readFrom_free reader.length free
  refine ⟨form, reader', ?_⟩
  unfold readForm Reader.read
  dsimp only
  rw [done]

theorem readForm_full (exhausted : m.heap.IsExhausted)
    (costs : m.store.takesNoCell reader.ahead = false) :
    ∃ e reader', readForm reader m = (.error e, reader', m) := by
  obtain ⟨e, reader', failed⟩ := Reader.readFrom_full exhausted reader.length costs
  refine ⟨e, reader', ?_⟩
  unfold readForm Reader.read
  dsimp only
  rw [failed]

/-- Reading does not change a machine without room. -/
theorem readForm_exhausted (exhausted : m.heap.IsExhausted) (reader : Reader) :
    (readForm reader m).2.2 = m := by
  cases costs : m.store.takesNoCell reader.ahead with
  | true =>
      obtain ⟨form, reader', done⟩ := readForm_free costs
      rw [done]
  | false =>
      obtain ⟨e, reader', failed⟩ := readForm_full exhausted costs
      rw [failed]

theorem readForm_drains {e : ReadError} (failed : (readForm reader m).1 = .error e)
    (lacks : e.isLimit = true) : (readForm reader m).2.2.heap.IsExhausted := by
  unfold readForm Reader.read at failed ⊢
  dsimp only at failed ⊢
  split at failed
  · cases failed
  · next done =>
      cases failed
      exact Reader.readFrom_drains _ _ done lacks

/-- The newest result is a lack of cells only if the machine has no room left. -/
def Spent (results : List FormResult) (m : Machine) : Prop :=
  ∀ error, results.head? = some (.error error) → error.isLimit true = true → m.heap.IsExhausted

/-- The invariant of the loop. A text that ends here has not been changed by reading. -/
theorem evalForms_spent {fuel count : Nat} {results results' : List FormResult}
    (spent : Spent results m) (done : evalForms fuel count reader results m = some (results', m')) :
    Spent results' m' := by
  induction count generalizing reader results m with
  | zero =>
      cases done
      exact spent
  | succ count ih =>
      have drained := fun e => @readForm_drains m reader e
      have same := fun exhausted => @readForm_exhausted m exhausted reader
      unfold evalForms at done
      rcases read : readForm reader m with ⟨outcome, reader₁, m₁⟩
      rw [read] at done drained same
      rcases outcome with e | _ | form
      · cases done
        rintro error ⟨⟩ lacks
        exact drained e rfl lacks
      · cases done
        intro error last lacks
        have exhausted := spent error last lacks
        rwa [show m' = m from same exhausted]
      · dsimp only at done
        cases ended : evalForm fuel form m₁ with
        | ok value m₂ =>
            rw [ended] at done
            refine ih ?_ done
            rintro error ⟨⟩
        | error e m₂ =>
            rw [ended] at done
            cases e with
            | outOfFuel => cases done
            | failed e =>
                refine ih ?_ done
                rintro error ⟨⟩ lacks
                exact consumes_evalForm fuel form m₁ _ m₂ ended lacks

/-- The text ended because no cell could be allocated. -/
def EndsExhausted (results : List FormResult) : Prop :=
  ∃ error, results.getLast? = some (.error error) ∧ error.isLimit true = true

theorem evalText_drains {fuel : Nat} {source : String} {results : List FormResult}
    (done : evalText fuel source m = some (results, m')) (ended : EndsExhausted results) :
    m'.heap.IsExhausted := by
  unfold evalText at done
  dsimp only at done
  split at done
  · cases done
  · next found m₁ ran =>
      cases done
      obtain ⟨error, last, lacks⟩ := ended
      rw [List.getLast?_reverse] at last
      have heap : (m₁.modifyBottom fun stack =>
          stack.drop (stack.length - m.bottom.stack.length)).heap = m₁.heap :=
        (congrArg Machine.heap (modifyBottom_bare m₁ _)).symm
      rw [heap]
      refine evalForms_spent ?_ ran error last lacks
      rintro error ⟨⟩

/-- Without room, a text that begins with a form that takes a cell shows a single failure
    and leaves the machine as it was. -/
theorem evalText_full (idle : m.callers = #[]) (exhausted : m.heap.IsExhausted) {text : String}
    (costs : m.store.takesNoCell (lex text) = false) :
    ∃ e reader', readForm (.ofSource text) m = (.error e, reader', m) ∧
      ∀ fuel, evalText fuel text m = some ([.error (.read e)], m) := by
  obtain ⟨e, reader', failed⟩ := @readForm_full m (.ofSource text) exhausted costs
  refine ⟨e, reader', failed, fun fuel => ?_⟩
  unfold evalText evalForms
  dsimp only
  rw [failed]
  simp [modifyBottom_idle idle, bottom_idle idle, withTop]

end

section

variable {m m' : Machine}

theorem Reached.resting (reached : m.Reached) : m.Resting := by
  induction reached with
  | boot booted => exact .boot booted
  | evalText _ done ih => exact (ih.evalText done).1

/-- What is read after a collection is read before it, unless there is no room. -/
theorem read_lacks (resting : m.Resting) {reader reader' : Reader} {e : ReadError}
    {form : Option Ref} (failed : readForm reader m = (.error e, reader', m'))
    (read : (readForm reader m.collectGarbage.2).1 = .ok form) : ∃ cause, e = .heap cause := by
  obtain ⟨ties, twins⟩ := resting.intact.twins.collect₂
  have both := readForm_twins twins reader
  generalize readForm reader m.collectGarbage.2 = second at both read
  rw [failed] at both
  cases both with
  | failed _ _ _ => cases read
  | limit₂ _ _ => cases read
  | limit₁ lacks _ =>
      cases e with
      | heap cause => exact ⟨cause, rfl⟩
      | _ => cases lacks

/-- A session of texts that each begin with a form that takes a cell. -/
theorem Session.full {sources : List String} {reports : List Report}
    (session : m.Session sources reports) (idle : m.callers = #[])
    (exhausted : m.heap.IsExhausted)
    (costs : ∀ text ∈ sources, m.store.takesNoCell (lex text) = false) :
    ∀ report ∈ reports, ∃ e, report = ⟨[.error (.read e)], m.output⟩ := by
  induction session with
  | nil => simp
  | cons fuel done _ ih =>
      obtain ⟨first, others⟩ := List.forall_mem_cons.1 costs
      obtain ⟨e, _, _, shows⟩ := evalText_full idle exhausted first
      rw [shows fuel] at done
      cases done
      exact List.forall_mem_cons.2 ⟨⟨e, rfl⟩, ih idle exhausted others⟩

end

/-- Running out of cells lasts until a collection. When a text has ended for want of a
    cell, the heap is full. A text that begins with a form that takes a cell then shows a
    single failure of the reader and leaves the machine as it was, however many such texts
    are tried; and if a collection would let the form be read, the failure is the same lack
    of cells again. Apart from such lacks, a text shows the same with and without a
    collection before it. -/
theorem exhaustion_lasts_until_a_collection {m m₁ : Machine} {fuel : Nat} {source : String}
    {results : List FormResult} (reached : m.Reached)
    (done : evalText fuel source m = some (results, m₁)) (ended : EndsExhausted results) :
    m₁.heap.IsFull ∧
    (∀ text, m₁.store.takesNoCell (lex text) = false →
      ∃ e, (∀ fuel, evalText fuel text m₁ = some ([.error (.read e)], m₁)) ∧
        ∀ form, (readForm (.ofSource text) m₁.collectGarbage.2).1 = .ok form →
          ∃ cause, e = .heap cause) ∧
    (∀ sources reports, (∀ text ∈ sources, m₁.store.takesNoCell (lex text) = false) →
      m₁.Session sources reports →
      ∀ report ∈ reports, ∃ e, report = ⟨[.error (.read e)], m₁.output⟩) ∧
    ∀ fuel fuel' text results results' n n', evalText fuel text m₁ = some (results, n) →
      evalText fuel' text m₁.collectGarbage.2 = some (results', n') →
      Unlimited true results → Unlimited true results' →
      results.map n.shown = results'.map n'.shown ∧ n.output = n'.output := by
  have resting : m₁.Resting := (reached.resting.evalText done).1
  have exhausted := evalText_drains done ended
  refine ⟨resting.intact.tidy.wellFormed.isExhausted_iff.1 exhausted, ?_, ?_, ?_⟩
  · intro text costs
    obtain ⟨e, reader', failed, shows⟩ := evalText_full resting.idle exhausted costs
    exact ⟨e, shows, fun form read => read_lacks resting failed read⟩
  · exact fun sources reports costs session => session.full resting.idle exhausted costs
  · intro fuel fuel' text results results' n n' direct collected enough enough'
    obtain ⟨ties, twins⟩ := resting.intact.twins.collect₂
    obtain ⟨ties', twins', _, same⟩ := evalText_twins twins resting.idle direct collected enough
      enough'
    exact ⟨map_shown_twins twins' same, twins'.output⟩

/-- What a text shows in a fresh machine, whether another is then read without a cell, and
    what it shows after a collection. -/
def shownAround (config : Config) (source text : String) :
    Option (List (Except EvalError String) × Bool × List (Except EvalError String)) :=
  match boot config none with
  | .error _ => none
  | .ok m =>
      match evalText 100 source m with
      | none => none
      | some (results, m₁) =>
          match evalText 100 text m₁.collectGarbage.2 with
          | none => none
          | some (results', n) =>
              some (results.map m₁.shown, m₁.store.takesNoCell (lex text), results'.map n.shown)

theorem shownAround_eq {config : Config} {source text : String} {free : Bool}
    {first second : List (Except EvalError String)}
    (shows : shownAround config source text = some (first, free, second)) :
    ∃ m results m₁ results' n, boot config none = .ok m ∧
      evalText 100 source m = some (results, m₁) ∧
      evalText 100 text m₁.collectGarbage.2 = some (results', n) ∧ results.map m₁.shown = first ∧
      m₁.store.takesNoCell (lex text) = free ∧ results'.map n.shown = second := by
  unfold shownAround at shows
  split at shows
  · cases shows
  · next m booted =>
      split at shows
      · cases shows
      · next results m₁ ran =>
          split at shows
          · cases shows
          · next results' n ran' =>
              cases shows
              exact ⟨m, results, m₁, results', n, booted, ran, ran', rfl, rfl, rfl⟩

theorem map_shown_error {m : Machine} {results : List FormResult} {e : EvalError}
    (shows : results.map m.shown = [.error e]) : results = [.error e] := by
  obtain ⟨result, rfl, same⟩ := List.map_eq_singleton_iff.1 shows
  cases result with
  | ok value => cases same
  | error e' =>
      cases same
      rfl

/-- A heap of a single arena has no room left for a list of six integers. -/
theorem shownAround_seven :
    shownAround { arenaSize := 32, maxArenas := some 1 } "(1 2 3 4 5 6)" "7" =
      some ([.error (.read (.heap (.exhausted 1)))], false, [.ok "7"]) := by
  decide +kernel

theorem exhaustion_lasts_until_a_collection_sample :
    ∃ m m₁ e results n, m.Reached ∧
      evalText 100 "(1 2 3 4 5 6)" m = some ([.error (.read (.heap (.exhausted 1)))], m₁) ∧
      (∀ fuel, evalText fuel "7" m₁ = some ([.error (.read e)], m₁)) ∧
      evalText 100 "7" m₁.collectGarbage.2 = some (results, n) ∧
      results.map n.shown = [.ok "7"] := by
  obtain ⟨m, _, m₁, results, n, booted, ran, ran', first, costs, second⟩ :=
    shownAround_eq shownAround_seven
  cases map_shown_error first
  have reached : m.Reached := .boot booted
  obtain ⟨_, tried, _⟩ := exhaustion_lasts_until_a_collection reached ran ⟨_, rfl, rfl⟩
  obtain ⟨e, shows, _⟩ := tried "7" costs
  exact ⟨m, m₁, e, results, n, reached, ran, shows, ran', second⟩

/-- The loop does not repair a machine that has run out of cells: what a text evaluates to
    after a collection, it need not evaluate to without. -/
theorem exhaustion_needs_a_collection :
    ¬ ∀ (config : Config) (m m₁ n : Machine) (fuel : Nat) (source text : String)
      (results results' : List FormResult), config.collects = true → config.gcThreshold = 0 →
      boot config none = .ok m → evalText fuel source m = some (results, m₁) →
      (∃ error, .error error ∈ results ∧ error.isLimit true = true) →
      evalText fuel text m₁.collectGarbage.2 = some (results', n) →
      (∀ result ∈ results', ∃ value, result = .ok value) →
      ∃ fuel results'' n', evalText fuel text m₁ = some (results'', n') ∧
        results''.map n'.shown = results'.map n.shown := by
  intro repaired
  obtain ⟨m, _, m₁, results, n, booted, ran, ran', first, costs, second⟩ :=
    shownAround_eq shownAround_seven
  cases map_shown_error first
  have resting := ((Resting.boot booted).evalText ran).1
  have exhausted : m₁.heap.IsExhausted := evalText_drains ran ⟨_, rfl, rfl⟩
  obtain ⟨e, _, _, shows⟩ := evalText_full resting.idle exhausted costs
  have fine : ∀ result ∈ results, ∃ value, result = .ok value := by
    intro result member
    have shown : n.shown result ∈ [.ok "7"] := by
      rw [← second]
      exact List.mem_map_of_mem member
    cases result with
    | ok value => exact ⟨value, rfl⟩
    | error e => simp [Machine.shown] at shown
  obtain ⟨fuel, results', n', direct, same⟩ := repaired _ m m₁ n 100 _ "7" _ results rfl rfl booted
    ran ⟨_, List.mem_singleton.2 rfl, rfl⟩ ran' fine
  rw [shows fuel] at direct
  cases direct
  rw [second] at same
  cases same

end Machine

end LispMachine
