import LispMachine.Proofs.Compiler.Layout

/-!
# What the compiler writes

A successful compilation of a form has found the tree of the form and has laid
the code of that tree at the end of the draft. Everything written before stays:
earlier words and constants keep their places, the names in force are the same
again, and slots are only added.
-/

namespace LispMachine

/-! ## Scopes -/

namespace Scope

theorem bindAll_eq (s : Scope) (bindings : List (Ref × Option Ref)) :
    s.bindAll bindings =
      ({ s with locals := s.locals ++ (bindings.map fun binding => some binding.1).toArray },
        (storeSlots s.slots bindings).reverse) := by
  -- The fold, for any slots collected so far.
  suffices general : ∀ stores : List Nat,
      bindings.foldl
        (fun acc binding => ((acc.1.bindLocal binding.1).2,
          if binding.2.isSome then (acc.1.bindLocal binding.1).1 :: acc.2 else acc.2))
        (s, stores) =
      ({ s with locals := s.locals ++ (bindings.map fun binding => some binding.1).toArray },
        (storeSlots s.slots bindings).reverse ++ stores) from
    (general []).trans (by rw [List.append_nil])
  induction bindings generalizing s with
  | nil => simp [storeSlots]
  | cons binding rest ih =>
      intro stores
      rcases binding with ⟨name, value⟩
      have next : (s.bindLocal name).2.slots = s.slots + 1 := by
        simp [bindLocal, slots, Nat.add_assoc]
      rw [List.foldl_cons, ih, next]
      cases value <;> simp [storeSlots, bindLocal]

theorem names_bindAll (s : Scope) (bindings : List (Ref × Option Ref)) :
    (s.bindAll bindings).1.names = scopeWith s.slots bindings s.names := by
  have same : (bindings.map fun binding => some binding.1) = (bindings.map Prod.fst).map some := by
    simp
  simp only [bindAll_eq, names, scopeWith, Array.toList_append, namesFrom_append, same,
    namesFrom_some, Array.length_toList, slots]

theorem slots_bindAll (s : Scope) (bindings : List (Ref × Option Ref)) :
    (s.bindAll bindings).1.slots = s.slots + bindings.length := by
  simp [bindAll_eq, slots, Nat.add_assoc]

/-- Ending the extent of locals blanks them and all that came after. -/
theorem release_append (s : Scope) (kept ended : Array (Option Ref))
    (locals : s.locals = kept ++ ended) :
    (s.release kept.size).locals = kept ++ Array.replicate ended.size none := by
  apply Array.ext_getElem?
  intro i
  by_cases old : i < kept.size
  · simp [release, locals, Array.getElem?_append, old]
  · simp only [release, locals, Array.getElem?_mapIdx, Array.getElem?_append, old, if_false,
      Array.getElem?_replicate]
    by_cases inside : i - kept.size < ended.size
    · simp [inside]
    · simp [inside]

end Scope

/-! ## Drafts -/

/-- The second draft comes from the first by writing code: the names in force are
    the same, and the words and constants of the first are kept. -/
structure Draft.Extends (d d' : Draft) : Prop where
  arguments : d'.scope.arguments = d.scope.arguments
  takesRest : d'.scope.takesRest = d.scope.takesRest
  locals : ∃ count, d'.scope.locals = d.scope.locals ++ Array.replicate count none
  words : ∀ i, i < d.words.size → d'.words[i]? = d.words[i]?
  size : d.words.size ≤ d'.words.size
  constants : ∀ (i : Nat) (cell : Ref), d.constants[i]? = some cell → d'.constants[i]? = some cell

namespace Draft

theorem Extends.refl (d : Draft) : d.Extends d :=
  ⟨rfl, rfl, ⟨0, by simp⟩, fun _ _ => rfl, Nat.le_refl _, fun _ _ found => found⟩

theorem Extends.trans {a b c : Draft} (first : a.Extends b) (second : b.Extends c) :
    a.Extends c := by
  obtain ⟨count, more⟩ := first.locals
  obtain ⟨count', more'⟩ := second.locals
  refine ⟨second.arguments.trans first.arguments, second.takesRest.trans first.takesRest,
    ⟨count + count', ?_⟩, ?_, Nat.le_trans first.size second.size, ?_⟩
  · rw [more', more, Array.append_assoc]
    simp
  · intro i inside
    rw [second.words i (Nat.lt_of_lt_of_le inside first.size), first.words i inside]
  · intro i cell found
    exact second.constants i cell (first.constants i cell found)

theorem Extends.names {d d' : Draft} (more : d.Extends d') : d'.scope.names = d.scope.names := by
  obtain ⟨count, locals⟩ := more.locals
  simp only [Scope.names, more.arguments, locals, Array.toList_append, Array.toList_replicate,
    namesFrom_append, namesFrom_blank]

theorem Extends.slots {d d' : Draft} (more : d.Extends d') : d.scope.slots ≤ d'.scope.slots := by
  obtain ⟨count, locals⟩ := more.locals
  simp [Scope.slots, more.arguments, locals, ← Nat.add_assoc]

theorem write_words (d : Draft) (words : List UInt16) :
    (d.write words).words = d.words ++ words.toArray :=
  Array.ext' (by simp [write])

theorem write_size (d : Draft) (words : List UInt16) :
    (d.write words).words.size = d.words.size + words.length := by
  simp [write_words]

theorem write_words_old (d : Draft) (words : List UInt16) {i : Nat} (old : i < d.words.size) :
    (d.write words).words[i]? = d.words[i]? := by
  simp [write_words, Array.getElem?_append, old]

theorem write_words_new (d : Draft) (words : List UInt16) (i : Nat) :
    (d.write words).words[d.words.size + i]? = words[i]? := by
  rw [write_words, Array.getElem?_append_right (by omega)]
  simp

theorem extends_write (d : Draft) (words : List UInt16) : d.Extends (d.write words) where
  arguments := rfl
  takesRest := rfl
  locals := ⟨0, by simp [write]⟩
  words := fun _ old => write_words_old d words old
  size := by simp [write_size]
  constants := fun _ _ found => found

theorem patch_size (d : Draft) (position operand : Nat) :
    (d.patch position operand).words.size = d.words.size := by
  simp [patch]

theorem patch_words_other (d : Draft) {position operand i : Nat} (other : i ≠ position + 1) :
    (d.patch position operand).words[i]? = d.words[i]? := by
  simp [patch, other.symm]

theorem patch_words_same (d : Draft) {position operand : Nat} (inside : position + 1 < d.words.size) :
    (d.patch position operand).words[position + 1]? = some (UInt16.ofNat operand) := by
  simp [patch, inside]

theorem addConstant_extends (d : Draft) (cell : Ref) :
    d.Extends (d.addConstant cell).2 ∧
      (d.addConstant cell).2.constants[(d.addConstant cell).1]? = some cell ∧
      (d.addConstant cell).2.words = d.words ∧ (d.addConstant cell).2.scope = d.scope := by
  unfold addConstant
  cases found : d.constants.findIdx? (fun constant => constant = cell) with
  | some index =>
      obtain ⟨inside, same, _⟩ := Array.findIdx?_eq_some_iff_getElem.1 found
      refine ⟨.refl d, ?_, rfl, rfl⟩
      simpa [Array.getElem?_eq_getElem inside] using same
  | none =>
      refine ⟨⟨rfl, rfl, ⟨0, by simp⟩, fun _ _ => rfl, Nat.le_refl _, ?_⟩, by simp, rfl, rfl⟩
      intro i other held
      have inside : i < d.constants.size := (Array.getElem?_eq_some_iff.1 held).1
      simp [Array.getElem?_push, Nat.ne_of_lt inside, held]

end Draft

/-! ## Finished code -/

/-- The code has the words of a draft from an offset on, and its constants. -/
structure Code.Holds (code : Code) (d : Draft) (start : Nat) : Prop where
  words : ∀ i, start ≤ i → i < d.words.size → code.words[i]? = d.words[i]?
  constants : ∀ (i : Nat) (cell : Ref),
    d.constants[i]? = some cell → code.constants[i]? = some cell

namespace Code

theorem Holds.shrink {code : Code} {d d' : Draft} {start start' : Nat} (held : code.Holds d' start)
    (more : d.Extends d') (le : start ≤ start') : code.Holds d start' where
  words := fun i after inside =>
    (held.words i (Nat.le_trans le after) (Nat.lt_of_lt_of_le inside more.size)).trans
      (more.words i inside)
  constants := fun i cell found => held.constants i cell (more.constants i cell found)

theorem fetch_plain {code : Code} {pc : Nat} {op : Opcode}
    (found : code.words[pc]? = some op.word) (width : op.width = 0) :
    code.fetch pc = .ok (op, 0) := by
  simp [fetch, found, width]

theorem fetch_operand {code : Code} {pc operand : Nat} {op : Opcode}
    (found : code.words[pc]? = some op.word)
    (next : code.words[pc + 1]? = some (UInt16.ofNat operand)) (width : op.width = 1)
    (fits : operand ≤ maxOperand) : code.fetch pc = .ok (op, operand) := by
  have exact_ : operand % 65536 = operand := Nat.mod_eq_of_lt (by unfold maxOperand at fits; omega)
  simp [fetch, found, width, next, exact_]

/-- An instruction without operand at the end of a draft. -/
theorem Holds.fetch_last {code : Code} {d : Draft} {op : Opcode} {start : Nat}
    (held : code.Holds (d.write (op.encode [])) start) (le : start ≤ d.words.size)
    (width : op.width = 0) : code.fetch d.words.size = .ok (op, 0) := by
  refine fetch_plain ?_ width
  rw [held.words _ le (by simp [Draft.write_size, Opcode.encode])]
  exact (d.write_words_new _ 0).trans (by simp [Opcode.encode])

/-- An instruction with its operand at the end of a draft. -/
theorem Holds.fetch_last_operand {code : Code} {d : Draft} {op : Opcode} {start operand : Nat}
    (held : code.Holds (d.write (op.encode [operand])) start) (le : start ≤ d.words.size)
    (width : op.width = 1) (fits : operand ≤ maxOperand) :
    code.fetch d.words.size = .ok (op, operand) := by
  have size : (d.write (op.encode [operand])).words.size = d.words.size + 2 := by
    simp [Draft.write_size, Opcode.encode, width]
  refine fetch_operand ?_ ?_ width fits
  · rw [held.words _ le (by omega)]
    exact (d.write_words_new _ 0).trans (by simp [Opcode.encode])
  · rw [held.words _ (by omega) (by omega)]
    exact (d.write_words_new _ 1).trans (by simp [Opcode.encode, width])

end Code

namespace Draft

/-- Writing code that is laid out in a certain way, wherever the draft ends up. -/
structure Writes (d d' : Draft)
    (laid : Code → List (Ref × Nat) → Nat → Nat → Nat → Nat → Prop) : Prop where
  more : d.Extends d'
  laid : ∀ code : Code, code.Holds d' d.words.size →
    laid code d.scope.names d.words.size d.scope.slots d'.words.size d'.scope.slots

variable {d d₁ d₂ : Draft} {first second : Code → List (Ref × Nat) → Nat → Nat → Nat → Nat → Prop}

/-- One piece of code after the other. -/
theorem Writes.then (before : d.Writes d₁ first) (after : d₁.Writes d₂ second) :
    d.Writes d₂ fun code scope pc n pc₂ n₂ =>
      ∃ pc₁ n₁, first code scope pc n pc₁ n₁ ∧ second code scope pc₁ n₁ pc₂ n₂ where
  more := before.more.trans after.more
  laid := by
    intro code held
    refine ⟨_, _, before.laid code (held.shrink after.more (Nat.le_refl _)), ?_⟩
    rw [← before.more.names]
    exact after.laid code (held.shrink (.refl _) before.more.size)

theorem Writes.imp (written : d.Writes d₁ first)
    (imp : ∀ code scope pc n pc' n', first code scope pc n pc' n' → second code scope pc n pc' n') :
    d.Writes d₁ second :=
  ⟨written.more, fun code held => imp _ _ _ _ _ _ (written.laid code held)⟩

theorem writes_nothing (d : Draft) :
    d.Writes d fun _ _ pc n pc' n' => pc' = pc ∧ n' = n :=
  ⟨.refl d, fun _ _ => ⟨rfl, rfl⟩⟩

theorem writes_plain (d : Draft) {op : Opcode} (width : op.width = 0) :
    d.Writes (d.write (op.encode [])) fun code _ pc n pc' n' =>
      code.fetch pc = .ok (op, 0) ∧ pc' = pc + 1 ∧ n' = n where
  more := extends_write d _
  laid := by
    intro code held
    refine ⟨held.fetch_last (Nat.le_refl _) width, ?_, rfl⟩
    simp [write_size, Opcode.encode]

theorem writes_operand (d : Draft) {op : Opcode} {operand : Nat} (width : op.width = 1)
    (fits : operand ≤ maxOperand) :
    d.Writes (d.write (op.encode [operand])) fun code _ pc n pc' n' =>
      code.fetch pc = .ok (op, operand) ∧ pc' = pc + 2 ∧ n' = n where
  more := extends_write d _
  laid := by
    intro code held
    refine ⟨held.fetch_last_operand (Nat.le_refl _) width fits, ?_, rfl⟩
    simp [write_size, Opcode.encode, width]

theorem Extends.patch (more : d.Extends d₁) {position : Nat} (outside : d.words.size ≤ position)
    (operand : Nat) : d.Extends (d₁.patch position operand) where
  arguments := more.arguments
  takesRest := more.takesRest
  locals := more.locals
  words := fun i inside => (patch_words_other d₁ (by omega)).trans (more.words i inside)
  size := by
    rw [patch_size]
    exact more.size
  constants := more.constants

/-- The code of a choice. Both branches are written before what they skip and get
    their targets afterwards, so neither part of the code is touched by a patch. -/
theorem writes_choice {d d₁ d₃ d₆ : Draft} {condition consequence alternative : Form}
    (before : d.Writes d₁ fun code scope => Lays code scope condition)
    (between : (d₁.write (Opcode.branchIfNull.encode [9999])).Writes d₃
      fun code scope => Lays code scope consequence)
    (after : ((d₃.write (Opcode.branch.encode [9999])).patch d₁.words.size
      (d₃.words.size + 2)).Writes d₆ fun code scope => Lays code scope alternative)
    (fits : d₃.words.size + 2 ≤ maxOperand) (fits' : d₆.words.size ≤ maxOperand) :
    d.Writes (d₆.patch d₃.words.size d₆.words.size)
      fun code scope => Lays code scope (.choice condition consequence alternative) := by
  have size₂ : (d₁.write (Opcode.branchIfNull.encode [9999])).words.size = d₁.words.size + 2 := by
    simp [write_size, Opcode.encode, Opcode.width]
  have size₄ : (d₃.write (Opcode.branch.encode [9999])).words.size = d₃.words.size + 2 := by
    simp [write_size, Opcode.encode, Opcode.width]
  have size₅ := (patch_size (d₃.write (Opcode.branch.encode [9999])) d₁.words.size
    (d₃.words.size + 2)).trans size₄
  have le₃ := between.more.size
  have le₆ := after.more.size
  rw [size₂] at le₃
  rw [size₅] at le₆
  have more₃ := (extends_write d₁ _).trans between.more
  have more₅ := (more₃.trans (extends_write d₃ (Opcode.branch.encode [9999]))).patch
    (Nat.le_refl d₁.words.size) (d₃.words.size + 2)
  have more₇ := (more₅.trans after.more).patch (show d₁.words.size ≤ d₃.words.size by omega)
    d₆.words.size
  refine ⟨before.more.trans more₇, fun code held => ?_⟩
  have start := before.more.size
  -- The words up to the second branch come from the consequence's draft, except for
  -- the target of the first branch; those after it come from the last draft.
  have early : ∀ i, d.words.size ≤ i → i < d₃.words.size → i ≠ d₁.words.size + 1 →
      code.words[i]? = d₃.words[i]? := by
    intro i from_ inside other
    rw [held.words i from_ (by rw [patch_size]; omega), patch_words_other _ (by omega),
      after.more.words i (by omega), patch_words_other _ other, write_words_old _ _ inside]
  have late : ∀ i, d.words.size ≤ i → i < d₆.words.size → i ≠ d₃.words.size + 1 →
      code.words[i]? = d₆.words[i]? := by
    intro i from_ inside other
    rw [held.words i from_ (by rw [patch_size]; omega), patch_words_other _ other]
  have first : code.fetch d₁.words.size = .ok (.branchIfNull, d₃.words.size + 2) := by
    refine Code.fetch_operand ?_ ?_ rfl fits
    · rw [early _ start (by omega) (by omega), between.more.words _ (by omega)]
      exact (d₁.write_words_new _ 0).trans rfl
    · rw [late _ (by omega) (by omega) (by omega), after.more.words _ (by omega)]
      exact patch_words_same _ (by omega)
  have second : code.fetch d₃.words.size = .ok (.branch, d₆.words.size) := by
    refine Code.fetch_operand ?_ ?_ rfl fits'
    · rw [late _ (by omega) (by omega) (by omega), after.more.words _ (by omega),
        patch_words_other _ (by omega)]
      exact (d₃.write_words_new _ 0).trans rfl
    · rw [held.words _ (by omega) (by rw [patch_size]; omega)]
      exact patch_words_same _ (by omega)
  have laid₁ := before.laid code (held.shrink more₇ (Nat.le_refl _))
  have laid₂ := between.laid code
    ⟨fun i from_ inside => early i (by omega) inside (by omega),
      fun i cell found => held.constants i cell (after.more.constants i cell found)⟩
  have laid₃ := after.laid code
    ⟨fun i from_ inside => late i (by omega) inside (by omega),
      fun i cell found => held.constants i cell found⟩
  have names₂ : (d₁.write (Opcode.branchIfNull.encode [9999])).scope.names = d.scope.names :=
    before.more.names
  have names₅ := between.more.names.trans names₂
  rw [names₂, size₂] at laid₂
  rw [size₅, show ((d₃.write (Opcode.branch.encode [9999])).patch d₁.words.size
    (d₃.words.size + 2)).scope.names = d.scope.names from names₅] at laid₃
  rw [patch_size]
  exact .choice laid₁ first laid₂ second laid₃

/-- The code of bindings and a body. The names bound in between are blanked at the
    end, and their slots stay in use. -/
theorem writes_bind {d d₁ d₃ d₄ : Draft} {parsed : List (Ref × Option Ref)}
    {bindings : List (Ref × Option Form)} {body : Form}
    (shape : parsed.map Prod.fst = bindings.map Prod.fst)
    (slots : ∀ slot, storeSlots slot parsed = storeSlots slot bindings)
    (values : d.Writes d₁ fun code scope => LaysIn code scope bindings)
    (stores : ({ d₁ with scope := (d₁.scope.bindAll parsed).1 } : Draft).Writes d₃
      fun code _ pc n pc' n' => LaysStores code (d₁.scope.bindAll parsed).2 pc pc' ∧ n' = n)
    (inner : d₃.Writes d₄ fun code scope => Lays code scope body) :
    d.Writes { d₄ with scope := d₄.scope.release d₁.scope.mark }
      fun code scope => Lays code scope (.bind bindings body) := by
  have more := stores.more.trans inner.more
  obtain ⟨count, blank⟩ := more.locals
  have locals : d₄.scope.locals = d₁.scope.locals ++
      ((parsed.map fun binding => some binding.1).toArray ++ Array.replicate count none) := by
    rw [blank, Scope.bindAll_eq, Array.append_assoc]
  have arguments := more.arguments
  have takesRest := more.takesRest
  rw [Scope.bindAll_eq] at arguments takesRest
  have ended : d₁.Extends { d₄ with scope := d₄.scope.release d₁.scope.mark } :=
    ⟨arguments, takesRest, ⟨_, d₄.scope.release_append _ _ locals⟩, more.words, more.size,
      more.constants⟩
  refine ⟨values.more.trans ended, fun code held => ?_⟩
  have held' : code.Holds d₄ d₁.words.size :=
    ⟨fun i from_ inside => held.words i (Nat.le_trans values.more.size from_) inside,
      held.constants⟩
  have laid₁ := values.laid code (held.shrink ended (Nat.le_refl _))
  obtain ⟨laid₂, slots_eq⟩ := stores.laid code (held'.shrink inner.more (Nat.le_refl _))
  have laid₃ := inner.laid code (held'.shrink (.refl _) stores.more.size)
  have length : parsed.length = bindings.length := by
    simpa using congrArg List.length shape
  rw [stores.more.names, slots_eq, Scope.names_bindAll, Scope.slots_bindAll, length,
    values.more.names, scopeWith, shape] at laid₃
  rw [Scope.bindAll_eq, slots] at laid₂
  have size : (d₄.scope.release d₁.scope.mark).slots = d₄.scope.slots := by
    simp [Scope.slots, Scope.release]
  rw [size]
  exact .bind laid₁ laid₂ laid₃

end Draft

theorem ExpandsEach.length {home : ModuleId} {expand : Expand} {m m' : Machine} {items : List Ref}
    {trees : List Form} (expands : ExpandsEach home expand m items trees m') :
    items.length = trees.length := by
  induction items generalizing m trees with
  | nil =>
      cases expands
      rfl
  | cons item items ih =>
      cases expands with
      | cons _ rest => simp [ih rest]

/-- Expansion keeps the names of bindings and says which have an initial value. -/
theorem ExpandsIn.shape {home : ModuleId} {expand : Expand} {m m' : Machine}
    {parsed : List (Ref × Option Ref)} {bindings : List (Ref × Option Form)}
    (expands : ExpandsIn home expand m parsed bindings m') :
    parsed.map Prod.fst = bindings.map Prod.fst ∧
      ∀ slot, storeSlots slot parsed = storeSlots slot bindings := by
  induction parsed generalizing m bindings with
  | nil =>
      cases expands
      exact ⟨rfl, fun _ => rfl⟩
  | cons binding parsed ih =>
      cases expands with
      | blank rest => simp [storeSlots, ih rest]
      | initial _ rest => simp [storeSlots, ih rest]

namespace Compile

/-! ## Instructions -/

theorem emit_ok {op : Opcode} {w w' : Workbench} (done : emit op w = .ok () w') :
    w'.machine = w.machine ∧ w'.draft = w.draft.write (op.encode []) := by
  cases done
  exact ⟨rfl, rfl⟩

theorem emitWith_ok {op : Opcode} {operand : Nat} {w w' : Workbench}
    (done : emitWith op operand w = .ok () w') :
    operand ≤ maxOperand ∧ w'.machine = w.machine ∧
      w'.draft = w.draft.write (op.encode [operand]) := by
  unfold emitWith at done
  split at done
  · cases done
  · next fits =>
      cases done
      exact ⟨Nat.le_of_not_lt fits, rfl, rfl⟩

theorem emitBranch_ok {op : Opcode} {position : Nat} {w w' : Workbench}
    (done : emitBranch op w = .ok position w') :
    position = w.draft.words.size ∧ w'.machine = w.machine ∧
      w'.draft = w.draft.write (op.encode [9999]) := by
  obtain ⟨here, w₁, at_, rest⟩ := bind_eq_ok done
  obtain ⟨_, w₂, written, last⟩ := bind_eq_ok rest
  cases at_
  cases last
  obtain ⟨_, machine, draft⟩ := emitWith_ok written
  exact ⟨rfl, machine, draft⟩

theorem land_ok {branch : Nat} {w w' : Workbench} (done : land branch w = .ok () w') :
    w.draft.words.size ≤ maxOperand ∧ w'.machine = w.machine ∧
      w'.draft = w.draft.patch branch w.draft.words.size := by
  obtain ⟨here, w₁, at_, rest⟩ := bind_eq_ok done
  cases at_
  split at rest
  · cases rest
  · next fits =>
      cases rest
      exact ⟨Nat.le_of_not_lt fits, rfl, rfl⟩

/-- Code that pushes a constant. -/
def PushesConstant (cell : Ref) (code : Code) (_ : List (Ref × Nat)) (pc n pc' n' : Nat) : Prop :=
  ∃ index, code.fetch pc = .ok (.pushConstant, index) ∧ code.constants[index]? = some cell ∧
    pc' = pc + 2 ∧ n' = n

theorem emitConstant_ok {cell : Ref} {w w' : Workbench} (done : emitConstant cell w = .ok () w') :
    w'.machine = w.machine ∧ w.draft.Writes w'.draft (PushesConstant cell) := by
  obtain ⟨index, w₁, added, rest⟩ := bind_eq_ok done
  cases added
  obtain ⟨fits, machine, draft⟩ := emitWith_ok rest
  obtain ⟨more, found, words, scope⟩ := w.draft.addConstant_extends cell
  have last := @Draft.writes_operand (w.draft.addConstant cell).2 .pushConstant _ rfl fits
  refine ⟨machine, ?_⟩
  rw [draft]
  refine ⟨more.trans last.more, ?_⟩
  intro code held
  have at_ := last.laid code (held.shrink (.refl _) (by simp [words]))
  rw [words, scope] at at_
  exact ⟨_, at_.1, held.constants _ _ (last.more.constants _ _ found), at_.2⟩

/-! ## Taking forms apart -/

theorem listOf_ok {list form : Ref} {context : String} {items : List Ref} {w w' : Workbench}
    (done : listOf list form context w = .ok items w') :
    w' = w ∧ w.machine.heap.items? list = some items := by
  unfold listOf at done
  split at done
  · next found =>
      cases done
      exact ⟨rfl, found⟩
  · split at done <;> cases done

theorem expectSymbol_ok {cell : Ref} {context : String} {w w' : Workbench}
    (done : expectSymbol cell context w = .ok () w') :
    w' = w ∧ w.machine.heap.isSymbol cell = true := by
  unfold expectSymbol at done
  split at done
  · next symbol =>
      cases done
      exact ⟨rfl, symbol⟩
  · cases done

theorem parseBinding_ok {form binding : Ref} {parsed : Ref × Option Ref} {w w' : Workbench}
    (done : parseBinding form binding w = .ok parsed w') :
    w' = w ∧ w.machine.heap.binding? binding = some parsed := by
  obtain ⟨_, _, got, rest⟩ := bind_eq_ok done
  cases got
  unfold Heap.binding?
  cases symbol : w.machine.heap.isSymbol binding with
  | true =>
      rw [if_pos symbol] at rest
      cases rest
      exact ⟨rfl, rfl⟩
  | false =>
      rw [if_neg (by simp [symbol])] at rest
      obtain ⟨items, w₁, listed, chosen⟩ := bind_eq_ok rest
      obtain ⟨rfl, found⟩ := listOf_ok listed
      rw [found]
      rcases items with _ | ⟨name, _ | ⟨value, _ | ⟨_, _⟩⟩⟩
      · cases chosen
      · obtain ⟨_, w₂, named, last⟩ := bind_eq_ok chosen
        obtain ⟨rfl, symbol⟩ := expectSymbol_ok named
        cases last
        simp [symbol]
      · obtain ⟨_, w₂, named, last⟩ := bind_eq_ok chosen
        obtain ⟨rfl, symbol⟩ := expectSymbol_ok named
        cases last
        simp [symbol]
      · cases chosen

theorem parseBindings_ok {form : Ref} {items : List Ref} {parsed result : List (Ref × Option Ref)}
    {w w' : Workbench} (done : parseBindings form items parsed w = .ok result w') :
    w' = w ∧ ∃ more, items.mapM w.machine.heap.binding? = some more ∧
      result = parsed.reverse ++ more := by
  induction items generalizing parsed w with
  | nil =>
      cases done
      exact ⟨rfl, [], by simp⟩
  | cons item items ih =>
      obtain ⟨binding, w₁, first, rest⟩ := bind_eq_ok done
      obtain ⟨rfl, found⟩ := parseBinding_ok first
      obtain ⟨rfl, more, others, rfl⟩ := ih rest
      exact ⟨rfl, binding :: more, by simp [found, others]⟩

/-! ## Expressions -/

/-- Compiling one form succeeds with the code of the tree that the form expands to. -/
def Emits (home : ModuleId) (expand : Expand) (emitForm : Ref → Compile Unit) : Prop :=
  ∀ (form : Ref) (w w' : Workbench), emitForm form w = .ok () w' →
    ∃ tree, Expands home expand w.machine form tree w'.machine ∧
      w.draft.Writes w'.draft fun code scope => Lays code scope tree

section

variable {home : ModuleId} {expand : Expand} {emitForm : Ref → Compile Unit}

theorem emitEach_ok (emits : Emits home expand emitForm) {items : List Ref} {w w' : Workbench}
    (done : emitEach emitForm items w = .ok () w') :
    ∃ trees, ExpandsEach home expand w.machine items trees w'.machine ∧
      w.draft.Writes w'.draft fun code scope => LaysEach code scope trees := by
  induction items generalizing w with
  | nil =>
      cases done
      refine ⟨[], .nil _, (Draft.writes_nothing _).imp ?_⟩
      rintro code scope pc n _ _ ⟨rfl, rfl⟩
      exact .nil _ _
  | cons item items ih =>
      obtain ⟨_, w₁, first, rest⟩ := bind_eq_ok done
      obtain ⟨tree, expands, written⟩ := emits item w w₁ first
      obtain ⟨trees, others, written'⟩ := ih rest
      refine ⟨tree :: trees, .cons expands others, (written.then written').imp ?_⟩
      rintro code scope pc n pc' n' ⟨pc₁, n₁, laid, laid'⟩
      exact .cons laid laid'

/-- The rest of a body after the code of its first form. -/
theorem emitMore_ok (emits : Emits home expand emitForm) {m : Machine} {d : Draft} {item : Ref}
    {items : List Ref} {tree : Form} {w w' : Workbench}
    (expands : Expands home expand m item tree w.machine)
    (written : d.Writes w.draft fun code scope => Lays code scope tree)
    (done : emitMore emitForm items w = .ok () w') :
    ∃ body, ExpandsBody home expand m (item :: items) body w'.machine ∧
      d.Writes w'.draft fun code scope => Lays code scope body := by
  induction items generalizing m d item tree w with
  | nil =>
      cases done
      exact ⟨tree, .last expands, written⟩
  | cons next items ih =>
      obtain ⟨_, w₁, dropped, rest⟩ := bind_eq_ok done
      obtain ⟨_, w₂, first, rest⟩ := bind_eq_ok rest
      obtain ⟨machine, draft⟩ := emit_ok dropped
      obtain ⟨second, expands', written'⟩ := emits next w₁ w₂ first
      obtain ⟨body, bodies, written''⟩ := ih expands' written' rest
      rw [machine] at bodies
      have dropping := @Draft.writes_plain w.draft .pop rfl
      rw [← draft] at dropping
      refine ⟨.sequence tree body, .more expands bodies, (written.then (dropping.then written'')).imp ?_⟩
      rintro code scope pc n pc' n' ⟨pc₁, n₁, laid, _, _, ⟨pop, rfl, rfl⟩, laid'⟩
      exact .sequence laid pop laid'

theorem emitBody_ok (emits : Emits home expand emitForm) {items : List Ref} {w w' : Workbench}
    (done : emitBody emitForm items w = .ok () w') :
    ∃ body, ExpandsBody home expand w.machine items body w'.machine ∧
      w.draft.Writes w'.draft fun code scope => Lays code scope body := by
  cases items with
  | nil =>
      obtain ⟨machine, draft⟩ := emit_ok done
      rw [machine, draft]
      refine ⟨.null, .empty _, (@Draft.writes_plain w.draft .pushNull rfl).imp ?_⟩
      rintro code scope pc n _ _ ⟨found, rfl, rfl⟩
      exact .null found
  | cons item items =>
      obtain ⟨_, w₁, first, rest⟩ := bind_eq_ok done
      obtain ⟨tree, expands, written⟩ := emits item w w₁ first
      exact emitMore_ok emits expands written rest

theorem emitValues_ok (emits : Emits home expand emitForm) {parsed : List (Ref × Option Ref)}
    {w w' : Workbench} (done : emitValues emitForm parsed w = .ok () w') :
    ∃ bindings, ExpandsIn home expand w.machine parsed bindings w'.machine ∧
      w.draft.Writes w'.draft fun code scope => LaysIn code scope bindings := by
  induction parsed generalizing w with
  | nil =>
      cases done
      refine ⟨[], .nil _, (Draft.writes_nothing _).imp ?_⟩
      rintro code scope pc n _ _ ⟨rfl, rfl⟩
      exact .nil _ _
  | cons binding parsed ih =>
      rcases binding with ⟨name, _ | value⟩
      · obtain ⟨bindings, others, written⟩ := ih done
        refine ⟨(name, none) :: bindings, .blank others, written.imp ?_⟩
        intro code scope pc n pc' n' laid
        exact .blank laid
      · obtain ⟨_, w₁, first, rest⟩ := bind_eq_ok done
        obtain ⟨tree, expands, written⟩ := emits value w w₁ first
        obtain ⟨bindings, others, written'⟩ := ih rest
        refine ⟨(name, some tree) :: bindings, .initial expands others,
          (written.then written').imp ?_⟩
        rintro code scope pc n pc' n' ⟨pc₁, n₁, laid, laid'⟩
        exact .initial laid laid'

theorem emitStores_ok {slots : List Nat} {w w' : Workbench}
    (done : emitStores slots w = .ok () w') :
    w'.machine = w.machine ∧ w.draft.Writes w'.draft fun code _ pc n pc' n' =>
      LaysStores code slots pc pc' ∧ n' = n := by
  induction slots generalizing w with
  | nil =>
      cases done
      refine ⟨rfl, (Draft.writes_nothing _).imp ?_⟩
      rintro code scope pc n _ _ ⟨rfl, rfl⟩
      exact ⟨.nil _, rfl⟩
  | cons slot slots ih =>
      obtain ⟨_, w₁, first, rest⟩ := bind_eq_ok done
      obtain ⟨fits, machine, draft⟩ := emitWith_ok first
      obtain ⟨machine', written⟩ := ih rest
      have stored := @Draft.writes_operand w.draft .storeLocal _ rfl fits
      rw [← draft] at stored
      refine ⟨machine'.trans machine, (stored.then written).imp ?_⟩
      rintro code scope pc n pc' n' ⟨_, _, ⟨found, rfl, rfl⟩, laid, rfl⟩
      exact ⟨.cons found laid, rfl⟩

theorem emitVariable_ok {symbol : Ref} {w w' : Workbench}
    (done : emitVariable symbol w = .ok () w') :
    w'.machine = w.machine ∧
      w.draft.Writes w'.draft fun code scope => Lays code scope (.name symbol) := by
  obtain ⟨_, _, got, chosen⟩ := bind_eq_ok done
  cases got
  rw [Scope.resolve_eq] at chosen
  cases resolved : Assoc.lookup symbol w.draft.scope.names with
  | some slot =>
      rw [resolved] at chosen
      obtain ⟨fits, machine, draft⟩ := emitWith_ok chosen
      have loaded := @Draft.writes_operand w.draft .loadLocal _ rfl fits
      rw [← draft] at loaded
      refine ⟨machine, loaded.more, fun code held => ?_⟩
      obtain ⟨found, pc_eq, n_eq⟩ := loaded.laid code held
      rw [pc_eq, n_eq]
      exact .localName resolved found
  | none =>
      rw [resolved] at chosen
      obtain ⟨_, w₁, pushed, rest⟩ := bind_eq_ok chosen
      obtain ⟨machine, written⟩ := emitConstant_ok pushed
      obtain ⟨machine', draft⟩ := emit_ok rest
      have loaded := @Draft.writes_plain w₁.draft .loadModuleValue rfl
      rw [← draft] at loaded
      have both := written.then loaded
      refine ⟨machine'.trans machine, both.more, fun code held => ?_⟩
      obtain ⟨_, _, ⟨index, found, constant, rfl, rfl⟩, load, pc_eq, n_eq⟩ := both.laid code held
      rw [pc_eq, n_eq]
      exact .moduleName resolved found constant load

theorem emitQuote_ok {form rest : Ref} {w w' : Workbench}
    (done : emitQuote form rest w = .ok () w') :
    ∃ quoted, w.machine.heap.items? rest = some [quoted] ∧ w'.machine = w.machine ∧
      w.draft.Writes w'.draft fun code scope => Lays code scope (.constant quoted) := by
  obtain ⟨items, w₁, listed, chosen⟩ := bind_eq_ok done
  obtain ⟨rfl, found⟩ := listOf_ok listed
  rcases items with _ | ⟨quoted, _ | ⟨_, _⟩⟩
  · cases chosen
  · obtain ⟨machine, written⟩ := emitConstant_ok chosen
    refine ⟨quoted, found, machine, written.imp ?_⟩
    rintro code scope pc n _ _ ⟨index, push, constant, rfl, rfl⟩
    exact .constant push constant
  · cases chosen

/-- What compiling a choice comes to; a missing alternative is the empty list. -/
theorem emitChoice_ok (emits : Emits home expand emitForm) {condition consequence : Ref}
    {alternative : Option Ref} {w w' : Workbench}
    (done : emitChoice emitForm condition consequence alternative w = .ok () w') :
    ∃ a b c m₁ m₂, Expands home expand w.machine condition a m₁ ∧
      Expands home expand m₁ consequence b m₂ ∧
      (match alternative with
        | some alternative => Expands home expand m₂ alternative c w'.machine
        | none => c = .null ∧ w'.machine = m₂) ∧
      w.draft.Writes w'.draft fun code scope => Lays code scope (.choice a b c) := by
  obtain ⟨_, w₁, first, rest⟩ := bind_eq_ok done
  obtain ⟨a, expands₁, written₁⟩ := emits condition w w₁ first
  obtain ⟨position₁, w₂, branch₁, rest⟩ := bind_eq_ok rest
  obtain ⟨rfl, machine₂, draft₂⟩ := emitBranch_ok branch₁
  obtain ⟨_, w₃, second, rest⟩ := bind_eq_ok rest
  obtain ⟨b, expands₂, written₂⟩ := emits consequence w₂ w₃ second
  obtain ⟨position₂, w₄, branch₂, rest⟩ := bind_eq_ok rest
  obtain ⟨rfl, machine₄, draft₄⟩ := emitBranch_ok branch₂
  obtain ⟨_, w₅, landed₁, rest⟩ := bind_eq_ok rest
  obtain ⟨fits₁, machine₅, draft₅⟩ := land_ok landed₁
  have size₄ : w₄.draft.words.size = w₃.draft.words.size + 2 := by
    simp [draft₄, Draft.write_size, Opcode.encode, Opcode.width]
  obtain ⟨c, w₆, expands₃, written₃, landed₂⟩ : ∃ c w₆,
      (match alternative with
        | some alternative => Expands home expand w₅.machine alternative c w₆.machine
        | none => c = .null ∧ w₆.machine = w₅.machine) ∧
      (w₅.draft.Writes w₆.draft fun code scope => Lays code scope c) ∧
      land w₃.draft.words.size w₆ = .ok () w' := by
    cases alternative with
    | some alternative =>
        obtain ⟨_, w₆, third, landed⟩ := bind_eq_ok rest
        obtain ⟨c, expands, written⟩ := emits alternative w₅ w₆ third
        exact ⟨c, w₆, expands, written, landed⟩
    | none =>
        obtain ⟨_, w₆, third, landed⟩ := bind_eq_ok rest
        obtain ⟨machine, draft⟩ := emit_ok third
        refine ⟨.null, w₆, ⟨rfl, machine⟩, ?_, landed⟩
        rw [draft]
        refine (@Draft.writes_plain w₅.draft .pushNull rfl).imp ?_
        rintro code scope pc n _ _ ⟨found, rfl, rfl⟩
        exact .null found
  obtain ⟨fits₂, machine₇, draft₇⟩ := land_ok landed₂
  rw [machine₂] at expands₂
  rw [machine₅, machine₄, ← machine₇] at expands₃
  refine ⟨a, b, c, w₁.machine, w₃.machine, expands₁, expands₂, expands₃, ?_⟩
  rw [size₄] at fits₁ draft₅
  rw [draft₂] at written₂
  rw [draft₅, draft₄] at written₃
  rw [draft₇]
  exact Draft.writes_choice written₁ written₂ written₃ fits₁ fits₂

theorem emitIf_ok (emits : Emits home expand emitForm) {form rest : Ref} {w w' : Workbench}
    (special : w.machine.IsSpecial form rest .if_)
    (done : emitIf emitForm form rest w = .ok () w') :
    ∃ tree, Expands home expand w.machine form tree w'.machine ∧
      w.draft.Writes w'.draft fun code scope => Lays code scope tree := by
  obtain ⟨items, w₁, listed, chosen⟩ := bind_eq_ok done
  obtain ⟨rfl, found⟩ := listOf_ok listed
  rcases items with _ | ⟨condition, _ | ⟨consequence, _ | ⟨alternative, _ | ⟨_, _⟩⟩⟩⟩
  · cases chosen
  · cases chosen
  · obtain ⟨a, b, _, m₁, m₂, first, second, ⟨rfl, rfl⟩, written⟩ := emitChoice_ok emits chosen
    exact ⟨_, .chooseOrNull special found first second, written⟩
  · obtain ⟨a, b, c, m₁, m₂, first, second, third, written⟩ := emitChoice_ok emits chosen
    exact ⟨_, .choose special found first second third, written⟩
  · cases chosen

theorem emitLet_ok (emits : Emits home expand emitForm) {form rest : Ref} {w w' : Workbench}
    (special : w.machine.IsSpecial form rest .let_)
    (done : emitLet emitForm form rest w = .ok () w') :
    ∃ tree, Expands home expand w.machine form tree w'.machine ∧
      w.draft.Writes w'.draft fun code scope => Lays code scope tree := by
  obtain ⟨items, w₁, listed, work⟩ := bind_eq_ok done
  obtain ⟨rfl, found⟩ := listOf_ok listed
  cases items with
  | nil => cases work
  | cons list body =>
      obtain ⟨items, w₂, listed', read⟩ := bind_eq_ok work
      obtain ⟨rfl, found'⟩ := listOf_ok listed'
      obtain ⟨parsed, w₃, parsing, emitting⟩ := bind_eq_ok read
      obtain ⟨rfl, more, bindings_eq, rfl⟩ := parseBindings_ok parsing
      obtain ⟨_, w₄, valued, binding⟩ := bind_eq_ok emitting
      obtain ⟨bindings, expands, values⟩ := emitValues_ok emits valued
      obtain ⟨_, w₅, bound, storing⟩ := bind_eq_ok binding
      cases bound
      obtain ⟨_, w₆, stored, ending⟩ := bind_eq_ok storing
      obtain ⟨machine₆, stores⟩ := emitStores_ok stored
      obtain ⟨_, w₇, written, ended⟩ := bind_eq_ok ending
      obtain ⟨inner, bodies, writes⟩ := emitBody_ok emits written
      cases ended
      rw [machine₆] at bodies
      obtain ⟨shape, slots⟩ := expands.shape
      exact ⟨.bind bindings inner, .bind special found found' bindings_eq expands bodies,
        Draft.writes_bind shape slots values stores writes⟩

theorem emitCall_ok (emits : Emits home expand emitForm) {form head rest : Ref}
    {w w' : Workbench} (plain : w.machine.IsPlainPair form head rest)
    (ordinary : macroOf? w.machine home head = none)
    (done : emitCall emitForm form head rest w = .ok () w') :
    ∃ tree, Expands home expand w.machine form tree w'.machine ∧
      w.draft.Writes w'.draft fun code scope => Lays code scope tree := by
  obtain ⟨items, w₁, listed, work⟩ := bind_eq_ok done
  obtain ⟨rfl, found⟩ := listOf_ok listed
  obtain ⟨_, _, got, work⟩ := bind_eq_ok work
  cases got
  -- The head first, then what both kinds of heads have in common.
  have tail : ∀ {w₂ : Workbench} {callee : Form},
      (w₁.draft.Writes w₂.draft fun code scope => Lays code scope callee) →
      ((do emitEach emitForm items; emitWith .call items.length : Compile Unit) w₂ = .ok () w') →
      ∃ args, ExpandsEach home expand w₂.machine items args w'.machine ∧
        w₁.draft.Writes w'.draft fun code scope => Lays code scope (.call callee args) := by
    intro w₂ callee written more
    obtain ⟨_, w₃, each, last⟩ := bind_eq_ok more
    obtain ⟨args, expands, written'⟩ := emitEach_ok emits each
    obtain ⟨fits, machine, draft⟩ := emitWith_ok last
    have called := @Draft.writes_operand w₃.draft .call _ rfl fits
    rw [← draft] at called
    rw [machine]
    refine ⟨args, expands, (written.then (written'.then called)).imp ?_⟩
    rintro code scope pc n pc' n' ⟨pc₁, n₁, laid, pc₂, n₂, each, call, rfl, rfl⟩
    rw [expands.length] at call
    exact .call laid each call
  cases symbol : w₁.machine.heap.isSymbol head with
  | true =>
      rw [if_pos symbol] at work
      obtain ⟨_, w₂, pushed, work⟩ := bind_eq_ok work
      obtain ⟨_, w₃, loaded, work⟩ := bind_eq_ok work
      obtain ⟨machine₂, written₂⟩ := emitConstant_ok pushed
      obtain ⟨machine₃, draft₃⟩ := emit_ok loaded
      have loading := @Draft.writes_plain w₂.draft .loadModuleFunction rfl
      rw [← draft₃] at loading
      have written₃ : w₁.draft.Writes w₃.draft fun code scope => Lays code scope (.function head) := by
        refine (written₂.then loading).imp ?_
        rintro code scope pc n _ _ ⟨_, _, ⟨index, push, constant, rfl, rfl⟩, load, rfl, rfl⟩
        exact .function push constant load
      obtain ⟨args, expands, written⟩ := tail written₃ work
      rw [machine₃, machine₂] at expands
      exact ⟨_, .callNamed plain ordinary found symbol expands, written⟩
  | false =>
      rw [if_neg (by simp [symbol])] at work
      obtain ⟨_, w₂, first, work⟩ := bind_eq_ok work
      obtain ⟨callee, expands₁, written₁⟩ := emits head w₁ w₂ first
      obtain ⟨args, expands, written⟩ := tail written₁ work
      exact ⟨_, .callValue plain ordinary found symbol expands₁ expands, written⟩

/-! ## Forms -/

/-- Compiling a macro call succeeds with the code of the tree that the call expands to. -/
def EmitsMacros (home : ModuleId) (expand : Expand) (onMacro : MacroCall → Compile Unit) : Prop :=
  ∀ (call : MacroCall) (w w' : Workbench), w.machine.IsPlainPair call.form call.head call.rest →
    macroOf? w.machine home call.head = some call.code → onMacro call w = .ok () w' →
    ∃ tree, Expands home expand w.machine call.form tree w'.machine ∧
      w.draft.Writes w'.draft fun code scope => Lays code scope tree

/-- A pair without a special name is a macro call or an ordinary call. -/
theorem emitPlain_ok {onMacro : MacroCall → Compile Unit}
    (macros : EmitsMacros home expand onMacro) (emits : Emits home expand emitForm)
    {form head rest : Ref} {w w' : Workbench} (plain : w.machine.IsPlainPair form head rest)
    (done : (do
      match macroOf? (← get).machine home head with
      | some code => onMacro ⟨form, head, rest, code⟩
      | none => emitCall emitForm form head rest : Compile Unit) w = .ok () w') :
    ∃ tree, Expands home expand w.machine form tree w'.machine ∧
      w.draft.Writes w'.draft fun code scope => Lays code scope tree := by
  obtain ⟨_, _, got, called⟩ := bind_eq_ok done
  cases got
  cases expander : macroOf? w.machine home head with
  | some code =>
      rw [expander] at called
      exact macros ⟨form, head, rest, code⟩ w w' plain expander called
  | none =>
      rw [expander] at called
      exact emitCall_ok emits plain expander called

theorem emitForm_emits {onMacro : MacroCall → Compile Unit}
    (macros : EmitsMacros home expand onMacro) (fuel : Nat) : Emits home expand (Compile.emitForm home onMacro fuel) := by
  induction fuel with
  | zero =>
      intro form w w' done
      cases done
  | succ fuel ih =>
      intro form w w' done
      unfold Compile.emitForm at done
      by_cases null : form.isNull
      · rw [if_pos null] at done
        obtain ⟨machine, draft⟩ := emit_ok done
        rw [(Ref.isNull_iff form).1 null, machine, draft]
        refine ⟨.null, .null _, (@Draft.writes_plain w.draft .pushNull rfl).imp ?_⟩
        rintro code scope pc n _ _ ⟨found, rfl, rfl⟩
        exact .null found
      · rw [if_neg null] at done
        obtain ⟨_, _, got, work⟩ := bind_eq_ok done
        cases got
        cases pair : w.machine.heap.pair? form with
        | some halves =>
            rcases halves with ⟨head, rest⟩
            rw [pair] at work
            obtain ⟨_, _, got, chosen⟩ := bind_eq_ok work
            cases got
            cases keyword : w.machine.heap.keyword? head with
            | none =>
                rw [keyword] at chosen
                exact emitPlain_ok macros ih ⟨pair, by simp [keyword]⟩ chosen
            | some special =>
                rw [keyword] at chosen
                cases special with
                | quote =>
                    obtain ⟨quoted, found, machine, written⟩ := emitQuote_ok chosen
                    rw [machine]
                    exact ⟨_, .quote ⟨head, pair, keyword⟩ found, written⟩
                | if_ => exact emitIf_ok ih ⟨head, pair, keyword⟩ chosen
                | let_ => exact emitLet_ok ih ⟨head, pair, keyword⟩ chosen
                | _ => exact emitPlain_ok macros ih ⟨pair, by simp [keyword]⟩ chosen
        | none =>
            rw [pair] at work
            obtain ⟨_, _, got, chosen⟩ := bind_eq_ok work
            cases got
            cases symbol : w.machine.heap.isSymbol form with
            | true =>
                rw [if_pos symbol] at chosen
                obtain ⟨machine, written⟩ := emitVariable_ok chosen
                rw [machine]
                exact ⟨_, .name symbol, written⟩
            | false =>
                rw [if_neg (by simp [symbol])] at chosen
                obtain ⟨machine, written⟩ := emitConstant_ok chosen
                rw [machine]
                have some_ : form ≠ .null := fun eq => null ((Ref.isNull_iff form).2 eq)
                refine ⟨_, .constant some_ pair symbol, written.imp ?_⟩
                rintro code scope pc n _ _ ⟨index, push, constant, rfl, rfl⟩
                exact .constant push constant

theorem expandOnce_ok {call : MacroCall} {expansion : Ref} {w w' : Workbench}
    (done : expandOnce expand call w = .ok expansion w') :
    ∃ args m₁ journal, w.machine.heap.items? call.rest = some args ∧
      expand call.code args w.machine = .ok expansion m₁ ∧
      w'.machine = m₁.withJournal journal ∧ w'.draft = w.draft := by
  obtain ⟨args, w₁, listed, work⟩ := bind_eq_ok done
  obtain ⟨rfl, found⟩ := listOf_ok listed
  obtain ⟨result, w₂, expanded, noting⟩ := bind_eq_ok work
  obtain ⟨_, w₃, noted, last⟩ := bind_eq_ok noting
  simp only [onMachine] at expanded
  cases ran : expand call.code args w₁.machine with
  | error e m₁ =>
      rw [ran] at expanded
      cases e <;> cases expanded
  | ok value m₁ =>
      rw [ran] at expanded
      cases expanded
      cases noted
      cases last
      obtain ⟨journal, eq⟩ := Machine.note_eq m₁ .trace
        fun m => s!"expanded {m.display call.form} into {m.display expansion}"
      exact ⟨args, m₁, journal, found, ran, eq, rfl⟩

theorem emitAt_emits (fuel levels : Nat) :
    Emits home expand (emitAt home expand fuel levels) := by
  induction levels with
  | zero =>
      refine emitForm_emits ?_ fuel
      intro call w w' _ _ done
      cases done
  | succ levels ih =>
      refine emitForm_emits ?_ fuel
      intro call w w' plain expander done
      obtain ⟨expansion, w₁, expanded, rest⟩ := bind_eq_ok done
      obtain ⟨args, m₁, journal, found, ran, machine, draft⟩ := expandOnce_ok expanded
      obtain ⟨tree, expands, written⟩ := ih expansion w₁ w' rest
      rw [machine] at expands
      rw [draft] at written
      exact ⟨tree, .expansion journal plain expander found ran expands, written⟩

end

/-! ## Functions -/

/-- Binding parameters gives them slots in order, the rest parameter last. -/
theorem bindParameters_ok {params : Ref} {names : List Ref} {w w' : Workbench}
    (fresh : w.draft.scope.takesRest = false)
    (done : bindParameters params names w = .ok () w') :
    w'.machine = w.machine ∧ ∃ fixed rest, w.machine.heap.parameters? names = some (fixed, rest) ∧
      w'.draft = { w.draft with
        scope := ⟨w.draft.scope.arguments ++ (fixed ++ rest.toList).toArray, rest.isSome,
          w.draft.scope.locals⟩ } := by
  induction names generalizing w with
  | nil =>
      cases done
      refine ⟨rfl, [], none, rfl, ?_⟩
      simp [← fresh]
  | cons name names ih =>
      unfold bindParameters at done
      obtain ⟨_, _, got, work⟩ := bind_eq_ok done
      cases got
      unfold Heap.parameters?
      by_cases keyword : w.machine.heap.keyword? name = some .rest
      · rw [if_pos keyword] at work
        rcases names with _ | ⟨restName, _ | ⟨_, _⟩⟩
        · cases work
        · obtain ⟨_, w₁, named, last⟩ := bind_eq_ok work
          obtain ⟨rfl, symbol⟩ := expectSymbol_ok named
          cases last
          exact ⟨rfl, [], some restName, by simp [keyword, symbol], by simp [Scope.addArgument]⟩
        · cases work
      · rw [if_neg keyword] at work
        obtain ⟨_, w₁, named, binding⟩ := bind_eq_ok work
        obtain ⟨rfl, symbol⟩ := expectSymbol_ok named
        obtain ⟨_, w₂, added, rest⟩ := bind_eq_ok binding
        cases added
        obtain ⟨machine, fixed, more, read, draft⟩ :=
          @ih ⟨w₁.machine, { w₁.draft with scope := w₁.draft.scope.addArgument name }⟩ fresh rest
        refine ⟨machine, name :: fixed, more, ?_, ?_⟩
        · have read' : w₁.machine.heap.parameters? names = some (fixed, more) := read
          rw [if_neg keyword, if_pos symbol, read']
        · rw [draft]
          simp [Scope.addArgument]

end Compile

/-- The code takes the given parameters, carries out the tree and returns its value. -/
structure Code.Implements (code : Code) (fixed : List Ref) (rest : Option Ref) (body : Form) :
    Prop where
  params : code.params = fixed.length
  takesRest : code.takesRest = rest.isSome
  laid : ∃ pc, Lays code (fixed ++ rest.toList).zipIdx body 0 (fixed ++ rest.toList).length pc
    code.slots ∧ code.fetch pc = .ok (.ret, 0) ∧ code.words.size = pc + 1

namespace Compile

/-- The last instruction of finished code. -/
theorem implements_finish {w w' : Workbench} {fixed : List Ref} {rest : Option Ref} {tree : Form}
    (scope : w.draft.scope = ⟨(fixed ++ rest.toList).toArray, rest.isSome, #[]⟩)
    (empty : w.draft.words = #[])
    (written : w.draft.Writes w'.draft fun code scope => Lays code scope tree) (name cell : Ref) :
    ((w'.draft.write (Opcode.ret.encode [])).finish name cell).Implements fixed rest tree := by
  have returned := @Draft.writes_plain w'.draft .ret rfl
  have both := written.then returned
  have arguments := written.more.arguments
  have takesRest := written.more.takesRest
  rw [scope] at arguments takesRest
  obtain ⟨pc, n, laid, found, size, slots⟩ :=
    both.laid ((w'.draft.write (Opcode.ret.encode [])).finish name cell)
      ⟨fun _ _ _ => rfl, fun _ _ found => found⟩
  refine ⟨?_, takesRest, pc, ?_, found, size⟩
  · show w'.draft.scope.params = fixed.length
    rw [Scope.params, arguments, takesRest]
    cases rest <;> simp
  · have start : w.draft.words.size = 0 := by simp [empty]
    have names : w.draft.scope.names = (fixed ++ rest.toList).zipIdx := by
      simp [Scope.names, scope, namesFrom]
    have count : w.draft.scope.slots = (fixed ++ rest.toList).length := by
      simp [Scope.slots, scope]
    rw [start, names, count] at laid
    subst slots
    exact laid

/-- What a compiled function is: the parameter list is one, and the code implements
    the tree that the body expands to. -/
theorem function_ok {expand : Expand} {fuel : Nat} {home : ModuleId} {name params : Ref}
    {body : List Ref} {m m' : Machine} {code : Code}
    (done : function expand fuel home name params body m = .ok code m') :
    ∃ items fixed rest tree, m.heap.items? params = some items ∧
      m.heap.parameters? items = some (fixed, rest) ∧
      ExpandsBody home expand m body tree m' ∧ code.Implements fixed rest tree ∧
      code.name = name ∧ code.home = m'.registry.cellOf home := by
  unfold function toCode at done
  split at done
  · next w ran =>
      cases done
      obtain ⟨items, w₁, listed, work⟩ := bind_eq_ok ran
      obtain ⟨rfl, found⟩ := listOf_ok listed
      obtain ⟨_, w₂, bound, work₂⟩ := bind_eq_ok work
      obtain ⟨machine, fixed, rest, read, draft⟩ := bindParameters_ok rfl bound
      obtain ⟨_, w₃, emitted, last⟩ := bind_eq_ok work₂
      obtain ⟨tree, expands, written⟩ := emitBody_ok (emitAt_emits fuel maxMacroDepth) emitted
      obtain ⟨machine₄, draft₄⟩ := emit_ok last
      rw [machine] at expands
      dsimp only at machine₄ draft₄
      rw [machine₄, draft₄]
      refine ⟨items, fixed, rest, tree, found, read, expands, ?_, rfl, rfl⟩
      exact implements_finish (by simp [draft, Draft.empty, Scope.empty]) (by simp [draft, Draft.empty])
        written _ _
  · cases done

theorem toplevel_ok {expand : Expand} {fuel : Nat} {home : ModuleId} {form : Ref} {m m' : Machine}
    {code : Code} (done : toplevel expand fuel home form m = .ok code m') :
    ∃ tree, Expands home expand m form tree m' ∧ code.Implements [] none tree ∧
      code.name = .null ∧ code.home = m'.registry.cellOf home := by
  unfold toplevel toCode at done
  split at done
  · next w ran =>
      cases done
      obtain ⟨_, w₁, emitted, last⟩ := bind_eq_ok ran
      obtain ⟨tree, expands, written⟩ := emitAt_emits fuel maxMacroDepth form _ w₁ emitted
      obtain ⟨machine, draft⟩ := emit_ok last
      dsimp only at machine draft
      rw [machine, draft]
      exact ⟨tree, expands, implements_finish rfl rfl written _ _, rfl, rfl⟩
  · cases done

end Compile

end LispMachine
