import LispMachine.Proofs.Toplevel.Isolation
import LispMachine.Proofs.Twins.Toplevel

/-!
# Settings cannot be observed

Two machines with different settings start out the same up to ties, and every text
keeps them so: a collection gives up the ties of what it frees and keeps those of its
roots, and the values of earlier forms are among the roots. So sessions that stay
within their limits show the same values, failures and printed text.
-/

namespace LispMachine

/-! ## Collections -/

namespace Heap

/-- The second heap comes from the first by freeing cells that these roots do not
    need. -/
structure Sweeps (roots : List Ref) (h h' : Heap) : Prop where
  tidy : h'.Tidy
  kept : ∀ r, h'.Live r → h'.cell? r = h.cell? r
  root : ∀ r ∈ roots, h.Live r → h'.Live r
  child : ∀ r cell, h'.Live r → h.cell? r = some cell →
    ∀ child ∈ cell.children, h.Live child → h'.Live child

section

variable {h h' k k' : Heap} {roots roots' : List Ref} {sized : Bool} {ties : Ties}

theorem Sweeps.refl (tidy : h.Tidy) (roots : List Ref) : h.Sweeps roots h :=
  ⟨tidy, fun _ _ => rfl, fun _ _ live => live, fun _ _ _ _ _ _ live => live⟩

theorem sweeps_collect (tidy : h.Tidy) (roots : List Ref) : h.Sweeps roots (h.collect roots).2 where
  tidy :=
    { wellFormed := wellFormed_collect tidy.wellFormed
      unmarked := unmarked_collect tidy.unmarked
      plain := by
        intro r probe found
        have held := scalar?_eq_some.1 found
        rw [cell?_collect tidy.unmarked ⟨_, held, rfl⟩] at held
        exact tidy.plain r probe (scalar?_eq_some.2 held)
      closed := tidy.closed.collect tidy.unmarked roots }
  kept := fun _ live => cell?_collect tidy.unmarked live
  root := fun r member live => (live_collect_iff tidy.unmarked r).2 ⟨live, .root member live⟩
  child := by
    intro r cell live found child member used
    have reached := ((live_collect_iff tidy.unmarked r).1 live).2
    refine (live_collect_iff tidy.unmarked child).2 ⟨used, ?_⟩
    exact reached.child found (Cell.mem_children.1 member) used

/-- The ties of the cells that are left hold on, and those of the roots are among
    them. -/
theorem Twins.sweep (twins : h.Twins ties k) (first : h.Sweeps roots h')
    (second : k.Sweeps roots' k') :
    ∃ ties', h'.Twins ties' k' ∧
      ∀ a ∈ roots, ∀ b ∈ roots', Tied ties a b → Tied ties' a b := by
  obtain ⟨ties', paired, exact_⟩ := @Paired.restrict h k h' k' ties
    (fun p => h'.Live p.1 ∧ k'.Live p.2) twins.paired
    (fun p _ kept => first.kept p.1 kept.1) (fun p _ kept => second.kept p.2 kept.2) (by
      intro p _ kept q member c d found found' inside inside'
      obtain ⟨live, live'⟩ := twins.paired.live member
      exact ⟨first.child p.1 c kept.1 found q.1 inside live,
        second.child p.2 d kept.2 found' q.2 inside' live'⟩)
  refine ⟨ties', ⟨first.tidy, second.tidy, paired⟩, fun a member b member' tied => ?_⟩
  rcases tied with null | tie
  · exact Or.inl null
  · obtain ⟨live, live'⟩ := twins.paired.live tie
    exact Or.inr ((exact_ (a, b)).2 ⟨tie, first.root a member live, second.root b member' live'⟩)

end

end Heap

namespace Machine

section

variable {sized : Bool} {ties ties' : Ties} {m n : Machine}

theorem mem_symbol_roots {r : Ref} (member : r ∈ m.store.roots) : r ∈ m.roots := by
  simp only [Machine.roots, List.mem_append]
  exact Or.inl (Or.inr member)

theorem mem_module_roots {r : Ref} (member : r ∈ m.registry.roots) : r ∈ m.roots := by
  simp only [Machine.roots, List.mem_append]
  exact Or.inr member

/-- Machines go together under other ties as long as those hold for the roots. -/
theorem Twins.imp (twins : m.Twins sized ties n) {h k : Heap} (heaps : h.Twins ties' k)
    (imp : ∀ a ∈ m.roots, ∀ b ∈ n.roots, Tied ties a b → Tied ties' a b) :
    (m.withHeap h).Twins sized ties' (n.withHeap k) where
  store := by
    refine ⟨heaps, ?_, twins.store.kept₁, twins.store.kept₂⟩
    refine forall₂_imp_mem twins.store.symbols fun p member q member' both => ⟨both.1, ?_⟩
    refine imp _ (mem_symbol_roots ?_) _ (mem_symbol_roots ?_) both.2
    · exact List.mem_map.2 ⟨p, member, rfl⟩
    · exact List.mem_map.2 ⟨q, member', rfl⟩
  registry := twins.registry.imp fun a member b member' =>
    imp a (mem_module_roots member) b (mem_module_roots member')
  top := twins.top.imp fun a member b member' =>
    imp a (mem_frame_roots (by simp [frames]) member) b (mem_frame_roots (by simp [frames]) member')
  callers := by
    refine forall₂_imp_mem twins.callers fun f inside g inside' same => same.imp ?_
    intro a member b member'
    refine imp a (mem_frame_roots ?_ member) b (mem_frame_roots ?_ member')
    · exact List.mem_append_left _ inside
    · exact List.mem_append_left _ inside'
  user := twins.user
  truth := by
    rcases twins.truth with null | tie
    · exact Or.inl null
    · obtain ⟨live, live'⟩ := twins.heap.paired.live tie
      refine imp _ (mem_symbol_roots ?_) _ (mem_symbol_roots ?_) (Or.inr tie)
      · exact twins.store.kept₁.resolve_left live.ne_null
      · exact twins.store.kept₂.resolve_left live'.ne_null
  output := twins.output
  maxFrames := twins.maxFrames

/-- A collection frees cells that the roots do not need; besides, it may write to the
    journal. -/
theorem collectIfDue_eq (m : Machine) (tidy : m.heap.Tidy) :
    ∃ heap journal, m.collectIfDue = (m.withHeap heap).withJournal journal ∧
      m.heap.Sweeps m.roots heap := by
  unfold collectIfDue
  split
  · obtain ⟨journal, collected⟩ := collectGarbage_eq m
    exact ⟨_, journal, collected, Heap.sweeps_collect tidy m.roots⟩
  · exact ⟨m.heap, m.journal, rfl, .refl tidy m.roots⟩

theorem Twins.collectIfDue (twins : m.Twins sized ties n) :
    ∃ ties', m.collectIfDue.Still sized (m, n) ties' n.collectIfDue ∧
      ∀ a ∈ m.roots, ∀ b ∈ n.roots, Tied ties a b → Tied ties' a b := by
  obtain ⟨heap, journal, eq, sweeps⟩ := collectIfDue_eq m twins.heap.tidy₁
  obtain ⟨heap', journal', eq', sweeps'⟩ := collectIfDue_eq n twins.heap.tidy₂
  obtain ⟨ties', heaps, kept⟩ := twins.heap.sweep sweeps sweeps'
  refine ⟨ties', ?_, kept⟩
  rw [eq, eq']
  exact ⟨(twins.imp heaps kept).withJournal journal journal', ⟨rfl, rfl⟩, ⟨rfl, rfl⟩⟩

end

/-! ## Top-level forms -/

section

variable {sized : Bool} {ties : Ties} {m n m' n' : Machine} {form form' : Ref}

theorem Twins.idle (twins : m.Twins sized ties n) (idle : m.callers = #[]) : n.callers = #[] := by
  have sizes := twins.depth
  simp only [Machine.depth, idle] at sizes
  exact Array.eq_empty_of_size_eq_zero (by simpa using sizes.symm)

theorem Still.unwind (idle : m.callers = #[]) (idle' : n.callers = #[])
    (still : m'.Still sized (m.withTop (m.top.push form), n.withTop (n.top.push form')) ties n') :
    (m'.unwindTo m.top.stack.length).Still sized (m, n) ties (n'.unwindTo n.top.stack.length) := by
  have pushed := still.twins.top
  rw [still.frames₁.top, still.frames₂.top] at pushed
  have piles : List.Forall₂ (Tied ties) m.top.stack n.top.stack := (List.forall₂_cons.1 pushed.stack).2
  rw [unwindTo_pushed idle still.frames₁, unwindTo_pushed idle' still.frames₂]
  exact ⟨still.twins.withTop ⟨piles, pushed.locals, pushed.activity, pushed.home⟩,
    ⟨rfl, still.frames₁.callers⟩, ⟨rfl, still.frames₂.callers⟩⟩

/-- The ties of the values on the work stacks are among the new ones. -/
def HoldOn (m n : Machine) (ties ties' : Ties) : Prop :=
  ∀ a ∈ m.top.stack, ∀ b ∈ n.top.stack, Tied ties a b → Tied ties' a b

/-- A form leaves the frames as they were, and the values on the work stacks stay
    tied, whatever is collected before it. -/
theorem evalFormWith_twins (host host' : Host) (fuel fuel' : Nat) (twins : m.Twins sized ties n)
    (idle : m.callers = #[]) (tied : Tied ties form form') :
    Alike (Stop.AtLimit (EvalError.isLimit sized))
      (fun a m' b n' => ∃ ties', m'.Still sized (m, n) ties' n' ∧ m.HoldOn n ties ties' ∧ Tied ties' a b)
      (fun m' n' => ∃ ties', m'.Still sized (m, n) ties' n' ∧ m.HoldOn n ties ties')
      (evalFormWith host fuel form m) (evalFormWith host' fuel' form' n) := by
  have idle' := twins.idle idle
  have pushed : (m.withTop (m.top.push form)).Twins sized ties (n.withTop (n.top.push form')) :=
    twins.withTop (twins.top.push tied)
  obtain ⟨ties₁, still₁, kept⟩ := pushed.collectIfDue
  have tied₁ : Tied ties₁ form form' :=
    kept _ (mem_stack_roots List.mem_cons_self) _ (mem_stack_roots List.mem_cons_self) tied
  have holdOn : ∀ ties₂, ties₁ ⊆ ties₂ → m.HoldOn n ties ties₂ := by
    intro ties₂ sub a member b member' old
    refine Tied.mono (kept a (mem_stack_roots ?_) b (mem_stack_roots ?_) old) sub
    · exact List.mem_cons_of_mem _ member
    · exact List.mem_cons_of_mem _ member'
  -- Both machines write to the journal and drop what the form has left on their stacks.
  have left : ∀ (e : Stop EvalError) (m₂ n₂ : Machine), (∃ ties₂, ties₁ ⊆ ties₂ ∧ Machine.Still sized
        (m.withTop (m.top.push form), n.withTop (n.top.push form')) ties₂ m₂ n₂) →
      ∃ ties₂, ((m₂.noteFailure e).unwindTo m.top.stack.length).Still sized (m, n) ties₂
        ((n₂.noteFailure e).unwindTo n.top.stack.length) ∧ m.HoldOn n ties ties₂ := by
    rintro e m₂ n₂ ⟨ties₂, sub₂, still₂⟩
    obtain ⟨journal, noted⟩ := noteFailure_eq e m₂
    obtain ⟨journal', noted'⟩ := noteFailure_eq e n₂
    rw [noted, noted']
    exact ⟨ties₂, (still₂.withJournal journal journal').unwind idle idle', holdOn ties₂ sub₂⟩
  have ran := @evaluated_in (m.withTop (m.top.push form), n.withTop (n.top.push form')) sized ties₁ host
    host' fuel fuel' (n.withTop (n.top.push form')).collectIfDue.user form form' tied₁ ties₁
    (List.Subset.refl _) _ _ still₁
  unfold evalFormWith
  dsimp only
  rw [bottom_idle idle, bottom_idle idle', modifyBottom_push idle, modifyBottom_push idle',
    still₁.twins.user]
  generalize evalIn host fuel _ form _ = first, evalIn host' fuel' _ form' _ = second at ran
  cases ran with
  | @limit₁ e m₂ n₂ _ reached failed => exact .limit₁ reached (left e m₂ n₂ failed)
  | @limit₂ e m₂ n₂ _ reached failed => exact .limit₂ reached (left e m₂ n₂ failed)
  | ok done =>
      obtain ⟨ties₂, sub₂, still₂, related⟩ := done
      exact .ok ⟨ties₂, still₂.unwind idle idle', holdOn ties₂ sub₂, related⟩
  | @error e m₂ n₂ failed => exact .error (left e m₂ n₂ failed)

end

/-! ## Texts -/

/-- Two attempts at reading a form that go together: both read the same up to ties, both
    fail in the same way, or one of them finds no room in its heap, in a state that goes
    together with another. -/
inductive SameRead (sized : Bool) (base : Machine × Machine) (ties : Ties) :
    Except ReadError (Option Ref) × Reader × Machine →
    Except ReadError (Option Ref) × Reader × Machine → Prop where
  | read {ties' : Ties} {a b : Option Ref} {m n : Machine} (reader : Reader) : ties ⊆ ties' →
      m.Still sized base ties' n → Option.Rel (Tied ties') a b →
      SameRead sized base ties (.ok a, reader, m) (.ok b, reader, n)
  | failed {ties' : Ties} {e : ReadError} {m n : Machine} (reader : Reader) : ties ⊆ ties' →
      m.Still sized base ties' n → SameRead sized base ties (.error e, reader, m) (.error e, reader, n)
  | limit₁ {ties' : Ties} {e : ReadError} {reader : Reader} {m n : Machine}
      {other : Except ReadError (Option Ref) × Reader × Machine} : e.isLimit = true →
      m.Still sized base ties' n → SameRead sized base ties (.error e, reader, m) other
  | limit₂ {ties' : Ties} {e : ReadError} {reader : Reader} {m n : Machine}
      {other : Except ReadError (Option Ref) × Reader × Machine} : e.isLimit = true →
      m.Still sized base ties' n → SameRead sized base ties other (.error e, reader, n)

/-- Results that are the same up to related cells. -/
inductive SameResult (related : Ref → Ref → Prop) : FormResult → FormResult → Prop where
  | ok {a b : Ref} : related a b → SameResult related (.ok a) (.ok b)
  | error (e : EvalError) : SameResult related (.error e) (.error e)

/-- No result tells of the size of the heap or of the stack of frames. -/
def Unlimited (sized : Bool) (results : List FormResult) : Prop :=
  ∀ e, .error e ∈ results → e.isLimit sized = false

theorem Unlimited.not_limit {sized : Bool} {results : List FormResult} {e : EvalError}
    (unlimited : Unlimited sized results) (member : .error e ∈ results) : e.isLimit sized ≠ true := by
  rw [unlimited e member]
  exact Bool.false_ne_true

section

variable {sized : Bool} {ties : Ties} {m n m' n' : Machine}

theorem readForm_twins (twins : m.Twins sized ties n) (reader : Reader) :
    SameRead sized (m, n) ties (readForm reader m) (readForm reader n) := by
  have both := Reader.readFrom_twins reader.length reader.ahead twins.store .nil
  unfold readForm Reader.read
  dsimp only
  generalize Reader.readFrom reader.length [] reader.ahead m.store = first,
    Reader.readFrom reader.length [] reader.ahead n.store = second at both
  cases both with
  | limit₁ reached failed =>
      obtain ⟨ties', sub, _, stores⟩ := failed
      exact .limit₁ reached ⟨twins.withStore sub stores, ⟨rfl, rfl⟩, ⟨rfl, rfl⟩⟩
  | limit₂ reached failed =>
      obtain ⟨ties', sub, _, stores⟩ := failed
      exact .limit₂ reached ⟨twins.withStore sub stores, ⟨rfl, rfl⟩, ⟨rfl, rfl⟩⟩
  | @ok a p b q done =>
      obtain ⟨ties', sub, ⟨readers, stores⟩, related⟩ := done
      rcases p with ⟨left, s⟩
      rcases q with ⟨left', t⟩
      dsimp only at readers stores
      subst readers
      exact .read left sub ⟨twins.withStore sub stores, ⟨rfl, rfl⟩, ⟨rfl, rfl⟩⟩ related
  | @error e p q failed =>
      obtain ⟨ties', sub, readers, stores⟩ := failed
      rcases p with ⟨left, s⟩
      rcases q with ⟨left', t⟩
      dsimp only at readers stores
      subst readers
      exact .failed left sub ⟨twins.withStore sub stores, ⟨rfl, rfl⟩, ⟨rfl, rfl⟩⟩

/-- Results are only added. -/
theorem evalForms_results {fuel count : Nat} {reader : Reader} {results all : List FormResult}
    (done : evalForms fuel count reader results m = some (all, m')) : results ⊆ all := by
  induction count generalizing reader results m with
  | zero =>
      cases done
      exact List.Subset.refl _
  | succ count ih =>
      unfold evalForms at done
      split at done
      · cases done
        exact List.Subset.refl _
      · cases done
        exact List.subset_cons_self _ _
      · split at done
        · exact List.Subset.trans (List.subset_cons_self _ _) (ih done)
        · exact List.Subset.trans (List.subset_cons_self _ _) (ih done)
        · cases done

/-- Between two forms of a text no call is under way, and the values found so far are on
    the work stack. -/
structure Holds (results : List FormResult) (m : Machine) : Prop where
  idle : m.callers = #[]
  pinned : ∀ value, .ok value ∈ results → value ∈ m.top.stack

theorem Holds.still {results : List FormResult} (holds : m.Holds results)
    (frames : m.SameFrames m') : m'.Holds results :=
  ⟨frames.callers.trans holds.idle, by rw [frames.top]; exact holds.pinned⟩

theorem Holds.error {results : List FormResult} (holds : m.Holds results) (e : EvalError) :
    m.Holds (.error e :: results) := by
  refine ⟨holds.idle, fun value member => holds.pinned value ?_⟩
  rcases List.mem_cons.1 member with same | old
  · cases same
  · exact old

theorem Holds.ok {results : List FormResult} (holds : m.Holds results) (value : Ref) :
    (m.withTop (m.top.push value)).Holds (.ok value :: results) := by
  refine ⟨holds.idle, fun other member => ?_⟩
  rcases List.mem_cons.1 member with same | old
  · cases same
    exact List.mem_cons_self
  · exact List.mem_cons_of_mem _ (holds.pinned other old)

/-- Values that are held stay tied. -/
theorem HoldOn.results {results results' : List FormResult} {ties' : Ties}
    (holdOn : m.HoldOn n ties ties') (holds : m.Holds results) (holds' : n.Holds results')
    (same : List.Forall₂ (SameResult (Tied ties)) results results') :
    List.Forall₂ (SameResult (Tied ties')) results results' := by
  refine forall₂_imp_mem same fun r member r' member' both => ?_
  cases both with
  | error e => exact .error e
  | ok tied => exact .ok (holdOn _ (holds.pinned _ member) _ (holds'.pinned _ member') tied)

theorem sameResult_mono {results results' : List FormResult} {ties' : Ties} (sub : ties ⊆ ties')
    (same : List.Forall₂ (SameResult (Tied ties)) results results') :
    List.Forall₂ (SameResult (Tied ties')) results results' := by
  refine same.imp fun r r' both => ?_
  cases both with
  | error e => exact .error e
  | ok tied => exact .ok (tied.mono sub)

/-- Form by form, the machines stay the same up to ties and so do the results. -/
theorem evalForms_twins (fuel fuel' count : Nat) (reader : Reader)
    {results results' all all' : List FormResult} (twins : m.Twins sized ties n)
    (same : List.Forall₂ (SameResult (Tied ties)) results results') (holds : m.Holds results)
    (holds' : n.Holds results')
    (done : evalForms fuel count reader results m = some (all, m'))
    (done' : evalForms fuel' count reader results' n = some (all', n'))
    (unlimited : Unlimited sized all) (unlimited' : Unlimited sized all') :
    ∃ ties', m'.Twins sized ties' n' ∧ m'.callers = #[] ∧
      List.Forall₂ (SameResult (Tied ties')) all all' := by
  induction count generalizing ties reader results results' m n with
  | zero =>
      cases done
      cases done'
      exact ⟨ties, twins, holds.idle, same⟩
  | succ count ih =>
      have reads := readForm_twins twins reader
      unfold evalForms at done done'
      generalize readForm reader m = first, readForm reader n = second at reads done done'
      cases reads with
      | limit₁ reached =>
          cases done
          exact (unlimited.not_limit List.mem_cons_self reached).elim
      | limit₂ reached =>
          cases done'
          exact (unlimited'.not_limit List.mem_cons_self reached).elim
      | failed _ sub still =>
          cases done
          cases done'
          exact ⟨_, still.twins, still.frames₁.callers.trans holds.idle,
            .cons (.error _) (sameResult_mono sub same)⟩
      | @read ties₁ _ _ m₁ n₁ left sub still related =>
          have same₁ := sameResult_mono sub same
          have holds₁ := holds.still still.frames₁
          have holds₁' := holds'.still still.frames₂
          cases related with
          | none =>
              cases done
              cases done'
              exact ⟨ties₁, still.twins, holds₁.idle, same₁⟩
          | @some form form' tied =>
              have ran := evalFormWith_twins (serve fuel) (serve fuel') fuel fuel' still.twins
                holds₁.idle tied
              dsimp only [evalForm] at done done'
              generalize evalFormWith (serve fuel) fuel form m₁ = first,
                evalFormWith (serve fuel') fuel' form' n₁ = second at ran done done'
              cases ran with
              | @limit₁ e _ _ _ reached =>
                  cases e with
                  | outOfFuel => cases done
                  | failed e =>
                      exact (unlimited.not_limit (evalForms_results done List.mem_cons_self) reached).elim
              | @limit₂ e _ _ _ reached =>
                  cases e with
                  | outOfFuel => cases done'
                  | failed e =>
                      exact (unlimited'.not_limit (evalForms_results done' List.mem_cons_self) reached).elim
              | @error e _ _ failed =>
                  cases e with
                  | outOfFuel => cases done
                  | failed e =>
                      obtain ⟨ties₂, still₂, holdOn⟩ := failed
                      have same₂ := holdOn.results holds₁ holds₁' same₁
                      exact ih left still₂.twins (.cons (.error e) same₂)
                        ((holds₁.still still₂.frames₁).error e)
                        ((holds₁'.still still₂.frames₂).error e) done done'
              | @ok value m₂ value' n₂ ended =>
                  obtain ⟨ties₂, still₂, holdOn, tied₂⟩ := ended
                  have same₂ := holdOn.results holds₁ holds₁' same₁
                  have holds₂ := holds₁.still still₂.frames₁
                  have holds₂' := holds₁'.still still₂.frames₂
                  dsimp only at done done'
                  rw [modifyBottom_push holds₂.idle] at done
                  rw [modifyBottom_push holds₂'.idle] at done'
                  exact ih left (still₂.twins.push tied₂) (.cons (.ok tied₂) same₂)
                    (holds₂.ok value) (holds₂'.ok value') done done'

/-- A whole text. -/
theorem evalText_twins {fuel fuel' : Nat} {source : String} {results results' : List FormResult}
    (twins : m.Twins sized ties n) (idle : m.callers = #[])
    (done : evalText fuel source m = some (results, m'))
    (done' : evalText fuel' source n = some (results', n')) (unlimited : Unlimited sized results)
    (unlimited' : Unlimited sized results') :
    ∃ ties', m'.Twins sized ties' n' ∧ m'.callers = #[] ∧
      List.Forall₂ (SameResult (Tied ties')) results results' := by
  have idle' := twins.idle idle
  unfold evalText at done done'
  dsimp only at done done'
  split at done
  · cases done
  · next found m₁ ran =>
      split at done'
      · cases done'
      · next found' n₁ ran' =>
          cases done
          cases done'
          obtain ⟨ties', twins₁, idle₁, same⟩ := evalForms_twins fuel fuel' _ _ twins .nil
            ⟨idle, by simp⟩ ⟨idle', by simp⟩ ran ran'
            (fun e member => unlimited e (List.mem_reverse.2 member))
            (fun e member => unlimited' e (List.mem_reverse.2 member))
          have idle₁' := twins₁.idle idle₁
          have piles := twins₁.top.stack
          rw [modifyBottom_idle idle₁, modifyBottom_idle idle₁', bottom_idle idle, bottom_idle idle',
            twins.top.stack.length_eq, piles.length_eq]
          refine ⟨ties', twins₁.withTop ⟨List.forall₂_drop _ piles, ?_, ?_, ?_⟩, idle₁,
            List.forall₂_reverse_iff.2 same⟩
          · exact twins₁.top.locals
          · exact twins₁.top.activity
          · exact twins₁.top.home

end

/-! ## Start -/

theorem tidy_ofConfig (config : Config) : (Heap.ofConfig config).Tidy where
  wellFormed := (safe_ofConfig config).wellFormed
  unmarked := (safe_ofConfig config).unmarked
  plain := (safe_ofConfig config).plain
  closed := by
    intro r cell found
    rcases r.null_or_ofSlot with rfl | ⟨slot, rfl⟩ <;>
      simp [Heap.ofConfig, Heap.ofArenaSize] at found

theorem blank_twins (config config' : Config) (level level' : Option NoteLevel) :
    (blank config level).Twins false [] (blank config' level') where
  store := ⟨⟨tidy_ofConfig config, tidy_ofConfig config', .nil⟩, .nil, Or.inl rfl, Or.inl rfl⟩
  registry := ⟨.nil, .nil, by simp [blank, Registry.empty], by simp [blank, Registry.empty]⟩
  top := ⟨.nil, .nil, .waiting, rfl⟩
  callers := .nil
  user := rfl
  truth := .null []
  output := rfl
  maxFrames := nofun

/-- A name that was interned belongs to the roots. -/
theorem mem_roots_of_intern {ε : Type} {f : HeapError → ε} {name : String} {r : Ref}
    {m m' : Machine} (done : intern f name m = .ok r m') : r ∈ m'.store.roots := by
  unfold intern onStore at done
  dsimp only at done
  rw [Store.intern_apply] at done
  cases found : m.store.lookup name with
  | some cell =>
      rw [found] at done
      cases done
      exact List.mem_map.2 ⟨_, Assoc.mem_of_lookup found, rfl⟩
  | none =>
      rw [found] at done
      dsimp only at done
      cases made : Heap.alloc (.scalar (.symbol name)) m.store.heap with
      | error e heap =>
          rw [made] at done
          cases done
      | ok cell heap =>
          rw [made] at done
          cases done
          exact Store.mem_roots_insert found _ (Or.inr rfl)

/-- Fresh machines are the same up to ties. -/
theorem boot_twins {config config' : Config} {level level' : Option NoteLevel} {m n : Machine}
    (booted : boot config level = .ok m) (booted' : boot config' level' = .ok n) :
    ∃ ties, m.Twins false ties n ∧ m.callers = #[] := by
  obtain ⟨truth, m₁, name, m₂, user, m₃, interned, named, ensured, rfl⟩ := boot_ok booted
  obtain ⟨truth', n₁, name', n₂, user', n₃, interned', named', ensured', rfl⟩ := boot_ok booted'
  have first := @mirrors_intern HeapError false [] (fun _ => True) id (fun _ => trivial) Keyword.t.name []
    (List.Subset.refl _) _ _ (blank_twins config config' level level')
  have frames := onStore_frames id (Store.intern Keyword.t.name) (blank config level)
  rw [show onStore id (Store.intern Keyword.t.name) (blank config level) = .ok truth m₁ from
    interned] at frames
  rw [interned, interned'] at first
  cases first with
  | ok done =>
      obtain ⟨ties₁, _, twins₁, truths⟩ := done
      have kept := mem_roots_of_intern interned
      have kept' := mem_roots_of_intern interned'
      have still₁ : Still false ({ m₁ with truth := truth }, { n₁ with truth := truth' }) ties₁
          { m₁ with truth := truth } { n₁ with truth := truth' } :=
        ⟨⟨⟨twins₁.store.heap, twins₁.store.symbols, Or.inr kept, Or.inr kept'⟩, twins₁.registry,
          twins₁.top, twins₁.callers, twins₁.user, truths, twins₁.output, nofun⟩, .refl _, .refl _⟩
      have second := @still_intern HeapError (fun _ => True) _ false ties₁ id (fun _ => trivial)
        Keyword.user.name ties₁ (List.Subset.refl _) _ _ still₁
      rw [named, named'] at second
      cases second with
      | ok done =>
          obtain ⟨ties₂, _, still₂, names⟩ := done
          have third := @still_ensureModule HeapError (fun _ => True) _ false ties₂ id (fun _ => trivial) _ _
            names ties₂ (List.Subset.refl _) _ _ still₂
          rw [ensured, ensured'] at third
          cases third with
          | ok done =>
              obtain ⟨ties₃, _, still₃, users⟩ := done
              subst users
              refine ⟨ties₃, ⟨still₃.twins.store, still₃.twins.registry, ⟨.nil, .nil, .waiting, rfl⟩,
                still₃.twins.callers, rfl, still₃.twins.truth, still₃.twins.output, nofun⟩, ?_⟩
              exact still₃.frames₁.callers.trans frames.callers

/-! ## Sessions -/

/-- What a form shows: the text of its value, or its failure. -/
def shown (m : Machine) : FormResult → Except EvalError String
  | .ok value => .ok (m.display value)
  | .error e => .error e

end Machine

/-- What can be seen of the evaluation of a text: what its forms show after the last of
    them has run, and the text printed so far. -/
structure Report where
  results : List (Except EvalError String)
  output : String
deriving DecidableEq

/-- No result tells of the size of the heap or of the stack of frames. -/
def Report.Unlimited (report : Report) : Prop :=
  ∀ e, .error e ∈ report.results → e.isLimit false = false

namespace Machine

/-- Texts evaluated one after the other, each with enough fuel, and what can be seen of
    each. -/
inductive Session : Machine → List String → List Report → Prop where
  | nil (m : Machine) : Session m [] []
  | cons {m m' : Machine} {source : String} {sources : List String} {results : List FormResult}
      {reports : List Report} (fuel : Nat) : evalText fuel source m = some (results, m') →
      Session m' sources reports →
      Session m (source :: sources) (⟨results.map m'.shown, m'.output⟩ :: reports)

section

variable {sized : Bool} {ties : Ties} {m n : Machine}

theorem shown_twins (twins : m.Twins sized ties n) {r r' : FormResult}
    (same : SameResult (Tied ties) r r') : m.shown r = n.shown r' := by
  cases same with
  | ok tied => exact congrArg Except.ok (twins.display tied)
  | error e => rfl

theorem map_shown_twins (twins : m.Twins sized ties n) {results results' : List FormResult}
    (same : List.Forall₂ (SameResult (Tied ties)) results results') :
    results.map m.shown = results'.map n.shown := by
  induction same with
  | nil => rw [List.map_nil, List.map_nil]
  | cons head _ ih => rw [List.map_cons, List.map_cons, shown_twins twins head, ih]

theorem unlimited_of_shown {results : List FormResult} {output : String}
    (unlimited : Report.Unlimited ⟨results.map m.shown, output⟩) : Unlimited false results :=
  fun e member => unlimited e (List.mem_map.2 ⟨.error e, member, rfl⟩)

/-- Machines that are the same up to ties have the same sessions. -/
theorem Session.twins {sources : List String} {reports reports' : List Report}
    (session : m.Session sources reports) (session' : n.Session sources reports')
    (twins : m.Twins false ties n) (idle : m.callers = #[])
    (unlimited : ∀ report ∈ reports, report.Unlimited)
    (unlimited' : ∀ report ∈ reports', report.Unlimited) : reports = reports' := by
  induction session generalizing n reports' ties with
  | nil =>
      cases session'
      rfl
  | cons fuel done _ ih =>
      cases session' with
      | cons fuel' done' rest' =>
          obtain ⟨ties₁, twins₁, idle₁, same⟩ := evalText_twins twins idle done done'
            (unlimited_of_shown (unlimited _ List.mem_cons_self))
            (unlimited_of_shown (unlimited' _ List.mem_cons_self))
          have rest := ih rest' twins₁ idle₁
            (fun report member => unlimited report (List.mem_cons_of_mem _ member))
            (fun report member => unlimited' report (List.mem_cons_of_mem _ member))
          rw [rest, map_shown_twins twins₁ same, twins₁.output]

end

/-- Settings cannot be observed: machines that start with any two settings and evaluate
    the same texts show the same values, the same failures and the same printed text, text
    by text and form by form, if none of them comes to a limit of its heap or its frames. -/
theorem settings_cannot_be_observed {config config' : Config} {level level' : Option NoteLevel}
    {m n : Machine} (booted : boot config level = .ok m) (booted' : boot config' level' = .ok n)
    {sources : List String} {reports reports' : List Report} (session : m.Session sources reports)
    (session' : n.Session sources reports') (unlimited : ∀ report ∈ reports, report.Unlimited)
    (unlimited' : ∀ report ∈ reports', report.Unlimited) : reports = reports' := by
  obtain ⟨ties, twins, idle⟩ := boot_twins booted booted'
  exact session.twins session' twins idle unlimited unlimited'

/-- The reports of a session, computed text by text. -/
def reportsFrom (fuel : Nat) : Machine → List String → Option (List Report)
  | _, [] => some []
  | m, source :: sources =>
      match evalText fuel source m with
      | none => none
      | some (results, m') =>
          match reportsFrom fuel m' sources with
          | none => none
          | some reports => some (⟨results.map m'.shown, m'.output⟩ :: reports)

theorem session_of_reportsFrom {fuel : Nat} {m : Machine} {sources : List String}
    {reports : List Report} (done : reportsFrom fuel m sources = some reports) :
    m.Session sources reports := by
  induction sources generalizing m reports with
  | nil =>
      cases done
      exact .nil m
  | cons source sources ih =>
      unfold reportsFrom at done
      split at done
      · cases done
      · next results m' ran =>
          split at done
          · cases done
          · next rest more =>
              cases done
              exact .cons fuel ran (ih more)

/-- The reports of a fresh machine. -/
def reportsOf (config : Config) (sources : List String) : Option (List Report) :=
  match boot config none with
  | .ok m => reportsFrom 100 m sources
  | .error _ => none

theorem boot_of_reportsOf {config : Config} {sources : List String} {reports : List Report}
    (done : reportsOf config sources = some reports) :
    ∃ m, boot config none = .ok m ∧ m.Session sources reports := by
  unfold reportsOf at done
  split at done
  · next m booted => exact ⟨m, booted, session_of_reportsFrom done⟩
  · cases done

/-- A machine that collects before every form and one that never does, on texts that
    define, redefine, fail and print. -/
theorem settings_cannot_be_observed_sample :
    let sources := ["(defun f (x) (cons x 'a)) (f (print (f 1)))", "(car 5) (defun f (x) (+ x 1)) (f 6)"]
    let first := [⟨[.ok "f", .ok "((1 . a) . a)"], "(1 . a)\n"⟩,
      ⟨[.error (.runtime (.typeError "car" "list" "5")), .ok "f", .ok "7"], "(1 . a)\n"⟩]
    ∃ m n second, boot { arenaSize := 8 } none = .ok m ∧
      boot { arenaSize := 64, collects := false, maxFrames := 40 } none = .ok n ∧
      m.Session sources first ∧ n.Session sources second ∧ first = second := by
  intro sources first
  have small : reportsOf { arenaSize := 8 } sources = some first := by decide +kernel
  have large : reportsOf { arenaSize := 64, collects := false, maxFrames := 40 } sources = some first := by
    decide +kernel
  obtain ⟨m, booted, session⟩ := boot_of_reportsOf small
  obtain ⟨n, booted', session'⟩ := boot_of_reportsOf large
  have unlimited : ∀ report ∈ first, report.Unlimited := by
    intro report member e inside
    simp only [first, List.mem_cons, List.not_mem_nil, or_false] at member
    rcases member with rfl | rfl
    · simp at inside
    · simp only [List.mem_cons, Except.error.injEq, reduceCtorEq, List.not_mem_nil, or_false] at inside
      rw [inside]
      rfl
  exact ⟨m, n, first, booted, booted', session, session',
    settings_cannot_be_observed booted booted' session session' unlimited unlimited⟩

end Machine

end LispMachine
