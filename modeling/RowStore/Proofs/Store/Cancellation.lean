import RowStore.Proofs.Store.Removal

/-!
# A replacement looks at its cancellation on schedule and stops between two steps

* `RowStep`, `replacement` : the steps of a replacement, the removals first;
* `paced` : the steps with the looks at the cancellation, one before every 128th;
* `Carried` : steps have been carried out in a table and each of them is logged;
* `updateRows_eq_paced` : a replacement is its paced steps, one after the other;
* `forM_paced_of_spared` : steps that nobody cancels are all carried out;
* `updateRows_stops_on_schedule` : the first look that finds a replacement canceled ends it, with the steps
  before it carried out and no others.
-/

namespace RowStore.Store
open RowStore.Action

variable {t u savepoint : Nat} {canceled : Nat → Bool}

/-! ## Steps -/

/-- A step of a replacement. -/
inductive RowStep where
  | remove (r : Row)
  /-- The place of a new row is that in the batch. -/
  | add (place : Nat) (r : Row)

/-- The steps that replace old rows by new ones. -/
def replacement (old new : List Row) : List RowStep :=
  old.map .remove ++ new.zipIdx.map fun p => .add p.2 p.1

namespace RowStep

/-- What a step does in the table, and the record of it. -/
def apply (t : Nat) : RowStep → Action Table UndoRecord
  | remove r => do
    Table.removeRow r
    pure ⟨t, .deleted, r⟩
  | add _ r => do
    let stored ← Table.addRow r
    pure ⟨t, .inserted, stored⟩

def perform (t u savepoint : Nat) : RowStep → Action Batch Unit
  | remove r => Batch.onStore do
      onTable t (Table.removeRow r)
      log t u .deleted r
  | add place r => do
    let stored ← Batch.onStore (addNew t u savepoint r)
    modify fun b => { b with rows := b.rows.set place stored }
    Batch.onStore (log t u .inserted stored)

end RowStep

/-- The steps have been carried out in a table, one after the other, and the session has logged the record
of each.  Nothing was done to other tables, other logs or the locks. -/
structure Carried (t u : Nat) (steps : List RowStep) (s s' : Store) : Prop where
  told : ∃ records, steps.mapM (RowStep.apply t) (s.table t) = .ok records (s'.table t) ∧
    s'.undoLog u = s.undoLog u ++ records
  outside : s'.outside t u = s.outside t u

section Carried
variable {x : RowStep} {steps : List RowStep} {s s' s'' : Store} {b : Batch} {record : UndoRecord}
  {table : Table}

theorem carried_nil (t u : Nat) (s : Store) : Carried t u [] s s :=
  ⟨⟨[], rfl, (List.append_nil _).symm⟩, rfl⟩

theorem mapM_apply_cons {records : List UndoRecord} {table table' : Table} :
    (x :: steps).mapM (RowStep.apply t) table = .ok records table' ↔
      ∃ record table₁ rest, x.apply t table = .ok record table₁ ∧
        steps.mapM (RowStep.apply t) table₁ = .ok rest table' ∧ records = record :: rest := by
  rw [List.mapM_cons, bind_eq_ok]
  simp only [bind_eq_ok]
  constructor
  · rintro ⟨record, table₁, hx, rest, _, hsteps, hend⟩
    cases hend
    exact ⟨record, table₁, rest, hx, hsteps, rfl⟩
  · rintro ⟨record, table₁, rest, hx, hsteps, rfl⟩
    exact ⟨record, table₁, hx, rest, table', hsteps, rfl⟩

theorem Carried.cons (h : Carried t u [x] s s') (h' : Carried t u steps s' s'') :
    Carried t u (x :: steps) s s'' := by
  obtain ⟨⟨_, hx, hlog⟩, hout⟩ := h
  obtain ⟨⟨rest, hsteps, hlog'⟩, hout'⟩ := h'
  obtain ⟨record, _, _, hx, hnil, rfl⟩ := mapM_apply_cons.1 hx
  cases hnil
  refine ⟨⟨record :: rest, mapM_apply_cons.2 ⟨record, _, rest, hx, hsteps, rfl⟩, ?_⟩, hout'.trans hout⟩
  rw [hlog', hlog, List.append_assoc]
  rfl

/-- The session has as many more records as there were steps. -/
theorem Carried.undoLog_length (h : Carried t u steps s s') :
    (s'.undoLog u).length = (s.undoLog u).length + steps.length := by
  obtain ⟨⟨records, hsteps, hlog⟩, -⟩ := h
  rw [hlog, List.length_append, Nat.add_left_cancel_iff]
  clear hlog
  generalize s.table t = table at hsteps
  induction steps generalizing records table with
  | nil =>
    cases hsteps
    rfl
  | cons x steps ih =>
    obtain ⟨record, table₁, rest, -, hrest, rfl⟩ := mapM_apply_cons.1 hsteps
    exact congrArg (· + 1) (ih rest table₁ hrest)

/-- A change of the table that the session logs. -/
theorem carried_recorded (hx : x.apply t (s.table t) = .ok record table) :
    Carried t u [x] s ((s.setTable t table).recorded u record) := by
  refine ⟨⟨[record], ?_, undoLog_recorded _ u record⟩, ?_⟩
  · have htable : ((s.setTable t table).recorded u record).table t = table := table_setTable s t table
    rw [htable]
    exact mapM_apply_cons.2 ⟨record, table, [], hx, rfl, rfl⟩
  · exact (outside_setSession _ _).trans (outside_setTable s table)

/-- A step that the table takes is carried out. -/
theorem RowStep.perform_of_ok (savepoint : Nat) (hx : x.apply t (b.store.table t) = .ok record table) :
    ∃ b', x.perform t u savepoint b = .ok () b' ∧ b'.polls = b.polls ∧
      b'.store = (b.store.setTable t table).recorded u record := by
  cases x with
  | remove r =>
    obtain ⟨_, _, hr, hend⟩ := bind_eq_ok.1 hx
    cases hend
    have hs : onTable t (Table.removeRow r) b.store = .ok () (b.store.setTable t table) :=
      within_of_ok hr
    exact ⟨_, onStore_of_ok (bind_of_ok hs), rfl, rfl⟩
  | add place r =>
    obtain ⟨stored, _, hr, hend⟩ := bind_eq_ok.1 hx
    cases hend
    have hs : onTable t (Table.addRow r) b.store = .ok stored (b.store.setTable t table) :=
      within_of_ok hr
    refine ⟨⟨(b.store.setTable t table).recorded u ⟨t, .inserted, stored⟩, b.rows.set place stored,
      b.polls⟩, ?_, rfl, rfl⟩
    refine (bind_of_ok (onStore_of_ok (addNew_of_ok hs))).trans ?_
    exact onStore_of_ok (log_eq _ t u .inserted stored)

end Carried

/-! ## Looks -/

/-- A look at the cancellation, or a step. -/
inductive Pace where
  | look
  | change (x : RowStep)

/-- The steps, with a look right before each whose number is a multiple of 128.  The first step has the
number `n`. -/
def paced (n : Nat) (steps : List RowStep) : List Pace :=
  (steps.zipIdx n).flatMap fun p =>
    if p.2 % cancelInterval = 0 then [.look, .change p.1] else [.change p.1]

/-- Counts a look at the cancellation, and stops if the replacement was canceled. -/
def look (canceled : Nat → Bool) : Action Batch Unit := do
  let polls := (← get).polls + 1
  modify ({ · with polls := polls })
  if canceled polls then
    Action.refuse .statementCanceled

/-- What a look or a step does with a batch. -/
def Pace.perform (t u savepoint : Nat) (canceled : Nat → Bool) : Pace → Action Batch Unit
  | look => Store.look canceled
  | change x => x.perform t u savepoint

theorem paced_append (n : Nat) (xs ys : List RowStep) :
    paced n (xs ++ ys) = paced n xs ++ paced (n + xs.length) ys := by
  unfold paced
  rw [List.zipIdx_append, List.flatMap_append]

theorem forM_paced_cons (n : Nat) (x : RowStep) (steps : List RowStep) :
    (paced n (x :: steps)).forM (Pace.perform t u savepoint canceled) = (do
      Batch.poll canceled n
      x.perform t u savepoint
      (paced (n + 1) steps).forM (Pace.perform t u savepoint canceled)) := by
  unfold paced Batch.poll
  rw [List.zipIdx_cons, List.flatMap_cons]
  split <;> rfl

theorem forM_paced_append (n : Nat) (xs ys : List RowStep) :
    (paced n (xs ++ ys)).forM (Pace.perform t u savepoint canceled) = (do
      (paced n xs).forM (Pace.perform t u savepoint canceled)
      (paced (n + xs.length) ys).forM (Pace.perform t u savepoint canceled)) := by
  rw [paced_append]
  exact List.forM_append

theorem removeOld_eq_paced (savepoint step : Nat) (old : List Row) :
    removeOld t u canceled step old =
      (paced (step + 1) (old.map .remove)).forM (Pace.perform t u savepoint canceled) := by
  induction old generalizing step with
  | nil => rfl
  | cons r old ih =>
    rw [List.map_cons, forM_paced_cons, removeOld, ih]
    rfl

theorem addAllNew_eq_paced (step place : Nat) (rows : List Row) :
    addAllNew t u savepoint canceled step place rows =
      (paced (step + 1) ((rows.zipIdx place).map fun p => .add p.2 p.1)).forM
        (Pace.perform t u savepoint canceled) := by
  induction rows generalizing step place with
  | nil => rfl
  | cons r rows ih =>
    rw [List.zipIdx_cons, List.map_cons, forM_paced_cons, addAllNew, ih]
    simp only [RowStep.perform, bind_assoc]

/-- A replacement looks at its cancellation right before every 128th step, counted through both passes, and
at no other time. -/
theorem updateRows_eq_paced (old : List Row) (b : Batch) :
    updateRows t u canceled old b = (paced 1 (replacement old b.rows)).forM
      (Pace.perform t u (b.store.session u).position canceled) b := by
  unfold updateRows replacement
  rw [get_bind, forM_paced_append, removeOld_eq_paced (b.store.session u).position,
    addAllNew_eq_paced, List.length_map, Nat.zero_add, Nat.add_comm 1]

/-! ## Whole runs -/

section Runs
variable {b : Batch} {steps : List RowStep}

/-- A look that does not find the replacement canceled is counted, and that is all. -/
theorem poll_of_spared {polls done : Nat} (hb : b.polls = polls + done / 128)
    (live : ∀ k, 0 < k → 128 * k ≤ done + 1 → canceled (polls + k) = false) :
    Batch.poll canceled (done + 1) b = .ok () { b with polls := polls + (done + 1) / 128 } := by
  unfold Batch.poll cancelInterval
  split
  · rename_i hn
    have hk : polls + (done + 1) / 128 = b.polls + 1 := by omega
    have hlive := live ((done + 1) / 128) (by omega) (by omega)
    rw [hk] at hlive ⊢
    rw [get_bind, modify_bind, hlive]
    rfl
  · have hk : polls + (done + 1) / 128 = b.polls := by omega
    rw [hk]
    rfl

/-- Steps that the table takes and nobody cancels are all carried out. -/
theorem forM_paced_of_spared (savepoint polls done : Nat) (hb : b.polls = polls + done / 128)
    (taken : succeeds (steps.mapM (RowStep.apply t)) (b.store.table t) = true)
    (live : ∀ k, 0 < k → 128 * k ≤ done + steps.length → canceled (polls + k) = false) :
    ∃ b', (paced (done + 1) steps).forM (Pace.perform t u savepoint canceled) b = .ok () b' ∧
      b'.polls = polls + (done + steps.length) / 128 ∧ Carried t u steps b.store b'.store := by
  induction steps generalizing b done with
  | nil => exact ⟨b, rfl, hb, carried_nil t u b.store⟩
  | cons x steps ih =>
    rw [List.length_cons] at live ⊢
    obtain ⟨_, _, hall⟩ := exists_ok_of_succeeds taken
    obtain ⟨record, table, rest, hx, hrest, -⟩ := mapM_apply_cons.1 hall
    have hpoll := poll_of_spared hb fun k hk hle => live k hk (by omega)
    obtain ⟨b₁, hperform, hpolls, hstore⟩ := RowStep.perform_of_ok (u := u) savepoint
      (b := { b with polls := polls + (done + 1) / 128 }) hx
    have hcarried : Carried t u [x] b.store b₁.store := hstore ▸ carried_recorded hx
    have htable : b₁.store.table t = table := hstore ▸ table_setTable b.store t table
    obtain ⟨b', hrun, hpolls', hcarried'⟩ := ih (done + 1) hpolls
      (by rw [htable]; exact succeeds_of_ok hrest)
      (fun k hk hle => live k hk (by omega))
    refine ⟨b', ?_, ?_, hcarried.cons hcarried'⟩
    · rw [forM_paced_cons, bind_of_ok hpoll, bind_of_ok hperform]
      exact hrun
    · rw [hpolls', Nat.add_assoc done, Nat.add_comm 1]

/-- The first look that finds the replacement canceled ends it. -/
theorem forM_paced_of_canceled {k : Nat} (hk : 0 < k) (hle : 128 * k ≤ steps.length)
    (taken : succeeds ((steps.take (128 * k - 1)).mapM (RowStep.apply t)) (b.store.table t) = true)
    (live : ∀ j, 0 < j → j < k → canceled (b.polls + j) = false)
    (stop : canceled (b.polls + k) = true) :
    ∃ b', (paced 1 steps).forM (Pace.perform t u savepoint canceled) b =
        .error (.error .statementCanceled) b' ∧
      b'.polls = b.polls + k ∧ Carried t u (steps.take (128 * k - 1)) b.store b'.store := by
  have hlen : (steps.take (128 * k - 1)).length = 128 * k - 1 :=
    List.length_take_of_le (by omega)
  obtain ⟨b₁, hrun, hpolls, hcarried⟩ := forM_paced_of_spared (u := u) savepoint b.polls 0 rfl taken
    fun j hj hle => live j hj (by omega)
  obtain ⟨x, rest, hrest⟩ : ∃ x rest, steps.drop (128 * k - 1) = x :: rest := by
    apply List.exists_cons_of_length_pos
    rw [List.length_drop]
    omega
  have hlook : Batch.poll canceled (128 * k) b₁ =
      .error (.error .statementCanceled) { b₁ with polls := b.polls + k } := by
    have hnext : b₁.polls + 1 = b.polls + k := by omega
    unfold Batch.poll cancelInterval
    rw [if_pos (Nat.mul_mod_right 128 k), get_bind, modify_bind, hnext, if_pos stop]
    rfl
  refine ⟨{ b₁ with polls := b.polls + k }, ?_, rfl, hcarried⟩
  have hsplit : steps = steps.take (128 * k - 1) ++ x :: rest := by
    rw [← hrest, List.take_append_drop]
  conv_lhs => rw [hsplit]
  have hnumber : 1 + (128 * k - 1) = 128 * k := by omega
  rw [forM_paced_append, bind_of_ok hrun, hlen, hnumber, forM_paced_cons]
  exact bind_of_error hlook

end Runs

/-- A replacement is its steps with a look right before every 128th.  Where the table takes the steps, the
first look that finds the replacement canceled, the `k`th, ends it with the `128 * k - 1` steps before it
carried out; where no look does, all steps are carried out. -/
theorem updateRows_stops_on_schedule (t u : Nat) (canceled : Nat → Bool) (old : List Row) (b : Batch) :
    updateRows t u canceled old b = (paced 1 (replacement old b.rows)).forM
      (Pace.perform t u (b.store.session u).position canceled) b ∧
    (∀ k, 0 < k → 128 * k ≤ (replacement old b.rows).length →
      succeeds (((replacement old b.rows).take (128 * k - 1)).mapM (RowStep.apply t))
        (b.store.table t) = true →
      (∀ j, 0 < j → j < k → canceled (b.polls + j) = false) → canceled (b.polls + k) = true →
      ∃ b', updateRows t u canceled old b = .error (.error .statementCanceled) b' ∧
        b'.polls = b.polls + k ∧
        Carried t u ((replacement old b.rows).take (128 * k - 1)) b.store b'.store) ∧
    (succeeds ((replacement old b.rows).mapM (RowStep.apply t)) (b.store.table t) = true →
      (∀ k, 0 < k → 128 * k ≤ (replacement old b.rows).length → canceled (b.polls + k) = false) →
      ∃ b', updateRows t u canceled old b = .ok () b' ∧
        b'.polls = b.polls + (replacement old b.rows).length / 128 ∧
        Carried t u (replacement old b.rows) b.store b'.store) := by
  refine ⟨updateRows_eq_paced old b, fun k hk hle taken live stop => ?_, fun taken live => ?_⟩
  · rw [updateRows_eq_paced]
    exact forM_paced_of_canceled hk hle taken live stop
  · rw [updateRows_eq_paced]
    have hrun := forM_paced_of_spared (u := u) (b.store.session u).position b.polls 0 rfl taken
      (by rwa [Nat.zero_add])
    rwa [Nat.zero_add (replacement old b.rows).length] at hrun

def numbered (count : Nat) : List Row :=
  (List.range count).map fun i => ⟨some (UInt64.ofNat i), [some (.int (Int32.ofNat i))]⟩

def crowded : Engine :=
  { table := 7
    name := "T"
    rows := ⟨(numbered 64).map fun r => (r.key.getD 0, r)⟩
    nextKey := 64 }

/-- A canceled replacement of 64 rows finds that out in the second pass, right before its last row. -/
theorem canceled_before_last_row :
    let b : Batch := ⟨storeOf crowded none, numbered 64, 0⟩
    ∃ b', updateRows 7 1 (fun _ => true) (numbered 64) b = .error (.error .statementCanceled) b' ∧
      b'.polls = 1 ∧ (b'.store.undoLog 1).length = 127 ∧ (b'.store.table 7).engine.rowCount = 63 := by
  intro b
  obtain ⟨-, hstop, -⟩ := updateRows_stops_on_schedule 7 1 (fun _ => true) (numbered 64) b
  obtain ⟨b', hrun, hpolls, hcarried⟩ := hstop 1 Nat.one_pos (by decide +kernel) (by decide +kernel)
    (fun j hj hlt => absurd hj (Nat.not_lt.2 (Nat.le_of_lt_succ hlt))) rfl
  refine ⟨b', hrun, hpolls, ?_, ?_⟩
  · rw [hcarried.undoLog_length]
    decide +kernel
  · obtain ⟨⟨records, hsteps, -⟩, -⟩ := hcarried
    rw [← final_of_ok hsteps]
    decide +kernel

end RowStore.Store
