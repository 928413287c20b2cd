import RowStore.Proofs.Store.Cautious

/-!
# What a session logs of the rows that it removes

* `Grown` : a log has grown by records of some kind;
* `Change.RemovesAt` : a change removes a row from a store that it has come to;
* `removeOld_logs`, `addAllNew_logs`, `updateRows_logs` : what a replacement appends to the log;
* `Change.logs` : what any change appends to it;
* `log_holds_rows_as_passed` : a removed row is logged as it was passed, which need not be as it was
  stored;
* `not_log_holds_rows_as_stored` : a row that was read before a later change is logged as it was then.
-/

namespace RowStore.Store
open RowStore.Action

variable {t u : Nat} {canceled : Nat → Bool} {s s' : Store} {r : Row}

/-! ## What changes the log -/

/-- The log has grown, and the records that came are as `p` says. -/
def Grown (p : UndoRecord → Prop) (log log' : List UndoRecord) : Prop :=
  ∃ records, log' = log ++ records ∧ ∀ r ∈ records, p r

section Grown
variable {p q : UndoRecord → Prop} {log log' : List UndoRecord} {record : UndoRecord}

theorem grown_self (log : List UndoRecord) : Grown p log log :=
  ⟨[], (List.append_nil log).symm, fun _ h => absurd h List.not_mem_nil⟩

theorem grown_one (h : log' = log ++ [record]) (hp : p record) : Grown p log log' :=
  ⟨[record], h, fun _ hr => List.mem_singleton.1 hr ▸ hp⟩

theorem Grown.trans (h : Grown p log log') {log'' : List UndoRecord}
    (h' : Grown p log' log'') : Grown p log log'' := by
  obtain ⟨records, rfl, hp⟩ := h
  obtain ⟨records', rfl, hp'⟩ := h'
  exact ⟨records ++ records', List.append_assoc .., List.forall_mem_append.2 ⟨hp, hp'⟩⟩

theorem Grown.mono (h : Grown p log log') (hpq : ∀ r, p r → q r) : Grown q log log' := by
  obtain ⟨records, hlog, hp⟩ := h
  exact ⟨records, hlog, fun r hr => hpq r (hp r hr)⟩

end Grown

theorem undoLog_recorded (s : Store) (u : Nat) (record : UndoRecord) :
    (s.recorded u record).undoLog u = s.undoLog u ++ [record] :=
  congrArg Session.undoLog (session_setSession s u _)

theorem undoLog_cut (s : Store) (u n : Nat) :
    (s.setSession u ((s.session u).split n).2).undoLog u = (s.undoLog u).take n :=
  congrArg Session.undoLog (session_setSession s u _)

/-- Whatever becomes of it, a session that goes back to a savepoint has cut its log there. -/
theorem undoLog_rollbackTo (savepoint : Nat) (s : Store) :
    (final (rollbackTo u savepoint) s).undoLog u = (s.undoLog u).take savepoint := by
  have hundo : Keeps (undoLog u) (((s.session u).split savepoint).1.reverse.forM (undo u)) :=
    Keeps.forM (fun _ => keeps_undo undoLog_onTable undoLog_onTable) _
  have hsame : final (rollbackTo u savepoint) s =
      final (((s.session u).split savepoint).1.reverse.forM (undo u))
        (s.setSession u ((s.session u).split savepoint).2) := rfl
  rw [hsame, hundo, undoLog_cut]

theorem undoLog_retreat (savepoint : Nat) (fault : Fault) (s : Store) :
    (final (retreat t u savepoint fault) s).undoLog u = (s.undoLog u).take savepoint ∨
      (final (retreat t u savepoint fault) s).undoLog u = s.undoLog u := by
  unfold retreat
  split
  · exact Or.inl (undoLog_rollbackTo savepoint _)
  · exact Or.inr rfl

theorem addNew_of_refused (savepoint : Nat) {fault : Fault}
    (h : onTable t (Table.addRow r) s = .error fault s') : ∃ fault',
      addNew t u savepoint r s = .error fault' (final (retreat t u savepoint fault) s') := by
  rw [addNew_of_error h]
  cases hback : retreat t u savepoint fault s' with
  | ok _ back => exact ⟨fault, (bind_of_ok hback).trans (congrArg _ (final_of_ok hback).symm)⟩
  | error failed back =>
    exact ⟨failed, (bind_of_error hback).trans (congrArg _ (final_of_error hback).symm)⟩

/-! ## Replacements -/

theorem removeOld_append (step : Nat) (xs ys : List Row) :
    removeOld t u canceled step (xs ++ ys) = (do
      removeOld t u canceled step xs
      removeOld t u canceled (step + xs.length) ys) := by
  induction xs generalizing step with
  | nil => rfl
  | cons x xs ih =>
    have hstep : step + (xs.length + 1) = step + 1 + xs.length := by omega
    simp only [List.cons_append, removeOld, ih, bind_assoc, List.length_cons, hstep]

/-- The removal of old rows comes to a batch from which it removes a row. -/
def Removes (t u : Nat) (canceled : Nat → Bool) (old : List Row) (b : Batch) (r : Row) (m : Store) :
    Prop :=
  ∃ k b', old[k]? = some r ∧ removeOld t u canceled 0 (old.take k) b = .ok () b' ∧ b'.store = m ∧
    ∃ m', onTable t (Table.removeRow r) m = .ok () m'

theorem row?_of_removeOld {old : List Row} {step : Nat} {b b' : Batch} {key : RowKey}
    (h : removeOld t u canceled step old b = .ok () b')
    (hr : (b'.store.table t).engine.row? key = some r) :
    (b.store.table t).engine.row? key = some r := by
  induction old generalizing b step with
  | nil =>
    cases h
    exact hr
  | cons x old ih =>
    cases hp : Batch.poll canceled (step + 1) b with
    | error fault b₁ =>
      rw [removeOld, bind_of_error hp] at h
      cases h
    | ok _ b₁ =>
      rw [← (keeps_poll _ _).of_ok hp]
      cases hx : onTable t (Table.removeRow x) b₁.store with
      | error fault s => cases (removeOld_of_error hp hx).symm.trans h
      | ok _ s => exact row?_of_removed hx (ih ((removeOld_of_ok hp hx).symm.trans h))

/-- The removal of old rows logs just those that it removes, whatever becomes of it. -/
theorem removeOld_logs {old done rest : List Row} {b₀ b : Batch} (hold : old = done ++ rest)
    (hdone : removeOld t u canceled 0 done b₀ = .ok () b) :
    Grown (fun record => record = ⟨t, .deleted, record.row⟩ ∧
        ∃ m, Removes t u canceled old b₀ record.row m)
      (b.store.undoLog u)
      ((final (removeOld t u canceled done.length rest) b).store.undoLog u) := by
  -- the induction is on what is left, and what is done grows with it
  induction rest generalizing done b with
  | nil => exact grown_self _
  | cons x rest ih =>
    cases hp : Batch.poll canceled (done.length + 1) b with
    | error fault b₁ =>
      rw [removeOld, final_bind_of_error hp, (keeps_poll _ _).of_error hp]
      exact grown_self _
    | ok _ b₁ =>
      have hb₁ : b₁.store = b.store := (keeps_poll _ _).of_ok hp
      cases hx : onTable t (Table.removeRow x) b₁.store with
      | error fault s =>
        have hlog : s.undoLog u = b.store.undoLog u :=
          ((undoLog_onTable (Table.removeRow x)).of_error hx).trans (congrArg (undoLog u) hb₁)
        rw [final_of_error (removeOld_of_error hp hx), ← hlog]
        exact grown_self _
      | ok _ s =>
        have hlog : (s.recorded u ⟨t, .deleted, x⟩).undoLog u =
            b.store.undoLog u ++ [⟨t, .deleted, x⟩] := by
          rw [undoLog_recorded, (undoLog_onTable (Table.removeRow x)).of_ok hx, hb₁]
        have hmore : removeOld t u canceled 0 (done ++ [x]) b₀ =
            .ok () { b₁ with store := s.recorded u ⟨t, .deleted, x⟩ } := by
          rw [removeOld_append, bind_of_ok hdone, Nat.zero_add]
          exact (removeOld_of_ok hp hx).trans rfl
        have hrest := ih (hold.trans (List.append_cons done x rest)) hmore
        change Grown _ ((s.recorded u ⟨t, .deleted, x⟩).undoLog u) _ at hrest
        rw [List.length_append, List.length_singleton] at hrest
        rw [final_congr (removeOld_of_ok hp hx)]
        refine (grown_one hlog ⟨rfl, b.store, done.length, b, ?_, ?_, rfl, s, hb₁ ▸ hx⟩).trans hrest
        · rw [hold, List.getElem?_append_right (Nat.le_refl _), Nat.sub_self]
          rfl
        · rw [hold, List.take_left]
          exact hdone

/-- The addition of new rows logs no removal.  Records from before it stay, or go if it meets a
concurrent change. -/
theorem addAllNew_logs (canceled : Nat → Bool) (step place : Nat) (rows : List Row)
    {log records : List UndoRecord} {b : Batch} (hb : b.store.undoLog u = log ++ records) :
    ∃ records', (final (addAllNew t u log.length canceled step place rows) b).store.undoLog u =
        log ++ records' ∧
      ∀ record ∈ records', record.op = .deleted → record ∈ records := by
  induction rows generalizing b step place records with
  | nil => exact ⟨records, hb, fun _ h _ => h⟩
  | cons x rows ih =>
    cases hp : Batch.poll canceled (step + 1) b with
    | error fault b₁ =>
      rw [addAllNew, final_bind_of_error hp, (keeps_poll _ _).of_error hp]
      exact ⟨records, hb, fun _ h _ => h⟩
    | ok _ b₁ =>
      rw [← (keeps_poll _ _).of_ok hp] at hb
      cases hx : onTable t (Table.addRow x) b₁.store with
      | ok stored s =>
        have hlog : (s.recorded u ⟨t, .inserted, stored⟩).undoLog u =
            log ++ (records ++ [⟨t, .inserted, stored⟩]) := by
          rw [undoLog_recorded, (undoLog_onTable (Table.addRow x)).of_ok hx, hb, List.append_assoc]
        rw [final_congr (addAllNew_of_ok hp hx)]
        obtain ⟨records', hlog', hrecords⟩ := ih (step + 1) (place + 1) (b := { b₁ with
          store := s.recorded u ⟨t, .inserted, stored⟩, rows := b₁.rows.set place stored }) hlog
        refine ⟨records', hlog', fun record hrecord hop => ?_⟩
        rcases List.mem_append.1 (hrecords record hrecord hop) with hold | hnew
        · exact hold
        · rw [List.mem_singleton.1 hnew] at hop
          cases hop
      | error fault s =>
        have hs : s.undoLog u = log ++ records :=
          ((undoLog_onTable (Table.addRow x)).of_error hx).trans hb
        obtain ⟨fault', hadd⟩ := addNew_of_refused (u := u) log.length hx
        have hend : addAllNew t u log.length canceled step place (x :: rows) b = .error fault'
            { b₁ with store := final (retreat t u log.length fault) s } := by
          rw [addAllNew, bind_of_ok hp]
          exact bind_of_error (onStore_of_error hadd)
        rw [final_of_error hend]
        rcases undoLog_retreat (t := t) (u := u) log.length fault s with hcut | hkept
        · refine ⟨[], ?_, fun _ h => absurd h List.not_mem_nil⟩
          rw [hcut, hs, List.take_left, List.append_nil]
        · exact ⟨records, hkept.trans hs, fun _ h _ => h⟩

theorem updateRows_logs (canceled : Nat → Bool) (old : List Row) (b : Batch) :
    Grown (fun record => record.op = .deleted → record.table = t ∧
        ∃ m, Removes t u canceled old b record.row m)
      (b.store.undoLog u) ((final (updateRows t u canceled old) b).store.undoLog u) := by
  have hnone : removeOld t u canceled 0 [] b = .ok () b := rfl
  have hremoved := removeOld_logs (List.nil_append old).symm hnone
  rw [List.length_nil] at hremoved
  cases hrem : removeOld t u canceled 0 old b with
  | error fault b₁ =>
    have hfail : updateRows t u canceled old b = .error fault b₁ := by
      unfold updateRows
      rw [get_bind]
      exact bind_of_error hrem
    rw [final_of_error hrem] at hremoved
    rw [final_of_error hfail]
    exact hremoved.mono fun record h _ => ⟨congrArg UndoRecord.table h.1, h.2⟩
  | ok _ b₁ =>
    rw [final_of_ok hrem] at hremoved
    rw [final_congr (updateRows_of_removed hrem)]
    obtain ⟨records, hlog, hrecords⟩ := hremoved
    obtain ⟨records', hlog', hrecords'⟩ :=
      addAllNew_logs (t := t) canceled old.length 0 b.rows hlog
    refine ⟨records', hlog', fun record hrecord hop => ?_⟩
    obtain ⟨hrecord, hm⟩ := hrecords record (hrecords' record hrecord hop)
    exact ⟨congrArg UndoRecord.table hrecord, hm⟩

/-! ## Whole changes -/

/-- A change removes a row, as it was passed, from a store that the change has come to. -/
inductive Change.RemovesAt (u : Nat) (s : Store) : Change → Row → Store → Prop where
  | delete {t : Nat} {r : Row} {begun : Bool × Bool} {m m' : Store}
    (begin : beginDelete t u r s = .ok begun m) (goesOn : (begun.1 && begun.2) = false)
    (removed : onTable t (Table.removeRow r) m = .ok () m') : RemovesAt u s (.delete t r) r m
  | update {t : Nat} {canceled : Nat → Bool} {pairs : List (Row × Row)}
    {begun : Bool × List (Row × Row)} {b : Batch} {r : Row} {m : Store}
    (begin : beginUpdate t u pairs ⟨s, [], 0⟩ = .ok begun b)
    (removes : Removes t u canceled (begun.2.map (·.1)) b r m) :
    RemovesAt u s (.update t canceled pairs) r m
  | updateRows {t : Nat} {canceled : Nat → Bool} {pairs : List (Row × Row)} {r : Row} {m : Store}
    (removes : Removes t u canceled (pairs.map (·.1)) ⟨s, pairs.map (·.2), 0⟩ r m) :
    RemovesAt u s (.updateRows t canceled pairs) r m

/-- The rows that a change is given to remove. -/
def Change.oldRows : Change → List Row
  | insert .. => []
  | delete _ r => [r]
  | update _ _ pairs | updateRows _ _ pairs => pairs.map (·.1)

theorem Removes.mem {old : List Row} {b : Batch} {m : Store} (h : Removes t u canceled old b r m) :
    r ∈ old := by
  obtain ⟨k, -, hk, -⟩ := h
  exact List.mem_of_getElem? hk

theorem Removes.removed {old : List Row} {b : Batch} {m : Store}
    (h : Removes t u canceled old b r m) : ∃ m', onTable t (Table.removeRow r) m = .ok () m' := by
  obtain ⟨_, _, -, -, -, hremoved⟩ := h
  exact hremoved

theorem Removes.row? {old : List Row} {b : Batch} {m : Store} {key : RowKey} {stored : Row}
    (h : Removes t u canceled old b r m) (hm : (m.table t).engine.row? key = some stored) :
    (b.store.table t).engine.row? key = some stored := by
  obtain ⟨k, b', -, hdone, rfl, -⟩ := h
  exact row?_of_removeOld hdone hm

/-- A row that a change removes was passed to it, and what is stored at that moment was stored before the
change. -/
theorem Change.RemovesAt.spec {c : Change} {m : Store} (h : c.RemovesAt u s r m) :
    r ∈ c.oldRows ∧ (∃ m', onTable c.table (Table.removeRow r) m = .ok () m') ∧
      ∀ key stored, (m.table c.table).engine.row? key = some stored →
        (s.table c.table).engine.row? key = some stored := by
  cases h with
  | delete begin _ removed =>
    have hm := keeps_beginDelete.of_ok begin
    refine ⟨List.mem_singleton_self r, ⟨_, removed⟩, fun key stored hr => ?_⟩
    exact table_eq_of_core hm _ ▸ hr
  | update begin removes =>
    have hb := (keeps_beginUpdate _).of_ok begin
    refine ⟨beginUpdate_subset begin removes.mem, removes.removed, fun key stored hr => ?_⟩
    have hr' := removes.row? hr
    rw [table_eq_of_core hb] at hr'
    exact hr'
  | updateRows removes => exact ⟨removes.mem, removes.removed, fun _ _ hr => removes.row? hr⟩

theorem insert_logs (t u : Nat) (r : Row) (s : Store) :
    Grown (·.op = .inserted) (s.undoLog u) ((final (insert t u) ⟨s, r⟩).state.undoLog u) := by
  rw [insert_eq]
  cases hb : beginInsert t u ⟨s, r⟩ with
  | error fault d =>
    have hd : d.state.undoLog u = s.undoLog u := congrArg (·.2.2) (keeps_beginInsert.of_error hb)
    rw [final_bind_of_error hb, hd]
    exact grown_self _
  | ok begun d =>
    have hd : d.state.undoLog u = s.undoLog u := congrArg (·.2.2) (keeps_beginInsert.of_ok hb)
    rw [final_bind_of_ok hb, ← hd]
    cases begun.1 && begun.2.1 with
    | true => exact grown_self _
    | false =>
      rw [if_neg Bool.false_ne_true]
      unfold finishInsert
      cases hr : onTable t (Table.addRow begun.2.2) d.state with
      | error fault s' =>
        have hadd : Draft.onState (onTable t (Table.addRow begun.2.2)) d =
            .error fault { d with state := s' } := within_of_error hr
        rw [final_bind_of_error hadd, (undoLog_onTable (Table.addRow begun.2.2)).of_error hr]
        exact grown_self _
      | ok stored s' =>
        have hadd : Draft.onState (onTable t (Table.addRow begun.2.2)) d =
            .ok stored { d with state := s' } := within_of_ok hr
        have hrest : Keeps (fun d : Draft Store => d.state.core u) (do
            if begun.1 then
              Draft.onState (fireAfterRow t u none (some stored) false)
            pure true : Action (Draft Store) Bool) :=
          Keeps.ite ((keeps_onState (keeps_fireAfterRow t _ _ false)).bind fun _ => keeps_pure _)
            (keeps_pure _)
        have hlogged := congrArg (·.2.2) (hrest ⟨s'.recorded u ⟨t, .inserted, stored⟩, stored⟩)
        change _ = (s'.recorded u ⟨t, .inserted, stored⟩).undoLog u at hlogged
        rw [undoLog_recorded, (undoLog_onTable (Table.addRow begun.2.2)).of_ok hr] at hlogged
        rw [final_bind_of_ok hadd]
        exact grown_one hlogged rfl

theorem delete_logs (t u : Nat) (r : Row) (s : Store) :
    Grown (fun record => record = ⟨t, .deleted, r⟩ ∧ ∃ m, (Change.delete t r).RemovesAt u s r m)
      (s.undoLog u) ((final (delete t u r) s).undoLog u) := by
  rw [delete_eq]
  cases hb : beginDelete t u r s with
  | error fault s₁ =>
    have hs₁ : s₁.undoLog u = s.undoLog u := congrArg (·.2.2) (keeps_beginDelete.of_error hb)
    rw [final_bind_of_error hb, hs₁]
    exact grown_self _
  | ok begun s₁ =>
    have hs₁ : s₁.undoLog u = s.undoLog u := congrArg (·.2.2) (keeps_beginDelete.of_ok hb)
    rw [final_bind_of_ok hb, ← hs₁]
    cases hopen : begun.1 && begun.2 with
    | true => exact grown_self _
    | false =>
      rw [if_neg Bool.false_ne_true]
      unfold finishDelete
      cases hr : onTable t (Table.removeRow r) s₁ with
      | error fault s' =>
        rw [final_bind_of_error hr, (undoLog_onTable (Table.removeRow r)).of_error hr]
        exact grown_self _
      | ok _ s' =>
        have hrest : Keeps (core u) (do
            if begun.1 then
              fireAfterRow t u (some r) none false
            pure true : Action Store Bool) :=
          Keeps.ite ((keeps_fireAfterRow t _ _ false).bind fun _ => keeps_pure _) (keeps_pure _)
        have hlogged := congrArg (·.2.2) (hrest (s'.recorded u ⟨t, .deleted, r⟩))
        change _ = (s'.recorded u ⟨t, .deleted, r⟩).undoLog u at hlogged
        rw [undoLog_recorded, (undoLog_onTable (Table.removeRow r)).of_ok hr] at hlogged
        rw [final_bind_of_ok hr]
        exact grown_one hlogged ⟨rfl, s₁, .delete hb hopen hr⟩

theorem update_logs (t u : Nat) (canceled : Nat → Bool) (pairs : List (Row × Row)) (s : Store) :
    Grown (fun record => record.op = .deleted → record.table = t ∧
        ∃ m, (Change.update t canceled pairs).RemovesAt u s record.row m)
      (s.undoLog u) ((final (update t u canceled pairs) ⟨s, [], 0⟩).store.undoLog u) := by
  rw [update_eq]
  cases hb : beginUpdate t u pairs ⟨s, [], 0⟩ with
  | error fault b =>
    have hlog : b.store.undoLog u = s.undoLog u :=
      congrArg (·.2.2) ((keeps_beginUpdate pairs).of_error hb)
    rw [final_bind_of_error hb, hlog]
    exact grown_self _
  | ok begun b =>
    have hlog : b.store.undoLog u = s.undoLog u :=
      congrArg (·.2.2) ((keeps_beginUpdate pairs).of_ok hb)
    have hreplaced := updateRows_logs (t := t) (u := u) canceled (begun.2.map (·.1)) b
    have hend : (final (updateRows t u canceled (begun.2.map (·.1)) >>= fun _ =>
        finishUpdate t u begun.1 begun.2) b).store.undoLog u =
          (final (updateRows t u canceled (begun.2.map (·.1))) b).store.undoLog u := by
      cases hu : updateRows t u canceled (begun.2.map (·.1)) b with
      | error fault b' => rw [final_bind_of_error hu, final_of_error hu]
      | ok _ b' =>
        rw [final_bind_of_ok hu, final_of_ok hu]
        exact congrArg (·.2.2) (keeps_finishUpdate begun.1 begun.2 b')
    rw [final_bind_of_ok hb, hend, ← hlog]
    refine hreplaced.mono fun record h hop => ?_
    obtain ⟨htable, m, hm⟩ := h hop
    exact ⟨htable, m, .update hb hm⟩

/-- Whatever becomes of a change, it appends to the log, and what it logs as deleted are rows that it
removes. -/
theorem Change.logs (c : Change) (u : Nat) (s : Store) :
    Grown (fun record => record.op = .deleted → record.table = c.table ∧
        ∃ m, c.RemovesAt u s record.row m)
      (s.undoLog u) ((final (c.run u) s).undoLog u) := by
  cases c with
  | insert t r =>
    unfold run
    rw [final_discard, final_draftRun]
    exact (insert_logs t u r s).mono fun record h hop => by cases h.symm.trans hop
  | delete t r =>
    unfold run
    rw [final_discard]
    refine (delete_logs t u r s).mono fun record h _ => ?_
    obtain ⟨rfl, hm⟩ := h
    exact ⟨rfl, hm⟩
  | update t canceled pairs =>
    unfold run
    rw [final_discard, final_batchRun]
    exact update_logs t u canceled pairs s
  | updateRows t canceled pairs =>
    unfold run
    rw [final_batchRun]
    have hreplaced :=
      updateRows_logs (t := t) (u := u) canceled (pairs.map (·.1)) ⟨s, pairs.map (·.2), 0⟩
    refine hreplaced.mono fun record h hop => ?_
    obtain ⟨htable, m, hm⟩ := h hop
    exact ⟨htable, m, .updateRows hm⟩

/-! ## As passed, not as stored -/

theorem stored_of_removed {m m' : Store} (h : onTable t (Table.removeRow r) m = .ok () m') :
    ∃ key stored, r.key = some key ∧ (m.table t).engine.row? key = some stored := by
  rw [onTable_removeRow] at h
  cases hrem : Engine.removeRow r (m.table t).engine with
  | error fault e => cases (onEngine_of_error hrem).symm.trans h
  | ok _ e =>
    obtain ⟨key, stored, _, hkey, hstored, -⟩ := Engine.removeRow_eq_ok.1 hrem
    exact ⟨key, stored, hkey, hstored⟩

/-- A deleted row that is put back is what its record holds. -/
theorem row?_of_undone {b b' : Store} {key : RowKey} (hkey : r.key = some key)
    (h : undo u ⟨t, .deleted, r⟩ b = .ok () b') : (b'.table t).engine.row? key = some r := by
  unfold undo at h
  rw [get_bind] at h
  split at h
  · cases h
  · obtain ⟨x, h⟩ := discard_eq_ok.1 h
    cases hadd : Engine.addRow r (b.table t).engine with
    | error fault e => cases (onEngine_of_error hadd).symm.trans h
    | ok stored e =>
      cases (onEngine_of_ok hadd).symm.trans h
      obtain ⟨key', ixs, ha, -, -, rfl⟩ := Engine.addRow_eq_ok.1 hadd
      have hsame : key = key' := by
        by_contra hne
        exact Engine.assigned?_ne_of_own hkey hne ha
      subst hsame
      rw [engine_setEngine, Engine.row?_withRow_self, ← hkey]

/-- Every record of a deletion that a change appends to the log holds a row as it was passed.  It was
stored under its key at the moment it was removed, and before the change, perhaps with other values: the
record holds what was stored just if the row was a copy of it.  Undoing the record puts back what it
holds. -/
theorem log_holds_rows_as_passed (c : Change) (u : Nat) (s : Store) :
    ∃ records, (final (c.run u) s).undoLog u = s.undoLog u ++ records ∧
      ∀ record ∈ records, record.op = .deleted →
        record.table = c.table ∧ record.row ∈ c.oldRows ∧
        ∃ m key stored, c.RemovesAt u s record.row m ∧ record.row.key = some key ∧
          (m.table c.table).engine.row? key = some stored ∧
          (s.table c.table).engine.row? key = some stored ∧
          (record.row = stored ↔ (s.table c.table).engine.IsCopy record.row) ∧
          ∀ b b', undo u record b = .ok () b' →
            (b'.table c.table).engine.row? key = some record.row := by
  obtain ⟨records, hlog, hrecords⟩ := c.logs u s
  refine ⟨records, hlog, fun record hrecord hop => ?_⟩
  obtain ⟨htable, m, hm⟩ := hrecords record hrecord hop
  obtain ⟨hpassed, ⟨m', hremoved⟩, hbefore⟩ := hm.spec
  obtain ⟨key, stored, hkey, hstored⟩ := stored_of_removed hremoved
  have hs := hbefore key stored hstored
  refine ⟨htable, hpassed, m, key, stored, hm, hkey, hstored, hs, ⟨fun hsame => ?_, fun hcopy => ?_⟩,
    fun b b' hundo => ?_⟩
  · intro key' stored' hkey' hstored'
    cases hkey.symm.trans hkey'
    cases hs.symm.trans hstored'
    exact hsame
  · exact hcopy key stored hkey hs
  · obtain ⟨table, op, row⟩ := record
    cases hop
    cases htable
    exact row?_of_undone hkey hundo

/-- A row that was read before a later change is logged as it was then, and not as it is stored. -/
theorem not_log_holds_rows_as_stored :
    ¬ ∀ (c : Change) (u : Nat) (s : Store) (records : List UndoRecord),
      (∀ t, s.tables.contains t = true → (s.table t).engine.Regular) →
      (final (c.run u) s).undoLog u = s.undoLog u ++ records →
      ∀ record ∈ records, record.op = .deleted → ∀ key stored, record.row.key = some key →
        (s.table c.table).engine.row? key = some stored → record.row = stored := by
  intro h
  let c : Change := .delete 7 ⟨some 0, [some (.int 5)]⟩
  have hlog : (final (c.run 1) (storeOf twoRows none)).undoLog 1 =
      (storeOf twoRows none).undoLog 1 ++ [⟨7, .deleted, ⟨some 0, [some (.int 5)]⟩⟩] := by
    decide +kernel
  have hsame := h c 1 (storeOf twoRows none) _
    (fun t _ => regular_storeOf regular_twoRows none t) hlog _ List.mem_cons_self rfl 0
    ⟨some 0, [some (.int 1)]⟩ rfl (by decide +kernel)
  revert hsame
  decide

end RowStore.Store
