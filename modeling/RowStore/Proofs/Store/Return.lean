import RowStore.Proofs.Engine.Return
import RowStore.Proofs.Store.Logged

/-!
# A session goes back, table by table

* `recordsOf` : the records of one table;
* `undo_of_takeBack` : a record is taken back in its table;
* `undoAll_of_owes`, `rollbackTo_of_owes` : where the records of each table can be taken back there, a session
  can go back, and finds the rows to which that leads.
-/

namespace RowStore.Store
open RowStore.Action

variable {u t savepoint : Nat} {s : Store} {record : UndoRecord} {records records' : List UndoRecord}
  {start : Nat → RowKey → Option Row} {e : Engine}

def recordsOf (t : Nat) (records : List UndoRecord) : List UndoRecord :=
  records.filter (·.table = t)

@[simp] theorem recordsOf_nil : recordsOf t [] = [] := rfl

@[simp] theorem recordsOf_append :
    recordsOf t (records ++ records') = recordsOf t records ++ recordsOf t records' :=
  List.filter_append ..

theorem recordsOf_reverse : recordsOf t records.reverse = (recordsOf t records).reverse :=
  List.filter_reverse ..

theorem recordsOf_cons_self : recordsOf record.table (record :: records) =
    record :: recordsOf record.table records := List.filter_cons_of_pos (decide_eq_true rfl)

theorem recordsOf_cons_of_ne (h : record.table ≠ t) :
    recordsOf t (record :: records) = recordsOf t records :=
  List.filter_cons_of_neg fun ht => h (of_decide_eq_true ht)

theorem recordsOf_of_forall (h : ∀ r ∈ records, r.table = t) : recordsOf t records = records :=
  List.filter_eq_self.2 fun r hr => decide_eq_true (h r hr)

theorem recordsOf_eq_nil (h : ∀ r ∈ records, r.table ≠ t) : recordsOf t records = [] :=
  List.filter_eq_nil_iff.2 fun r hr ht => h r hr (of_decide_eq_true ht)

theorem undo_of_takeBack (registered : s.detached.contains u = false)
    (table : s.tables.contains record.table = true)
    (h : Engine.takeBack record (s.table record.table).engine = .ok () e) :
    undo u record s = .ok () (s.setEngine record.table e) := by
  obtain ⟨t, op, r⟩ := record
  cases op with
  | inserted =>
    rw [undo_inserted registered table]
    exact onEngine_of_ok h
  | deleted =>
    rw [undo_deleted registered table]
    obtain ⟨stored, h⟩ := discard_eq_ok.1 h
    exact discard_eq_ok.2 ⟨stored, onEngine_of_ok h⟩

/-- What a session that goes back leaves alone: all but the tables that it has records of. -/
structure Went (records : List UndoRecord) (s b : Store) : Prop where
  locks : b.locks = s.locks
  options : b.options = s.options
  detached : b.detached = s.detached
  sessions : b.sessions = s.sessions
  tables : ∀ t, s.tables.contains t = true → b.tables.contains t = true
  others : ∀ t, recordsOf t records = [] → b.table t = s.table t

theorem Went.session {b : Store} (h : Went records s b) (v : Nat) : b.session v = s.session v := by
  unfold Store.session
  rw [h.sessions]

/-- Records that can be taken back in each table can be taken back one after the other. -/
theorem undoAll_of_owes (registered : s.detached.contains u = false)
    (tables : ∀ r ∈ records, s.tables.contains r.table = true) (full : ∀ t, (s.table t).engine.Full)
    (h : ∀ t, (s.table t).engine.Owes (recordsOf t records) (start t)) :
    ∃ b, records.forM (undo u) s = .ok () b ∧ Went records s b ∧
      ∀ t, (s.table t).engine.Follows (b.table t).engine ∧ (b.table t).engine.row? = start t := by
  induction records generalizing s with
  | nil =>
    refine ⟨s, rfl, ⟨rfl, rfl, rfl, rfl, fun _ ht => ht, fun _ _ => rfl⟩, fun t => ⟨.refl (full t), ?_⟩⟩
    exact (h t).undoes.of_nil.symm
  | cons record records ih =>
    have hfirst := h record.table
    rw [recordsOf_cons_self] at hfirst
    obtain ⟨e, htaken, hfollows, hrows⟩ := (full record.table).takeBack hfirst
    have hundo := undo_of_takeBack registered (tables record List.mem_cons_self) htaken
    -- the table of the first record has gone one step back, and the others are as they were
    have hstep : ∀ t, (s.table t).engine.Follows ((s.setEngine record.table e).table t).engine ∧
        ((s.setEngine record.table e).table t).engine.Owes (recordsOf t records) (start t) := by
      intro t
      by_cases ht : t = record.table
      · subst ht
        rw [engine_setEngine]
        exact ⟨hfollows, hfirst.next (full _) hfollows hrows⟩
      · have hother := h t
        rw [recordsOf_cons_of_ne (Ne.symm ht)] at hother
        rw [table_setEngine_of_ne _ ht]
        exact ⟨.refl (full t), hother⟩
    have htables : ∀ r ∈ records, (s.setEngine record.table e).tables.contains r.table = true :=
      fun r hr => contains_setTable (tables r (List.mem_cons_of_mem _ hr))
    obtain ⟨b, hb, hwent, hback⟩ := ih (s := s.setEngine record.table e) registered htables
      (fun t => (hstep t).1.full) fun t => (hstep t).2
    refine ⟨b, (bind_of_ok hundo).trans hb, ⟨hwent.locks, hwent.options, hwent.detached,
      hwent.sessions, fun t ht => hwent.tables t (contains_setTable ht), fun t ht => ?_⟩,
      fun t => ⟨(hstep t).1.trans (hback t).1, (hback t).2⟩⟩
    have hne : record.table ≠ t := by
      rintro rfl
      rw [recordsOf_cons_self] at ht
      cases ht
    rw [recordsOf_cons_of_ne hne] at ht
    exact (hwent.others t ht).trans (table_setEngine_of_ne _ (Ne.symm hne) e)

def cutLog (s : Store) (u savepoint : Nat) : Store :=
  s.setSession u ((s.session u).split savepoint).2

/-- A session can go back to a savepoint if what it has logged since can be taken back in each table. -/
theorem rollbackTo_of_owes (registered : s.detached.contains u = false)
    (tables : ∀ r ∈ (s.session u).undoLog.drop savepoint, s.tables.contains r.table = true)
    (full : ∀ t, (s.table t).engine.Full)
    (h : ∀ t, (s.table t).engine.Owes (recordsOf t ((s.session u).undoLog.drop savepoint)).reverse (start t)) :
    ∃ b, rollbackTo u savepoint s = .ok () b ∧
      Went ((s.session u).undoLog.drop savepoint).reverse (s.cutLog u savepoint) b ∧
      ∀ t, (s.table t).engine.Follows (b.table t).engine ∧ (b.table t).engine.row? = start t := by
  refine undoAll_of_owes (s := s.cutLog u savepoint) registered
    (fun r hr => tables r (List.mem_reverse.1 hr)) full fun t => ?_
  rw [recordsOf_reverse]
  exact h t

end RowStore.Store
