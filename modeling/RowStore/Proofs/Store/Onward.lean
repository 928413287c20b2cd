import RowStore.Proofs.Numbering
import RowStore.Proofs.Store.Removal

/-!
# Stores that have gone on

* `Store.Onward` : a table has the columns and constraints that it had, and the sequences have at most
  gone on;
* `Store.Gentle` : what surrounds a change of rows: it leaves tables and logs as they are, and lets
  sequences go on; `gentle_onFired`, `gentle_onChecks`, `gentle_fitRow` and so on;
* `onward_setEngine`, `onward_setSession` : the other steps of a change;
* `row?_of_addRow`, `row?_of_removeRow` : the rows of a table after an addition and a removal.
-/

namespace RowStore.Store
open RowStore.Action

variable {t u : Nat} {s s' s'' : Store} {r x : Row}

/-- A table has the columns and constraints that it had, and the sequences have at most gone on. -/
structure Onward (t : Nat) (s s' : Store) : Prop where
  columns : (s'.table t).columns = (s.table t).columns
  constraints : (s'.table t).constraints = (s.table t).constraints
  sequences : Sequence.AllOnward s.sequences s'.sequences

theorem Onward.refl (t : Nat) (s : Store) : s.Onward t s := ⟨rfl, rfl, Sequence.allOnward_refl _⟩

theorem Onward.trans (h : s.Onward t s') (h' : s'.Onward t s'') : s.Onward t s'' where
  columns := h'.columns.trans h.columns
  constraints := h'.constraints.trans h.constraints
  sequences := h.sequences.trans h'.sequences

/-- Tables and logs are as they were, and the sequences have at most gone on. -/
structure Gentle (s s' : Store) : Prop where
  tables : s'.tables = s.tables
  logs : ∀ u, s'.undoLog u = s.undoLog u
  sequences : Sequence.AllOnward s.sequences s'.sequences

theorem Gentle.refl (s : Store) : s.Gentle s := ⟨rfl, fun _ => rfl, Sequence.allOnward_refl _⟩

theorem Gentle.trans (h : s.Gentle s') (h' : s'.Gentle s'') : s.Gentle s'' where
  tables := h'.tables.trans h.tables
  logs u := (h'.logs u).trans (h.logs u)
  sequences := h.sequences.trans h'.sequences

theorem Gentle.table (h : s.Gentle s') (t : Nat) : s'.table t = s.table t := by
  unfold Store.table
  rw [h.tables]

theorem Gentle.onward (h : s.Gentle s') (t : Nat) : s.Onward t s' where
  columns := by rw [h.table]
  constraints := by rw [h.table]
  sequences := h.sequences

/-! ## What surrounds a change -/

section Gentle
variable {α : Type}

theorem gentle_note (record : TraceRecord) (s : Store) : s.Gentle (final (note record) s) :=
  ⟨rfl, fun _ => rfl, Sequence.allOnward_refl _⟩

theorem gentle_locks (s : Store) (locks : LockTable) (trace : List TraceRecord) :
    s.Gentle { s with locks := locks, trace := trace } :=
  ⟨rfl, fun _ => rfl, Sequence.allOnward_refl _⟩

theorem gentle_checkWriting (s : Store) : s.Gentle (final checkWriting s) := by
  have hsame : Stays s.Gentle checkWriting :=
    Stays.get_bind fun s' h => (Stays.ite (stays_refuse _) (stays_pure ())) s' h
  exact hsame s (.refl s)

theorem gentle_onFired (act : Action FireLog α) (s : Store) : s.Gentle (final (onFired act) s) := by
  unfold onFired
  rw [final_within]
  exact ⟨rfl, fun _ => rfl, Sequence.allOnward_refl _⟩

theorem undoLog_setNumbering (s : Store) (u : Nat) (n : Numbering) (v : Nat) :
    (s.setNumbering u n).undoLog v = s.undoLog v := by
  change ((s.setSession u _).session v).undoLog = (s.session v).undoLog
  by_cases hv : v = u
  · subst hv
    rw [session_setSession]
  · rw [session_setSession_of_ne s hv]

theorem gentle_setNumbering {n : Numbering} (h : Sequence.AllOnward s.sequences n.sequences)
    (u : Nat) : s.Gentle (s.setNumbering u n) where
  tables := rfl
  logs := undoLog_setNumbering s u n
  sequences := h

/-- A check of a constraint lets sequences go on if its condition draws from them. -/
theorem stays_checkRow {qs : OrderedMap Nat Sequence} (c : Constraint) (rows : Nat)
    (old new : Option Row) :
    Stays (fun d : CheckState => Numbering.From qs d.numbering) (c.checkRow rows old new) := by
  have hrecord (record : FireRecord) :
      Stays (fun d : CheckState => Numbering.From qs d.numbering) (CheckState.record record) := by
    intro d hd
    unfold CheckState.record
    rw [final_within]
    exact hd
  unfold Constraint.checkRow
  split
  · split
    · exact stays_pure ()
    · refine Stays.bind ?_ fun v => Stays.ite (stays_refuse _) (stays_pure _)
      exact (Expr.stays_eval _ _).within (fun _ hd => hd) fun _ _ _ hn => hn
  · refine (hrecord _).bind fun _ => ?_
    split
    · exact (stays_slot _).bind fun _ => Stays.ite (stays_refuse _) (stays_pure _)
    · exact stays_pure _
  · exact (hrecord _).bind fun _ => Stays.ite (stays_refuse _) (stays_pure _)

theorem gentle_checkRow (c : Constraint) (rows : Nat) (old new : Option Row) (u : Nat) (s : Store) :
    s.Gentle (final (onChecks u (c.checkRow rows old new)) s) := by
  unfold onChecks
  rw [final_within]
  have hn := stays_checkRow c rows old new ⟨s.numbering u, s.fired⟩ (Sequence.allOnward_refl s.sequences)
  exact (gentle_setNumbering hn u).trans ⟨rfl, fun _ => rfl, Sequence.allOnward_refl _⟩

theorem gentle_fitRow (t u : Nat) (r : Row) (s : Store) :
    s.Gentle (final (Draft.run (fitRow t u) r) s) := by
  have hcolumns (columns : List Column) : Stays (fun d : Draft Store => s.Gentle d.state)
      (Draft.within (·.numbering u) (fun n s => s.setNumbering u n) (fitColumns 0 columns)) := by
    intro d hd
    unfold Draft.within
    rw [final_within]
    have hn := stays_fitColumns 0 columns ⟨d.state.numbering u, d.row⟩
      (Sequence.allOnward_refl d.state.sequences)
    exact hd.trans (gentle_setNumbering hn u)
  have hfit : Stays (fun d : Draft Store => s.Gentle d.state) (fitRow t u) :=
    Stays.get_bind fun d hd => ((stays_ofExcept _).bind fun _ => hcolumns _) d hd
  rw [final_draftRun]
  exact hfit ⟨s, r⟩ (.refl s)

/-- A row is fitted by the columns of its table, if it has a slot for each. -/
theorem fitRow_eq_ok {fitted : Row} (h : Draft.run (fitRow t u) r s = .ok ((), fitted) s') :
    ∃ n, r.width = (s.table t).columns.width ∧
      fitColumns 0 (s.table t).columns.list ⟨s.numbering u, r⟩ = .ok () ⟨n, fitted⟩ ∧
      s' = s.setNumbering u n := by
  unfold Draft.run at h
  cases hfit : fitRow t u ⟨s, r⟩ with
  | error fault d =>
    rw [hfit] at h
    cases h
  | ok x d =>
    rw [hfit] at h
    cases h
    unfold fitRow at hfit
    rw [get_bind] at hfit
    obtain ⟨_, d₁, hwidth, hfit⟩ := bind_eq_ok.1 hfit
    unfold Table.checkWidth at hwidth
    split at hwidth
    · rename_i hw
      cases hwidth
      obtain ⟨⟨n, row⟩, hcolumns, rfl⟩ := within_eq_ok.1 hfit
      exact ⟨n, hw, hcolumns, rfl⟩
    · cases hwidth

theorem fitRow_of_fitted {fitted : Row} {n : Numbering} (hw : r.width = (s.table t).columns.width)
    (h : fitColumns 0 (s.table t).columns.list ⟨s.numbering u, r⟩ = .ok () ⟨n, fitted⟩) :
    Draft.run (fitRow t u) r s = .ok ((), fitted) (s.setNumbering u n) := by
  have hwidth : (s.table t).checkWidth r = .ok () := if_pos hw
  have hfit : fitRow t u ⟨s, r⟩ = .ok () ⟨s.setNumbering u n, fitted⟩ := by
    unfold fitRow
    rw [get_bind, hwidth, bind_of_ok (rfl : ofExcept (.ok ()) (⟨s, r⟩ : Draft Store) = .ok () ⟨s, r⟩)]
    unfold Draft.within within
    rw [h]
  unfold Draft.run
  rw [hfit]

end Gentle

/-! ## Steps on rows and logs -/

theorem onward_setEngine (t t' : Nat) (s : Store) (e : Engine) : s.Onward t (s.setEngine t' e) := by
  by_cases ht : t = t'
  · subst ht
    unfold setEngine
    exact ⟨by rw [table_setTable], by rw [table_setTable], Sequence.allOnward_refl _⟩
  · have hsame := table_setEngine_of_ne s ht e
    exact ⟨by rw [hsame], by rw [hsame], Sequence.allOnward_refl _⟩

theorem onward_setSession (t u : Nat) (s : Store) (session : Session) :
    s.Onward t (s.setSession u session) := ⟨rfl, rfl, Sequence.allOnward_refl _⟩

theorem undoLog_setSession_of_ne (s : Store) {v : Nat} (h : v ≠ u) (session : Session) :
    (s.setSession u session).undoLog v = s.undoLog v :=
  congrArg Session.undoLog (session_setSession_of_ne s h session)

theorem final_onEngine {α : Type} (t : Nat) (act : Action Engine α) (s : Store) :
    final (onEngine t act) s = s.setEngine t (final act (s.table t).engine) := by
  unfold onEngine onTable
  rw [final_within, final_within]
  rfl

/-- Rows that are stored after an addition were stored before, but for the one that was added. -/
theorem row?_of_addRow {e : Engine} {k : RowKey} (h : (final (Engine.addRow r) e).row? k = some x) :
    e.row? k = some x ∨ ∃ key, x = { r with key := key } := by
  cases ha : e.assigned? r with
  | none =>
    obtain ⟨what, hc⟩ := Engine.claimKey_of_taken ha
    unfold Engine.addRow at h
    rw [final_bind_of_error hc] at h
    exact Or.inl h
  | some key =>
    have hadd := Engine.addRow_of_assigned ha
    rcases hall : Engine.enterAll r key e.indexes with ⟨fault | ⟨⟩, ixs⟩
    · rw [hall] at hadd
      rw [final_of_error hadd] at h
      exact Or.inl h
    · rw [hall] at hadd
      rw [final_of_ok hadd] at h
      by_cases hk : k = key
      · subst hk
        cases Engine.row?_withRow_self.symm.trans h
        exact Or.inr ⟨some k, rfl⟩
      · exact Or.inl ((Engine.row?_withRow_of_ne hk).symm.trans h)

theorem row?_of_removeRow {e : Engine} {k : RowKey}
    (h : (final (Engine.removeRow r) e).row? k = some x) : e.row? k = some x := by
  cases hr : Engine.removeRow r e with
  | ok _ e' =>
    obtain ⟨key, stored, ixs, -, -, -, rfl⟩ := Engine.removeRow_eq_ok.1 hr
    rw [final_of_ok hr] at h
    exact (Engine.row?_of_withoutRow h).2
  | error fault e' =>
    rw [final_of_error hr] at h
    rcases Engine.removeRow_eq_error hr with ⟨-, rfl⟩ | ⟨key, _, ixs, -, -, -, -, rfl⟩
    · exact h
    · have hleft : (e.withoutRow key ixs).row? k = some x := h
      exact (Engine.row?_of_withoutRow hleft).2

theorem final_addRow (t : Nat) (r : Row) (s : Store) : ∃ e,
    final (onTable t (Table.addRow r)) s = s.setEngine t e ∧
      ∀ k x, e.row? k = some x → (s.table t).engine.row? k = some x ∨ ∃ key, x = { r with key := key } := by
  cases hc : (s.table t).contested.any r.values.contains with
  | true => exact ⟨_, final_of_error (onTable_addRow_contested hc), fun _ _ h => Or.inl h⟩
  | false =>
    refine ⟨_, (final_congr (onTable_addRow hc)).trans (final_onEngine t _ s), fun _ _ h => ?_⟩
    exact row?_of_addRow h

theorem final_removeRow (t : Nat) (r : Row) (s : Store) : ∃ e,
    final (onTable t (Table.removeRow r)) s = s.setEngine t e ∧
      ∀ k x, e.row? k = some x → (s.table t).engine.row? k = some x :=
  ⟨_, final_onEngine t _ s, fun _ _ h => row?_of_removeRow h⟩

/-- A change that is taken back changes the rows of its table, if any.  Those that are stored then were
stored before, but for one that is put back. -/
theorem final_undo (u : Nat) (record : UndoRecord) (s : Store) :
    final (undo u record) s = s ∨ ∃ e, final (undo u record) s = s.setEngine record.table e ∧
      ∀ k x, e.row? k = some x → (s.table record.table).engine.row? k = some x ∨
        record.op = .deleted ∧ ∃ key, x = { record.row with key := key } := by
  obtain ⟨t, op, r⟩ := record
  by_cases hc : s.detached.contains u = false ∧ s.tables.contains t = true
  · right
    cases op with
    | inserted =>
      refine ⟨final (Engine.removeRow r) (s.table t).engine, ?_, fun k x h =>
        Or.inl (row?_of_removeRow h)⟩
      exact (final_congr (undo_inserted hc.1 hc.2)).trans (final_onEngine t _ s)
    | deleted =>
      refine ⟨final (Engine.addRow r) (s.table t).engine, ?_, fun k x h =>
        (row?_of_addRow h).imp_right fun h => ⟨rfl, h⟩⟩
      rw [final_congr (undo_deleted hc.1 hc.2), final_discard]
      exact final_onEngine t _ s
  · left
    have hrefused : (s.detached.contains u || !s.tables.contains t) = true := by
      cases hd : s.detached.contains u with
      | true => rfl
      | false =>
        have htable : s.tables.contains t = false := Bool.eq_false_iff.2 fun ht => hc ⟨hd, ht⟩
        rw [htable]
        rfl
    unfold undo final
    rw [get_bind, if_pos hrefused]
    rfl

end RowStore.Store
