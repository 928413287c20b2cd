import RowStore.Proofs.Engine.Filling
import RowStore.Proofs.Store.PrimaryMarks
import RowStore.Proofs.Store.Reach

/-!
# Indexes come whole or not at all

* `Table.Admits` : all that a table asks of a new index; `Admits.checked` and `Indexed.admits` : what the
  checks of table and engine come to;
* `Indexed.built_as` : the table with the index;
* `addIndex_is_all_or_nothing` : an index is attached just if the table admits it, with an entry for each
  stored row; otherwise the table stays as it is.

Some checks are made on the columns of the table, some by the engine, and the last one, that no two rows
agree, only while the rows go into the index one after the other.
-/

namespace RowStore
open RowStore.Action RowStore.Store

variable {table table' : Table} {spec : IndexSpec} {fill : Bool}

namespace Table

/-- What a table asks of a new index: what its engine does, and that it has the columns, which for a primary
key take no NULL. -/
structure Admits (table : Table) (spec : IndexSpec) (fill : Bool) : Prop
    extends table.engine.Admits spec fill where
  places : ∀ c ∈ spec.columns, ∃ column, table.columns.get? c.place = some column ∧
    (spec.type.primaryKey = true → column.nullable = false)

section Admission
variable (hkeys : ∀ r ∈ table.engine.rowList, ∃ key, r.key = some key)
  (hwidth : ∀ r ∈ table.engine.rowList, r.width = table.columns.width)
include hwidth

/-- Rows as wide as the columns reach as far as an index on these. -/
theorem within_of_checked
    (hc : spec.columns.forM (checkIndexColumn table spec.type.primaryKey) = .ok ()) :
    ∀ r ∈ table.engine.rowList, spec.Within r.width := by
  intro r hr c hcolumn
  obtain ⟨column, hget⟩ := get?_of_checked hc c hcolumn
  rw [hwidth r hr]
  exact (List.getElem?_eq_some_iff.1 hget).1

include hkeys

theorem Indexed.admits (h : table.Indexed spec fill table') : table.Admits spec fill := by
  obtain ⟨hc, e, hadd, -⟩ := h
  exact ⟨(Engine.addIndex_iff hkeys (within_of_checked hwidth hc)).1 ⟨e, hadd⟩, checked_iff.1 hc⟩

end Admission

/-- The table with the index, which has the entries of the rows that were to go into it. -/
theorem Indexed.built_as (h : table.Indexed spec fill table')
    (hkeys : ∀ r ∈ table.engine.rowList, ∃ key, r.key = some key) :
    ∃ ix added, ix.spec = spec ∧
      table' = { table with
        engine := { table.engine with indexes := table.engine.indexes ++ [ix] }
        columns := table'.columns } ∧
      List.Forall₂ ix.IsEntry (if fill then table.engine.rowList else []) added ∧
      ix.entries = ↑added := by
  obtain ⟨-, e, hadd, rfl⟩ := h
  obtain ⟨ix, added, hspec, rfl, hadded, hentries⟩ := Engine.addIndex_added hkeys hadd
  exact ⟨ix, added, hspec, rfl, hadded, hentries⟩

/-- A new primary key marks its columns, and no index touches the columns in any other way. -/
theorem Indexed.columns (h : table.Indexed spec fill table') (place : Nat) :
    table'.columns.get? place = (table.columns.get? place).map fun c =>
      if spec.PrimaryOn place then { c with primaryKey := true } else c := by
  obtain ⟨-, e, -, rfl⟩ := h
  dsimp only
  by_cases hprimary : spec.type.primaryKey = true
  · rw [if_pos hprimary, ColumnSet.get?_markPrimary]
    simp [IndexSpec.PrimaryOn, hprimary]
  · rw [if_neg hprimary]
    simp [IndexSpec.PrimaryOn, hprimary]

end Table

namespace Store
variable {t : Nat} {s : Store}

/-- An index is attached just if the table and its engine admit it.  It comes after the others, with one
entry for each stored row if it is filled and none if it is not, and a primary key marks its columns.
Otherwise there is a refusal and the table stays as it is. -/
theorem addIndex_is_all_or_nothing {number : Nat} {name : String} {history : List Engine.Event}
    (h : Engine.Reached number name history (s.table t).engine)
    (hwidth : ∀ r ∈ (s.table t).engine.rowList, r.width = (s.table t).columns.width)
    (spec : IndexSpec) (fill : Bool) :
    ((∃ s', addIndex t spec fill s = .ok () s') ↔ (s.table t).Admits spec fill) ∧
    (∀ s', addIndex t spec fill s = .ok () s' →
      (∃ ix added, ix.spec = spec ∧
        s'.table t = { s.table t with
          engine := { (s.table t).engine with indexes := (s.table t).engine.indexes ++ [ix] }
          columns := (s'.table t).columns } ∧
        List.Forall₂ ix.IsEntry (if fill then (s.table t).engine.rowList else []) added ∧
        ix.entries = ↑added) ∧
      ∀ place, (s'.table t).columns.get? place = ((s.table t).columns.get? place).map fun c =>
        if spec.PrimaryOn place then { c with primaryKey := true } else c) ∧
    ∀ fault s', addIndex t spec fill s = .error fault s' →
      (∃ cause, fault = .error cause) ∧ s'.table t = s.table t := by
  have hkeys := h.keyed
  rcases addIndex_cases (t := t) spec fill s with ⟨s', hend, hindexed⟩ | ⟨fault, s', hend, hsame, hfault⟩
  · refine ⟨iff_of_true ⟨s', hend⟩ (hindexed.admits hkeys hwidth), fun s'' he => ?_, fun fault s'' he => ?_⟩
    · cases hend.symm.trans he
      exact ⟨hindexed.built_as hkeys, hindexed.columns⟩
    · cases hend.symm.trans he
  · refine ⟨iff_of_false (fun ⟨s'', he⟩ => nomatch hend.symm.trans he) fun hadmits => ?_,
      fun s'' he => ?_, fun fault' s'' he => ?_⟩
    · have hchecked := Table.checked_iff.2 hadmits.places
      rcases hfault with ⟨hnone | hbad, -⟩ | ⟨-, e, hadd⟩
      · exact hadmits.columns hnone
      · exact hbad hchecked
      · obtain ⟨e', hbuilt⟩ := (Engine.addIndex_iff hkeys (Table.within_of_checked hwidth hchecked)).2
          hadmits.toAdmits
        cases hadd.symm.trans hbuilt
    · cases hend.symm.trans he
    · cases hend.symm.trans he
      refine ⟨?_, hsame⟩
      rcases hfault with ⟨-, hcause⟩ | ⟨hchecked, e, hadd⟩
      · exact hcause
      · cases fault with
        | error cause => exact ⟨cause, rfl⟩
        | outOfRange =>
          exact absurd hadd (Engine.addIndex_in_reach (Table.within_of_checked hwidth hchecked))

/-- A unique index takes rows with NULL beside each other. -/
theorem addIndex_on_nulls :
    let e : Engine :=
      { table := 7
        name := "T"
        rows := ⟨[(0, ⟨some 0, [some (.int 1)]⟩), (1, ⟨some 1, [some .null]⟩), (2, ⟨some 2, [none]⟩)]⟩
        nextKey := 3
        modification := 3 }
    let byId : IndexSpec := ⟨1, "BY_ID", [⟨0, false⟩], .distinct, none⟩
    ∃ s' ix, addIndex 7 byId true (singleColumn.setEngine 7 e) = .ok () s' ∧
      (s'.table 7).engine.indexes = [ix] ∧ ix.entries.card = 3 := by
  intro e byId
  have h : Engine.Reached 7 "T" [.stored 2, .assigned 2, .stored 1, .assigned 1, .stored 0, .assigned 0]
      ((singleColumn.setEngine 7 e).table 7).engine := by
    rw [engine_setEngine]
    exact .done (.addRow ⟨none, [none]⟩) (.done (.addRow ⟨none, [some .null]⟩)
      (.done (.addRow ⟨none, [some (.int 1)]⟩) .start rfl) rfl) rfl
  obtain ⟨hiff, hbuilt, -⟩ := addIndex_is_all_or_nothing h (by decide +kernel) byId true
  have hadmits : ((singleColumn.setEngine 7 e).table 7).Admits byId true :=
    ⟨⟨by decide, by decide, by decide +kernel, fun _ _ => by decide +kernel⟩, by decide +kernel⟩
  obtain ⟨s', hend⟩ := hiff.2 hadmits
  obtain ⟨⟨ix, added, -, htable, hadded, hentries⟩, -⟩ := hbuilt s' hend
  refine ⟨s', ix, hend, by rw [htable, engine_setEngine]; rfl, ?_⟩
  rw [hentries, Multiset.coe_card, ← hadded.length_eq, engine_setEngine]
  rfl

end Store
end RowStore
