import RowStore.Proofs.Column
import RowStore.Proofs.Store.Serial
import RowStore.Store.Structure

/-!
# Stored rows fit the columns

* `fitting` : that rows fit the columns of a table, as a demand;
* `stored_rows_fit` : all stored rows do, as long as sessions have no other rows to put back.
-/

namespace RowStore
open RowStore.Action RowStore.Store

def fitting (t : Nat) (s₀ : Store) : Demand where
  table := t
  start := s₀
  floor := fun _ => 0
  good s r := r.Fits (s.table t).columns.list
  lasts ho h := by rwa [ho.columns]
  keyless _ h := ⟨h.width, h.slots⟩
  written {u r r' s s'} _ h _ := by
    obtain ⟨n, hw, hcolumns, rfl⟩ := fitRow_eq_ok h
    exact fits_of_fitted hcolumns hw

/-- Stored rows fit the columns of a table that was empty when it got them: there is a slot for each
column, and in it a value of its type, or NULL where that is allowed.  This is so whatever sessions insert,
delete, update and take back, and whatever becomes of that, if they are given copies of the rows that
they remove, and none can take back a deletion from before that does not fit. -/
theorem stored_rows_fit {t : Nat} {s₀ : Store} {history : List (Nat × Activity)} {d : Activity}
    (h : Schedule (fun _ => 0) s₀ history d) (copies : ∀ m ∈ history, m.2.OnCopies t m.1)
    (empty : ∀ key, (s₀.table t).engine.row? key = none)
    (logged : ∀ u, ∀ record ∈ s₀.undoLog u, record.table = t → record.op = .deleted →
      record.row.Fits (s₀.table t).columns.list) :
    ∀ key r, (d.store.table t).engine.row? key = some r → r.Fits (d.store.table t).columns.list := by
  have hstart : (fitting t s₀).Upheld s₀ := {
    onward := .refl t s₀
    stored := fun key r hr => by
      cases (empty key).symm.trans hr
    logged := logged
    deep := fun _ => Nat.zero_le _ }
  exact (h.upheld (D := fitting t s₀) hstart copies).1.upheld.stored

/-- A table of integers without rows. -/
def bare : Store := storeOf { table := 7, name := "T" } none

/-- A text that is inserted is stored as a number, replaced, and put back as a number. -/
theorem restored_row_fits : ∃ s, Serial (fun _ => 0) 7 bare s ∧
    (s.table 7).engine.row? 0 = some ⟨some 0, [some (.int 5)]⟩ ∧
      (⟨some 0, [some (.int 5)]⟩ : Row).Fits (s.table 7).columns.list := by
  have h : Serial (fun _ => 0) 7 bare bare := .start
  have h := h.call 1 (.insert 7 ⟨none, [some (.text "5")]⟩) (by decide +kernel)
  have h := h.call 1 (.update 7 (fun _ => false)
    [(⟨some 0, [some (.int 5)]⟩, ⟨none, [some (.text "7")]⟩)]) (by decide +kernel)
  have h := h.back 1 1 (Nat.zero_le _)
  obtain ⟨s, h, hrow⟩ : ∃ s, Serial (fun _ => 0) 7 bare s ∧
      (s.table 7).engine.row? 0 = some ⟨some 0, [some (.int 5)]⟩ := ⟨_, h, by decide +kernel⟩
  obtain ⟨history, hs, copies⟩ := h.schedule
  have hfits := stored_rows_fit hs copies (fun _ => rfl) fun _ _ hr => absurd hr List.not_mem_nil
  exact ⟨s, h, hrow, hfits 0 _ hrow⟩

/-- Session 1 has inserted a row and deleted it, and then the table gets a second column. -/
def emptied : Store := final ((Call.delete 7 ⟨some 0, [some (.int 1)]⟩).run 1)
  (final ((Call.insert 7 ⟨none, [some (.int 1)]⟩).run 1) bare)

def idAndName : List Column := [{ name := "ID", dataType := .int }, { name := "NAME", dataType := .text }]

/-- A session that deleted a row before the table got its columns can still take that back. -/
theorem not_stored_rows_fit_anyhow : ¬ ∀ (t : Nat) (columns : List Column) (b s₀ : Store)
    (history : List (Nat × Activity)) (d : Activity), (∀ key, (b.table t).engine.row? key = none) →
      setColumns t true columns b = .ok () s₀ → Schedule (fun _ => 0) s₀ history d →
        (∀ m ∈ history, m.2.OnCopies t m.1) →
          ∀ key r, (d.store.table t).engine.row? key = some r → r.Fits (d.store.table t).columns.list := by
  intro hall
  have h : Serial (fun _ => 0) 7 (final (setColumns 7 true idAndName) emptied) _ := .start
  have h := h.back 1 1 (Nat.zero_le _)
  obtain ⟨history, hs, copies⟩ := h.schedule
  have hfits := hall 7 idAndName emptied _ history _ (fun _ => rfl) rfl hs copies 0
    ⟨some 0, [some (.int 1)]⟩ (by decide +kernel)
  exact absurd hfits.width (by decide +kernel)

end RowStore
