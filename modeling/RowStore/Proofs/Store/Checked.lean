import RowStore.Proofs.Store.Serial
import RowStore.Store.Structure

/-!
# Conditions hold of stored rows

* `passing` : that no condition of a table is false of a row, as a demand;
* `stored_rows_pass` : so it is of all stored rows, as long as sessions have no other rows to put back.
-/

namespace RowStore
open RowStore.Action RowStore.Store

def passing (t : Nat) (s₀ : Store) : Demand where
  table := t
  start := s₀
  floor := fun _ => 0
  good s r := (s.table t).Passes r
  lasts ho h := by
    unfold Table.Passes
    rw [ho.constraints]
    exact h
  keyless key h := h.withKey key
  written {u r r' s s'} ho h hp := by
    have hafter := ho.trans ((gentle_fitRow t u r s).onward t)
    rw [final_of_ok h] at hafter
    unfold Table.Passes
    rw [hafter.constraints]
    exact hp

/-- No condition of a table that draws from no sequence is false of a stored row, if that is so at the
start.  It stays so whatever sessions insert, delete, update and take back, whatever triggers there are
and whatever becomes of that, if sessions are given copies of the rows that they remove, and none can take
back a deletion from before of a row that a condition is false of. -/
theorem stored_rows_pass {t : Nat} {s₀ : Store} {history : List (Nat × Activity)} {d : Activity}
    (h : Schedule (fun _ => 0) s₀ history d) (copies : ∀ m ∈ history, m.2.OnCopies t m.1)
    (stored : ∀ key r, (s₀.table t).engine.row? key = some r → (s₀.table t).Passes r)
    (logged : ∀ u, ∀ record ∈ s₀.undoLog u, record.table = t → record.op = .deleted →
      (s₀.table t).Passes record.row) :
    ∀ key r, (d.store.table t).engine.row? key = some r → (d.store.table t).Passes r := by
  have hstart : (passing t s₀).Upheld s₀ := {
    onward := .refl t s₀
    stored := stored
    logged := logged
    deep := fun _ => Nat.zero_le _ }
  exact (h.upheld (D := passing t s₀) hstart copies).1.upheld.stored

def positive : Constraint where
  id := 1
  name := "POSITIVE"
  before := true
  rule := .condition (.compare .greater (.column 0 "ID") (.literal (.int 0))) [0]

/-- A table without rows that demands positive numbers. -/
def guarded : Store := final (addConstraint 7 positive) (storeOf { table := 7, name := "T" } none)

/-- A number is inserted, replaced by another one, and put back after an update that is refused. -/
theorem restored_row_passes : ∃ s, Serial (fun _ => 0) 7 guarded s ∧
    (s.table 7).engine.row? 0 = some ⟨some 0, [some (.int 5)]⟩ ∧
      (s.table 7).Passes ⟨some 0, [some (.int 5)]⟩ := by
  have h : Serial (fun _ => 0) 7 guarded guarded := .start
  have h := h.call 1 (.insert 7 ⟨none, [some (.int 5)]⟩) (by decide +kernel)
  have h := h.call 1 (.update 7 (fun _ => false)
    [(⟨some 0, [some (.int 5)]⟩, ⟨none, [some (.int 7)]⟩)]) (by decide +kernel)
  have h := h.call 1 (.update 7 (fun _ => false)
    [(⟨some 0, [some (.int 7)]⟩, ⟨none, [some (.int (-7))]⟩)]) (by decide +kernel)
  have h := h.back 1 1 (Nat.zero_le _)
  obtain ⟨s, h, hrow⟩ : ∃ s, Serial (fun _ => 0) 7 guarded s ∧
      (s.table 7).engine.row? 0 = some ⟨some 0, [some (.int 5)]⟩ := ⟨_, h, by decide +kernel⟩
  obtain ⟨history, hs, copies⟩ := h.schedule
  have hnone : ∀ key, (guarded.table 7).engine.row? key = none := fun _ => rfl
  have hfresh : ∀ u, guarded.undoLog u = [] := fun _ => rfl
  have hpasses := stored_rows_pass hs copies (fun key _ hr => nomatch (hnone key).symm.trans hr)
    fun u _ hr => absurd (hfresh u ▸ hr) List.not_mem_nil
  exact ⟨s, h, hrow, hpasses 0 _ hrow⟩

def vacated : Store := final ((Call.delete 7 ⟨some 0, [some (.int (-1))]⟩).run 1)
  (final ((Call.insert 7 ⟨none, [some (.int (-1))]⟩).run 1) (storeOf { table := 7, name := "T" } none))

/-- A session that deleted a row before the condition was demanded can still take that back. -/
theorem not_stored_rows_pass_anyhow : ¬ ∀ (t : Nat) (s₀ : Store) (history : List (Nat × Activity))
    (d : Activity), Schedule (fun _ => 0) s₀ history d → (∀ m ∈ history, m.2.OnCopies t m.1) →
      (∀ key r, (s₀.table t).engine.row? key = some r → (s₀.table t).Passes r) →
        ∀ key r, (d.store.table t).engine.row? key = some r → (d.store.table t).Passes r := by
  intro hall
  have h : Serial (fun _ => 0) 7 (final (addConstraint 7 positive) vacated) _ := .start
  have h := h.back 1 1 (Nat.zero_le _)
  obtain ⟨history, hs, copies⟩ := h.schedule
  have hnone : ∀ key, ((final (addConstraint 7 positive) vacated).table 7).engine.row? key = none :=
    fun _ => rfl
  have hpasses := hall 7 _ history _ hs copies (fun key _ hr => nomatch (hnone key).symm.trans hr) 0
    ⟨some 0, [some (.int (-1))]⟩ (by decide +kernel)
  exact hpasses positive List.mem_cons_self ⟨_, _, rfl, rfl, rfl, {}, {}, rfl⟩

end RowStore
