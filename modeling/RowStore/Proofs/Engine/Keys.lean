import RowStore.Proofs.Engine.History

/-!
# Keys that an engine generates

* `Call.sorted` and `Reached.sorted` : rows stay in the order of their keys, even when keys start over;
* `rowCount_withRow` : a row that is stored is one more, unless its key is taken;
* `generated_key_is_next` : a row without a key takes the next one, which is free if the last key was
  never given;
* `not_generated_key_is_free` : once the last key was given, the row can take the place of another.

A row with a key of its own is refused where that is taken.  A generated key is not tested.
-/

namespace RowStore.Engine
open RowStore.Action

/-! ## Rows stay in order -/

/-- A change keeps the rows in the order of their keys, whatever becomes of it. -/
theorem Call.sorted (c : Call) {e : Engine} (h : e.rows.Sorted) : (final c.run e).rows.Sorted := by
  cases c with
  | addRow r =>
    unfold Call.run
    rw [final_discard]
    cases ha : e.assigned? r with
    | none =>
      obtain ⟨what, hc⟩ := claimKey_of_taken ha
      unfold Engine.addRow
      rw [final_bind_of_error hc]
      exact h
    | some key =>
      unfold final
      rw [addRow_of_assigned ha]
      rcases enterAll r key e.indexes with ⟨fault | ⟨⟩, ixs⟩
      · exact h
      · exact h.insert _ _
  | removeRow r =>
    change (final (Engine.removeRow r) e).rows.Sorted
    cases he : Engine.removeRow r e with
    | ok _ e' =>
      rw [final_of_ok he]
      obtain ⟨key, stored, ixs, -, -, -, rfl⟩ := removeRow_eq_ok.1 he
      exact h.erase _
    | error fault e' =>
      rw [final_of_error he]
      rcases removeRow_eq_error he with ⟨-, rfl⟩ | ⟨key, _, _, -, -, -, -, rfl⟩
      · exact h
      · exact h.erase _
  | truncate => exact OrderedMap.sorted_empty
  | addIndex spec fill =>
    change (final (Engine.addIndex spec fill) e).rows.Sorted
    cases he : Engine.addIndex spec fill e with
    | ok _ e' =>
      rw [final_of_ok he]
      obtain ⟨-, ix, -, rfl⟩ := addIndex_eq_ok he
      exact h
    | error fault e' =>
      rw [final_of_error he, addIndex_eq_error he]
      exact h
  | removeIndex id =>
    unfold Call.run
    rw [final_discard, final_of_ok (removeIndex_eq e id)]
    exact h

section Keys
variable {table : Nat} {name : String} {history : List Event} {e e' : Engine} {r stored : Row}

/-- Whatever has happened, the rows are in the order of their keys. -/
theorem Reached.sorted (h : Reached table name history e) : e.rows.Sorted := by
  induction h with
  | start => exact OrderedMap.sorted_empty
  | done c _ run ih => exact final_of_ok run ▸ c.sorted ih
  | refused c _ run ih => exact final_of_error run ▸ c.sorted ih

/-! ## The next key -/

/-- A row that is stored is one more just if its key was free. -/
theorem rowCount_withRow (h : e.rows.Sorted) {key : RowKey} {ixs : List TreeIndex} :
    (e.withRow r key ixs).rowCount = e.rowCount + 1 ↔ e.row? key = none := by
  have hcount : (e.withRow r key ixs).rowCount = (e.rows.erase key).size + 1 :=
    OrderedMap.size_insert h key _
  rw [hcount]
  unfold rowCount row?
  constructor
  · intro hsame
    by_contra hne
    obtain ⟨old, hold⟩ := Option.ne_none_iff_exists'.1 hne
    have hp := (OrderedMap.entries_perm h hold).length_eq
    change e.rows.size = (e.rows.erase key).size + 1 at hp
    omega
  · intro hfree
    rw [OrderedMap.erase_of_none h hfree]

/-- A row without a key is stored under the next one, and all rows under other keys stay.  Just if the
next key was free, the row is one more and no row is lost.  It is free if no row was ever given the last
key. -/
theorem generated_key_is_next (h : Reached table name history e) (hr : r.key = none)
    (run : addRow r e = .ok stored e') :
    stored = { r with key := some e.nextKey } ∧ e'.row? e.nextKey = some stored ∧
      (∀ key ≠ e.nextKey, e'.row? key = e.row? key) ∧
      (e.row? e.nextKey = none ↔ e'.rowCount = e.rowCount + 1 ∧
        ∀ key old, e.row? key = some old → e'.row? key = some old) ∧
      (.assigned lastKey ∉ history → e.row? e.nextKey = none) := by
  have ha : e.assigned? r = some e.nextKey := by rw [assigned?_eq, hr]
  obtain ⟨key, ixs, hkey, -, rfl, rfl⟩ := addRow_eq_ok.1 run
  cases ha.symm.trans hkey
  refine ⟨rfl, row?_withRow_self, fun key hne => row?_withRow_of_ne hne, ⟨fun hfree => ?_, fun hgrows =>
    (rowCount_withRow h.sorted).1 hgrows.1⟩, fun hl => (h.agrees hl).sound.fresh ha⟩
  refine ⟨(rowCount_withRow h.sorted).2 hfree, fun key old hold => ?_⟩
  have hne : key ≠ e.nextKey := by
    rintro rfl
    cases hfree.symm.trans hold
  rw [row?_withRow_of_ne hne, hold]

end Keys

/-- The second row of an empty table takes the key after the first. -/
theorem generated_key_of_second_row :
    let e : Engine := final (Call.addRow ⟨none, [some (.int 1)]⟩).run { table := 7, name := "T" }
    Reached 7 "T" [.stored 0, .assigned 0] e ∧
      ∃ e', addRow ⟨none, [some (.int 2)]⟩ e = .ok ⟨some 1, [some (.int 2)]⟩ e' ∧
        e'.rowCount = e.rowCount + 1 ∧ e'.row? 0 = e.row? 0 := by
  intro e
  have h : Reached 7 "T" [.stored 0, .assigned 0] e := .done (.addRow ⟨none, [some (.int 1)]⟩) .start rfl
  have hrun : addRow ⟨none, [some (.int 2)]⟩ e = .ok ⟨some 1, [some (.int 2)]⟩ _ := rfl
  obtain ⟨-, -, -, hiff, hfree⟩ := generated_key_is_next h rfl hrun
  obtain ⟨hcount, hkept⟩ := hiff.1 (hfree (by decide))
  exact ⟨h, _, hrun, hcount, hkept 0 _ rfl⟩

/-- Though no row brings the last key along, one may be given it, and then the next key starts over.  The
row after that takes the place of the first, and the table has as many rows as before. -/
theorem not_generated_key_is_free :
    ¬ ∀ (calls : List Call) (r stored : Row) (e' : Engine),
      (∀ r, .addRow r ∈ calls → r.key ≠ some lastKey) → r.key = none →
      let e := calls.foldl (fun e c => final c.run e) { table := 7, name := "T" }
      addRow r e = .ok stored e' → e'.rowCount = e.rowCount + 1 := by
  intro h
  let calls : List Call := [.addRow ⟨none, [some (.int 1)]⟩,
    .addRow ⟨some (lastKey - 1), [some (.int 2)]⟩, .addRow ⟨none, [some (.int 3)]⟩]
  let e : Engine := calls.foldl (fun e c => final c.run e) { table := 7, name := "T" }
  have hrun : addRow ⟨none, [some (.int 4)]⟩ e = .ok ⟨some 0, [some (.int 4)]⟩
      (final (addRow ⟨none, [some (.int 4)]⟩) e) := by rfl
  have hkeys : ∀ r, .addRow r ∈ calls → r.key ≠ some lastKey := by
    intro r hr
    simp only [calls, List.mem_cons, Call.addRow.injEq, List.not_mem_nil, or_false] at hr
    rcases hr with rfl | rfl | rfl <;> decide
  have hmore : (final (addRow ⟨none, [some (.int 4)]⟩) e).rowCount = e.rowCount + 1 :=
    h calls _ _ _ hkeys rfl hrun
  have hcount : (final (addRow ⟨none, [some (.int 4)]⟩) e).rowCount = 3 ∧ e.rowCount = 3 := by
    decide +kernel
  omega

end RowStore.Engine
