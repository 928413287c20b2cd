import RowStore.Proofs.Engine.Distinct

/-!
# How changes of rows fail

* `enter_fault`, `addRow_fault` : why a row is not added, whatever rows and indexes hold;
* `TreeIndex.Visited` : an index that a row was entered into, and perhaps taken out of again, or that it never
  came to; `enterAll_visited`, `addRow_visited` : so all indexes are after an addition that fails;
* `specs_addRow`, `specs_removeRow`, `specs_addIndex` : the indexes stay the same ones, but for a new one.

Nothing is asked here of how rows and indexes belong together: once keys have started over, a row may have
taken the place of another whose entries are still there.
-/

namespace RowStore
open RowStore.Action

namespace TreeIndex
variable {ix ix' : TreeIndex} {r : Row} {key : RowKey} {fault : Fault}

/-- A row that an index does not take is too narrow, or is refused as a duplicate. -/
theorem enter_fault (h : ix.enter r key = .error fault) : ix.keyOf? r = none ∧ fault = .outOfRange ∨
    ∃ k, fault = .error (.duplicateKey ix.tableName ix.spec.name k) := by
  unfold enter at h
  cases hk : ix.keyOf? r with
  | none =>
    rw [hk] at h
    cases h
    exact Or.inl ⟨rfl, rfl⟩
  | some k =>
    rw [hk] at h
    dsimp only at h
    unfold enterKey at h
    split at h
    · split at h
      · cases h
        exact Or.inr ⟨_, rfl⟩
      · cases h
    · cases h

/-- An index that takes a row lets it go again. -/
theorem exists_left_of_entered (h : ix.enter r key = .ok ix') : ∃ left, ix'.leave r key = .ok left := by
  cases hk : ix.keyOf? r with
  | none =>
    rw [enter_of_narrow hk] at h
    cases h
  | some k =>
    rw [keyOf?_of_spec (spec_enter h).symm] at hk
    exact ⟨_, leave_eq_ok.2 ⟨k, hk, rfl⟩⟩

/-- The index is as it was, or a row was entered into it, and perhaps taken out again. -/
def Visited (r : Row) (key : RowKey) (ix ix' : TreeIndex) : Prop :=
  ix' = ix ∨ ∃ entered, ix.enter r key = .ok entered ∧ (ix' = entered ∨ entered.leave r key = .ok ix')

theorem Visited.spec (h : Visited r key ix ix') : ix'.spec = ix.spec := by
  rcases h with rfl | ⟨entered, henter, rfl | hleave⟩
  · rfl
  · exact spec_enter henter
  · exact (spec_leave hleave).trans (spec_enter henter)

end TreeIndex

namespace Engine
variable {e e' : Engine} {r : Row} {key : RowKey} {ixs ixs' : List TreeIndex} {fault : Fault}

/-- Where a row cannot be entered into all indexes, they were visited at most. -/
theorem enterAll_visited (h : enterAll r key ixs = (.error fault, ixs')) :
    List.Forall₂ (TreeIndex.Visited r key) ixs ixs' := by
  induction ixs generalizing ixs' with
  | nil => cases h
  | cons ix ixs ih =>
    have hsame : List.Forall₂ (TreeIndex.Visited r key) ixs ixs :=
      List.forall₂_same.2 fun _ _ => Or.inl rfl
    unfold enterAll at h
    cases he : ix.enter r key with
    | error first =>
      rw [he] at h
      cases h
      exact .cons (Or.inl rfl) hsame
    | ok entered =>
      rw [he] at h
      obtain ⟨left, hleft⟩ := TreeIndex.exists_left_of_entered he
      rcases hr : enterAll r key ixs with ⟨(cause | ⟨⟩) | ⟨⟩, rest⟩
      · rw [hr] at h
        dsimp only at h
        rw [hleft] at h
        cases h
        exact .cons (Or.inr ⟨entered, he, Or.inr hleft⟩) (ih hr)
      · rw [hr] at h
        cases h
        exact .cons (Or.inr ⟨entered, he, Or.inl rfl⟩) (ih hr)
      · rw [hr] at h
        cases h

/-- An addition is refused for its key, or fails in one of the indexes. -/
theorem addRow_fault (h : addRow r e = .error fault e') : (∃ what, fault = .error (.internal what)) ∨
    ∃ ix ∈ e.indexes, ∃ key, ix.enter r key = .error fault := by
  rcases addRow_eq_error h with ⟨-, -, what, rfl⟩ | ⟨key, _, -, -, -, before, ix, after, hixs, -, hfault⟩
  · exact Or.inl ⟨what, rfl⟩
  · exact Or.inr ⟨ix, hixs ▸ List.mem_append_right _ List.mem_cons_self, key, hfault⟩

theorem ne_concurrentUpdate_of_refused (h : addRow r e = .error fault e') (name : String) :
    fault ≠ .error (.concurrentUpdate name) := by
  rcases addRow_fault h with ⟨what, rfl⟩ | ⟨ix, -, key, hix⟩
  · exact nofun
  · rcases TreeIndex.enter_fault hix with ⟨-, rfl⟩ | ⟨k, rfl⟩
    · exact nofun
    · exact nofun

/-- An addition that fails leaves the rows as they were; the indexes were visited at most. -/
theorem addRow_visited (h : addRow r e = .error fault e') : e'.rows = e.rows ∧
    ∃ key, List.Forall₂ (TreeIndex.Visited r key) e.indexes e'.indexes := by
  rcases addRow_eq_error h with ⟨-, rfl, -⟩ | ⟨key, ixs, -, rfl, hall, -⟩
  · exact ⟨rfl, 0, List.forall₂_same.2 fun _ _ => Or.inl rfl⟩
  · exact ⟨rfl, key, enterAll_visited hall⟩

/-- Changes of rows change what indexes hold, but not what they are. -/
theorem specs_addRow (r : Row) (e : Engine) : (final (addRow r) e).specs = e.specs := by
  cases h : addRow r e with
  | ok stored e' =>
    obtain ⟨key, ixs, -, hin, -, rfl⟩ := addRow_eq_ok.1 h
    rw [final_of_ok h]
    exact map_eq_of_forall₂ (fun _ _ he => TreeIndex.spec_enter he) hin
  | error fault e' =>
    obtain ⟨-, key, hvisited⟩ := addRow_visited h
    rw [final_of_error h]
    exact map_eq_of_forall₂ (fun _ _ he => he.spec) hvisited

theorem specs_removeRow (r : Row) (e : Engine) : (final (removeRow r) e).specs = e.specs := by
  cases h : removeRow r e with
  | ok _ e' =>
    obtain ⟨key, stored, ixs, -, -, hout, rfl⟩ := removeRow_eq_ok.1 h
    rw [final_of_ok h]
    exact map_eq_of_forall₂ (fun _ _ hl => TreeIndex.spec_leave hl) hout
  | error fault e' =>
    rw [final_of_error h]
    rcases removeRow_eq_error h with ⟨-, rfl⟩ | ⟨_, _, ixs, -, -, -, hleft, rfl⟩
    · rfl
    · refine map_eq_of_forall₂ (fun ix ix' hl => ?_) hleft
      rcases hl with rfl | hl
      · rfl
      · exact TreeIndex.spec_leave hl

/-! ## New indexes -/

/-- An index stays what it is while rows are entered. -/
theorem spec_populate {name : String} {rs : List Row} {ix ix' : TreeIndex}
    (h : populate name rs ix = .ok ix') : ix'.spec = ix.spec := by
  induction rs generalizing ix with
  | nil =>
    cases h
    rfl
  | cons r rs ih =>
    cases hk : r.key with
    | none =>
      unfold populate at h
      rw [hk] at h
      cases h
    | some key =>
      obtain ⟨entered, he, hrest⟩ := populate_cons hk h
      exact (ih hrest).trans (TreeIndex.spec_enter he)

theorem specs_addIndex {spec : IndexSpec} {fill : Bool} (h : addIndex spec fill e = .ok () e') :
    e'.specs = e.specs ++ [spec] ∧ spec.id ∉ e.specs.map (·.id) := by
  obtain ⟨hnew, ix, hp, rfl⟩ := addIndex_eq_ok h
  constructor
  · refine (List.map_append ..).trans (congrArg (e.specs ++ [·]) ?_)
    exact spec_populate hp
  · intro hmem
    obtain ⟨other, hother, hid⟩ := List.mem_map.1 hmem
    obtain ⟨ix', hix', rfl⟩ := List.mem_map.1 hother
    exact List.find?_eq_none.1 hnew ix' hix' (by simpa using hid)

/-! ## Stored rows -/

theorem mem_rowList_of_row? {key : RowKey} (h : e.row? key = some r) : r ∈ e.rowList := by
  unfold row? OrderedMap.find? at h
  unfold rowList OrderedMap.values
  generalize e.rows.entries = entries at h ⊢
  induction entries with
  | nil => cases h
  | cons entry rest ih =>
    unfold OrderedMap.findIn at h
    split at h
    · cases h
      exact List.mem_cons_self
    · exact List.mem_cons_of_mem _ (ih h)

theorem mem_rowList_withRow {key : RowKey} {x : Row} {ixs : List TreeIndex}
    (h : x ∈ (e.withRow r key ixs).rowList) : x = { r with key := some key } ∨ x ∈ e.rowList := by
  obtain ⟨entry, hentry, rfl⟩ := List.mem_map.1 h
  rcases OrderedMap.mem_insertIn hentry with rfl | hold
  · exact Or.inl rfl
  · exact Or.inr (List.mem_map_of_mem hold)

theorem mem_rowList_withoutRow {key : RowKey} {x : Row} {ixs : List TreeIndex}
    (h : x ∈ (e.withoutRow key ixs).rowList) : x ∈ e.rowList := by
  obtain ⟨entry, hentry, rfl⟩ := List.mem_map.1 h
  exact List.mem_map_of_mem (List.mem_filter.1 hentry).1

/-- What is stored after an addition is the row, or was stored before. -/
theorem mem_rowList_addRow {x : Row} (h : x ∈ (final (addRow r) e).rowList) :
    (∃ key, x = { r with key := key }) ∨ x ∈ e.rowList := by
  cases hr : addRow r e with
  | ok stored e' =>
    rw [final_of_ok hr] at h
    obtain ⟨key, ixs, -, -, -, rfl⟩ := addRow_eq_ok.1 hr
    exact (mem_rowList_withRow h).imp_left fun hx => ⟨_, hx⟩
  | error fault e' =>
    rw [final_of_error hr] at h
    unfold rowList at h
    rw [(addRow_visited hr).1] at h
    exact Or.inr h

/-- What is stored after a removal was stored before. -/
theorem mem_rowList_removeRow {x : Row} (h : x ∈ (final (removeRow r) e).rowList) : x ∈ e.rowList := by
  cases hr : removeRow r e with
  | ok _ e' =>
    rw [final_of_ok hr] at h
    obtain ⟨key, stored, ixs, -, -, -, rfl⟩ := removeRow_eq_ok.1 hr
    exact mem_rowList_withoutRow h
  | error fault e' =>
    rw [final_of_error hr] at h
    rcases removeRow_eq_error hr with ⟨-, rfl⟩ | ⟨key, _, _, -, -, -, -, rfl⟩
    · exact h
    · have hleft : x ∈ (e.withoutRow key e.indexes).rowList := h
      exact mem_rowList_withoutRow hleft

end Engine
end RowStore
