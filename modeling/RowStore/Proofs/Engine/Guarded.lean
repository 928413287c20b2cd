import RowStore.Proofs.Engine.Refusals

/-!
# Unique indexes guard the values of stored rows

* `TreeIndex.Guarded` : a unique index has the values of each stored row, free of NULL, under its key, and has
  them once; kept by `enter`, `leave` and `Visited`;
* `Engine.Guarded` : all indexes do; kept by additions and removals, whatever becomes of them;
* `Engine.Guarded.not_clash` : then no two stored rows agree, free of NULL, on a unique index.

An index may have entries besides that belong to no stored row.  Once keys have started over, a row may have
taken the place of another whose entries are still there; and a change that runs past the end of a row leaves
what it has done in some of the indexes.
-/

namespace RowStore
open RowStore.Action

namespace TreeIndex
variable {ix ix' : TreeIndex} {rows : OrderedMap RowKey Row} {r stored : Row} {key : RowKey} {k : IndexKey}

/-- The index has the values of each stored row under its key, and only there, as far as it guards them. -/
structure Guarded (ix : TreeIndex) (rows : OrderedMap RowKey Row) : Prop where
  covers : ∀ key r k, rows.find? key = some r → ix.keyOf? r = some k → ix.guards k = true →
    key ∈ ix.map.valuesOf k
  single : ∀ k, ix.guards k = true → ∀ own ∈ ix.map.valuesOf k, ix.map.valuesOf k = [own]

theorem guards_of_spec (h : ix'.spec = ix.spec) (k : IndexKey) : ix'.guards k = ix.guards k := by
  unfold guards
  rw [h]

/-- An index that does not guard any values is no matter. -/
theorem guarded_of_plain (h : ix.spec.type.unique = false) (rows : OrderedMap RowKey Row) :
    ix.Guarded rows := by
  have hplain (k : IndexKey) : ix.guards k ≠ true := by
    unfold guards
    rw [h]
    exact Bool.false_ne_true
  exact ⟨fun _ _ k _ _ hg => absurd hg (hplain k), fun k hg => absurd hg (hplain k)⟩

/-- Where nothing is stored, an index without entries is fine. -/
theorem guarded_of_empty (hmap : ix.map = ∅) (hrows : ∀ key, rows.find? key = none) : ix.Guarded rows where
  covers key r k hr _ _ := by cases (hrows key).symm.trans hr
  single k _ own hown := by
    rw [hmap] at hown
    cases hown

/-- A row that is entered adds its key to its values, which were not there if they are guarded. -/
theorem enter_values (h : ix.enter r key = .ok ix') : ∃ k, ix.keyOf? r = some k ∧
    ix'.map = ix.map.insert k key ∧ (ix.guards k = true → ix.map.valuesOf k = []) := by
  cases hk : ix.keyOf? r with
  | none =>
    rw [enter_of_narrow hk] at h
    cases h
  | some k =>
    have hentered : (ix.enterKey k key).mapError Fault.error = .ok ix' := by
      unfold enter at h
      rwa [hk] at h
    by_cases hfree : ix.guards k = true ∧ ix.map.valuesOf k ≠ []
    · rw [enterKey_of_taken hfree.1 hfree.2] at hentered
      cases hentered
    · rw [enterKey_of_free hfree] at hentered
      cases hentered
      exact ⟨k, rfl, rfl, fun hg => not_not.1 fun hv => hfree ⟨hg, hv⟩⟩

theorem valuesOf_insert_self (m : MultiMap IndexKey RowKey) (k : IndexKey) (key : RowKey) :
    (m.insert k key).valuesOf k = m.valuesOf k ++ [key] := by
  rw [MultiMap.insert_eq, MultiMap.valuesOf_setValues_self]

theorem valuesOf_insert_of_ne (m : MultiMap IndexKey RowKey) {k k' : IndexKey} (h : k' ≠ k) (key : RowKey) :
    (m.insert k key).valuesOf k' = m.valuesOf k' := by
  rw [MultiMap.insert_eq, MultiMap.valuesOf_setValues_of_ne _ h]

theorem valuesOf_delete_of_ne (m : MultiMap IndexKey RowKey) {k k' : IndexKey} (h : k' ≠ k) (key : RowKey) :
    (m.delete k key).2.valuesOf k' = m.valuesOf k' := by
  by_cases hv : key ∈ m.valuesOf k
  · obtain ⟨i, -, hd⟩ := MultiMap.delete_of_mem hv
    rw [hd]
    exact MultiMap.valuesOf_setValues_of_ne _ h _
  · rw [MultiMap.delete_of_notMem hv]

theorem valuesOf_delete_of_single {m : MultiMap IndexKey RowKey} (h : m.valuesOf k = [key]) :
    (m.delete k key).2.valuesOf k = [] := by
  obtain ⟨i, hi, hd⟩ := MultiMap.delete_of_mem (h ▸ List.mem_singleton_self key)
  have hlength := (MultiMap.perm_swapRemove hi).length_eq
  rw [List.length_cons, h, List.length_singleton] at hlength
  rw [hd]
  dsimp only
  rw [MultiMap.valuesOf_setValues_self, h]
  exact List.eq_nil_of_length_eq_zero (by omega)

/-- Once a row is stored and entered, its values are guarded too. -/
theorem Guarded.enter (h : ix.Guarded rows) (he : ix.enter r key = .ok ix') :
    ix'.Guarded (rows.insert key { r with key := some key }) := by
  obtain ⟨k, hk, hmap, hfree⟩ := enter_values he
  have hspec := spec_enter he
  constructor
  · intro key' r' k' hr' hk' hg
    rw [guards_of_spec hspec] at hg
    rw [keyOf?_of_spec hspec] at hk'
    rw [hmap]
    by_cases hkey : key' = key
    · subst hkey
      cases (OrderedMap.find?_insert_self ..).symm.trans hr'
      cases hk.symm.trans hk'
      rw [valuesOf_insert_self]
      exact List.mem_append_right _ (List.mem_singleton_self _)
    · have hold := h.covers key' r' k' ((OrderedMap.find?_insert_of_ne _ hkey _).symm.trans hr') hk' hg
      by_cases hkk : k' = k
      · subst hkk
        rw [hfree hg] at hold
        cases hold
      · rwa [valuesOf_insert_of_ne _ hkk]
  · intro k' hg own hown
    rw [guards_of_spec hspec] at hg
    rw [hmap] at hown ⊢
    by_cases hkk : k' = k
    · subst hkk
      rw [valuesOf_insert_self, hfree hg] at hown ⊢
      rw [List.mem_singleton.1 hown]
      rfl
    · rw [valuesOf_insert_of_ne _ hkk] at hown ⊢
      exact h.single k' hg own hown

/-- Once a stored row is taken out and deleted, the values of the others are guarded as before. -/
theorem Guarded.leave (h : ix.Guarded rows) (hr : rows.find? key = some stored)
    (hl : ix.leave stored key = .ok ix') : ix'.Guarded (rows.erase key) := by
  obtain ⟨k, hk, rfl⟩ := leave_eq_ok.1 hl
  -- guarded values of the row that goes are those of no other row, and gone then
  have hgone (hg : ix.guards k = true) : (ix.map.delete k key).2.valuesOf k = [] :=
    valuesOf_delete_of_single (h.single k hg key (h.covers key stored k hr hk hg))
  constructor
  · intro key' r' k' hr' hk' hg
    have hkey : key' ≠ key := by
      rintro rfl
      cases (OrderedMap.find?_erase_self rows key').symm.trans hr'
    have hold := h.covers key' r' k' ((OrderedMap.find?_erase_of_ne _ hkey).symm.trans hr') hk' hg
    have hkk : k' ≠ k := by
      rintro rfl
      rw [h.single k' hg key (h.covers key stored k' hr hk hg)] at hold
      exact hkey (List.mem_singleton.1 hold)
    exact (valuesOf_delete_of_ne ix.map hkk key).symm ▸ hold
  · intro k' hg own hown
    by_cases hkk : k' = k
    · subst hkk
      rw [hgone hg] at hown
      cases hown
    · have hsame := valuesOf_delete_of_ne ix.map hkk key
      rw [hsame] at hown
      exact hsame.trans (h.single k' hg own hown)

/-- Entries that are more than those of the stored rows do no harm. -/
theorem Guarded.of_entered (h : ix.Guarded rows) (he : ix.enter r key = .ok ix') : ix'.Guarded rows := by
  obtain ⟨k, -, hmap, hfree⟩ := enter_values he
  have hspec := spec_enter he
  constructor
  · intro key' r' k' hr' hk' hg
    rw [guards_of_spec hspec] at hg
    rw [keyOf?_of_spec hspec] at hk'
    have hold := h.covers key' r' k' hr' hk' hg
    rw [hmap]
    by_cases hkk : k' = k
    · subst hkk
      rw [hfree hg] at hold
      cases hold
    · rwa [valuesOf_insert_of_ne _ hkk]
  · intro k' hg own hown
    rw [guards_of_spec hspec] at hg
    rw [hmap] at hown ⊢
    by_cases hkk : k' = k
    · subst hkk
      rw [valuesOf_insert_self, hfree hg] at hown ⊢
      rw [List.mem_singleton.1 hown]
      rfl
    · rw [valuesOf_insert_of_ne _ hkk] at hown ⊢
      exact h.single k' hg own hown

/-- Where a row is no longer stored, its entries may stay. -/
theorem Guarded.erase (h : ix.Guarded rows) (key : RowKey) : ix.Guarded (rows.erase key) where
  covers key' r' k' hr' := by
    refine h.covers key' r' k' ?_
    have hkey : key' ≠ key := by
      rintro rfl
      cases (OrderedMap.find?_erase_self rows key').symm.trans hr'
    exact (OrderedMap.find?_erase_of_ne _ hkey).symm.trans hr'
  single := h.single

/-- A row that comes and goes again leaves guarded values as they were. -/
theorem valuesOf_of_returned {entered : TreeIndex} (henter : ix.enter r key = .ok entered)
    (hleave : entered.leave r key = .ok ix') (hg : ix.guards k = true) :
    ix'.map.valuesOf k = ix.map.valuesOf k := by
  obtain ⟨k₀, hk₀, hmap, hfree⟩ := enter_values henter
  obtain ⟨k₁, hk₁, rfl⟩ := leave_eq_ok.1 hleave
  rw [keyOf?_of_spec (spec_enter henter)] at hk₁
  cases hk₀.symm.trans hk₁
  dsimp only
  rw [hmap]
  by_cases hkk : k = k₀
  · subst hkk
    rw [valuesOf_delete_of_single (by rw [valuesOf_insert_self, hfree hg]; rfl), hfree hg]
  · rw [valuesOf_delete_of_ne _ hkk, valuesOf_insert_of_ne _ hkk]

theorem Guarded.visited (h : ix.Guarded rows) (hv : Visited r key ix ix') : ix'.Guarded rows := by
  have hspec := hv.spec
  rcases hv with rfl | ⟨entered, henter, rfl | hleave⟩
  · exact h
  · exact h.of_entered henter
  · have hvalues := fun k => valuesOf_of_returned (k := k) henter hleave
    constructor
    · intro key' r' k' hr' hk' hg
      rw [guards_of_spec hspec] at hg
      rw [keyOf?_of_spec hspec] at hk'
      rw [hvalues k' hg]
      exact h.covers key' r' k' hr' hk' hg
    · intro k' hg own hown
      rw [guards_of_spec hspec] at hg
      rw [hvalues k' hg] at hown ⊢
      exact h.single k' hg own hown

end TreeIndex

namespace Engine
variable {e e' : Engine} {r r' : Row} {key key' : RowKey} {fault : Fault}

def Guarded (e : Engine) : Prop := ∀ ix ∈ e.indexes, ix.Guarded e.rows

theorem Guarded.addRow (h : e.Guarded) (r : Row) : (final (Engine.addRow r) e).Guarded := by
  intro ix' hix'
  cases hr : Engine.addRow r e with
  | ok stored e' =>
    rw [final_of_ok hr] at hix' ⊢
    obtain ⟨key, ixs, -, hin, -, rfl⟩ := addRow_eq_ok.1 hr
    obtain ⟨ix, hix, hentered⟩ := exists_mem_of_forall₂ hin hix'
    exact (h ix hix).enter hentered
  | error fault e' =>
    rw [final_of_error hr] at hix' ⊢
    obtain ⟨hrows, key, hall⟩ := addRow_visited hr
    obtain ⟨ix, hix, hvisited⟩ := exists_mem_of_forall₂ hall hix'
    rw [hrows]
    exact (h ix hix).visited hvisited

theorem Guarded.removeRow (h : e.Guarded) (r : Row) : (final (Engine.removeRow r) e).Guarded := by
  cases hr : Engine.removeRow r e with
  | ok _ e' =>
    rw [final_of_ok hr]
    obtain ⟨key, stored, ixs, -, hstored, hout, rfl⟩ := removeRow_eq_ok.1 hr
    intro ix' hix'
    obtain ⟨ix, hix, hleft⟩ := exists_mem_of_forall₂ hout hix'
    exact (h ix hix).leave hstored hleft
  | error fault e' =>
    rw [final_of_error hr]
    rcases removeRow_eq_error hr with ⟨-, rfl⟩ | ⟨key, stored, ixs, -, -, hstored, hleft, rfl⟩
    · exact h
    · intro ix' hix'
      obtain ⟨ix, hix, rfl | hl⟩ := exists_mem_of_forall₂ hleft hix'
      · exact (h ix' hix).erase key
      · exact (h ix hix).leave hstored hl

/-- A new index is no matter if it is plain, or nothing is stored. -/
theorem Guarded.addIndex (h : e.Guarded) {spec : IndexSpec} {fill : Bool}
    (ha : Engine.addIndex spec fill e = .ok () e') (hnew : spec.type.unique = true → e.rowList = []) :
    e'.Guarded := by
  obtain ⟨-, ix, hp, rfl⟩ := addIndex_eq_ok ha
  intro ix' hix'
  rcases List.mem_append.1 hix' with hold | hlast
  · exact h ix' hold
  · obtain rfl := List.mem_singleton.1 hlast
    have hspec := spec_populate hp
    cases hunique : spec.type.unique with
    | false => exact TreeIndex.guarded_of_plain (by rw [hspec]; exact hunique) _
    | true =>
      have hempty := hnew hunique
      rw [hempty] at hp
      have hfresh : ix' = { spec := spec, tableName := e.name } := by
        cases fill <;> cases hp <;> rfl
      refine TreeIndex.guarded_of_empty (by rw [hfresh]) fun key => ?_
      cases hr : e.rows.find? key with
      | none => rfl
      | some r =>
        have hmem := mem_rowList_of_row? hr
        rw [hempty] at hmem
        cases hmem

/-- No two stored rows agree, free of NULL, on a unique index. -/
theorem Guarded.not_clash (h : e.Guarded) {ix : TreeIndex} (hix : ix ∈ e.indexes) (hr : e.row? key = some r)
    (hr' : e.row? key' = some r') (hne : key ≠ key') : ¬ ix.Clash r r' := by
  intro hclash
  obtain ⟨k, hg, hk, hk'⟩ := TreeIndex.clash_iff.1 hclash
  have hone := (h ix hix).single k hg key ((h ix hix).covers key r k hr hk hg)
  have hother := (h ix hix).covers key' r' k hr' hk' hg
  rw [hone] at hother
  exact hne (List.mem_singleton.1 hother).symm

end Engine
end RowStore
