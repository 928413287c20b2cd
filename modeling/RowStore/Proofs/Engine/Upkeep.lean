import RowStore.Proofs.Engine.Sound

/-!
# Changes keep an engine sound

* `addIndex_eq_ok`, `addIndex_eq_error`, `removeIndex_eq` : what a change of indexes does;
* `populate_eq_ok` : an index that stored rows are entered into tracks and holds them;
* `Sound.addRow`, `Sound.truncate`, `Sound.addIndex`, `Sound.removeIndex` : each change keeps an engine
  sound, be it done or refused;
* `Sound.holds_withRow`, `Sound.holds_withoutRow` : what indexes hold after a change of rows.
-/

namespace RowStore.Engine

/-! ## Changes of indexes -/

section Fill
variable {e e' : Engine} {spec : IndexSpec} {fill : Bool} {fault : Fault}

/-- An index without columns or a number of its own is refused; otherwise all depends on its rows. -/
theorem addIndex_cases (e : Engine) (spec : IndexSpec) (fill : Bool) :
    (spec.columns = [] ∨ spec.id = scanId ∨ e.index? spec.id ≠ none) ∧
        (∃ what, addIndex spec fill e = .error (.error (.internal what)) e) ∨
      (spec.columns ≠ [] ∧ spec.id ≠ scanId ∧ e.index? spec.id = none) ∧ addIndex spec fill e =
        match populate e.name (if fill then e.rowList else []) { spec := spec, tableName := e.name } with
        | .error fault => .error fault e
        | .ok ix => .ok () { e with indexes := e.indexes ++ [ix] } := by
  unfold addIndex
  rw [Action.get_bind]
  by_cases hc : spec.columns.isEmpty = true
  · rw [if_pos hc]
    exact Or.inl ⟨Or.inl (List.isEmpty_iff.1 hc), _, Action.bind_of_error rfl⟩
  · rw [if_neg hc]
    dsimp only
    by_cases hid : spec.id = scanId ∨ (e.index? spec.id).isSome = true
    · rw [if_pos hid]
      exact Or.inl ⟨Or.inr (hid.imp_right Option.isSome_iff_ne_none.1), _, Action.bind_of_error rfl⟩
    · rw [if_neg hid]
      obtain ⟨hscan, hfree⟩ := not_or.1 hid
      refine Or.inr ⟨⟨mt List.isEmpty_iff.2 hc, hscan, Option.not_isSome_iff_eq_none.1 hfree⟩, ?_⟩
      cases populate e.name (if fill then e.rowList else []) { spec := spec, tableName := e.name } with
      | error fault => rfl
      | ok ix => rfl

theorem addIndex_eq_ok (h : addIndex spec fill e = .ok () e') : e.index? spec.id = none ∧
    ∃ ix, populate e.name (if fill then e.rowList else []) { spec := spec, tableName := e.name }
      = .ok ix ∧ e' = { e with indexes := e.indexes ++ [ix] } := by
  rcases addIndex_cases e spec fill with ⟨-, what, he⟩ | ⟨⟨-, -, hnew⟩, he⟩
  · rw [h] at he
    cases he
  · rw [h] at he
    cases hp : populate e.name (if fill then e.rowList else []) { spec := spec, tableName := e.name } with
    | error f =>
      rw [hp] at he
      cases he
    | ok ix =>
      rw [hp] at he
      cases he
      exact ⟨hnew, ix, rfl, rfl⟩

theorem addIndex_eq_error (h : addIndex spec fill e = .error fault e') : e' = e := by
  rcases addIndex_cases e spec fill with ⟨-, what, he⟩ | ⟨-, he⟩
  · rw [h] at he
    cases he
    rfl
  · rw [h] at he
    cases hp : populate e.name (if fill then e.rowList else []) { spec := spec, tableName := e.name } with
    | error f =>
      rw [hp] at he
      cases he
      rfl
    | ok ix =>
      rw [hp] at he
      cases he

theorem removeIndex_eq (e : Engine) (id : Nat) : removeIndex id e =
    .ok (e.index? id) { e with indexes := e.indexes.eraseP (·.spec.id == id) } := by
  unfold removeIndex
  rw [Action.get_bind]
  cases hix : e.index? id with
  | some ix => rfl
  | none =>
    have hp : ∀ ix ∈ e.indexes, ¬ (ix.spec.id == id) = true := List.find?_eq_none.1 hix
    rw [List.eraseP_of_forall_not hp]
    rfl

theorem populate_cons {name : String} {r : Row} {rs : List Row} {key : RowKey} {ix ix' : TreeIndex}
    (hk : r.key = some key) (h : populate name (r :: rs) ix = .ok ix') :
    ∃ entered, ix.enter r key = .ok entered ∧ populate name rs entered = .ok ix' := by
  unfold populate at h
  rw [hk] at h
  dsimp only at h
  cases he : ix.enter r key with
  | error fault =>
    rw [he] at h
    cases h
  | ok entered =>
    rw [he] at h
    exact ⟨entered, rfl, h⟩

/-- A fresh index that stored rows are entered into tracks the rows and holds those. -/
theorem populate_eq_ok {name : String} {rows : OrderedMap RowKey Row} {rs : List Row}
    {ix ix' : TreeIndex} (h : populate name rs ix = .ok ix') (ht : ix.Tracks rows)
    (hstored : ∀ r ∈ rs, ∃ key, r.key = some key ∧ rows.find? key = some r)
    (fresh : ∀ r ∈ rs, ∀ key, r.key = some key → ¬ ix.Holds key)
    (once : (rs.map (·.key)).Nodup) :
    ix'.spec = ix.spec ∧ ix'.Tracks rows ∧
      ∀ r ∈ rs, ∀ key, r.key = some key → ix'.Holds key := by
  -- Besides, what the index holds already stays in it.
  suffices hs : ix'.spec = ix.spec ∧ ix'.Tracks rows ∧
      ∀ key, (ix.Holds key ∨ ∃ r ∈ rs, r.key = some key) → ix'.Holds key from
    ⟨hs.1, hs.2.1, fun r hr key hk => hs.2.2 key (Or.inr ⟨r, hr, hk⟩)⟩
  induction rs generalizing ix with
  | nil =>
    cases h
    refine ⟨rfl, ht, ?_⟩
    rintro key (hh | ⟨r, hr, -⟩)
    · exact hh
    · cases hr
  | cons r rs ih =>
    obtain ⟨key, hk, hr⟩ := hstored r List.mem_cons_self
    obtain ⟨entered, he, h⟩ := populate_cons hk h
    obtain ⟨hnew, hlater⟩ := List.nodup_cons.1 once
    have hh : ∀ k, entered.Holds k ↔ k = key ∨ ix.Holds k :=
      fun k => TreeIndex.holds_enter ht.wellFormed he
    have ht' := ht.enter_stored hr (fresh r List.mem_cons_self key hk) he
    have hfresh : ∀ r' ∈ rs, ∀ k, r'.key = some k → ¬ entered.Holds k := by
      intro r' hr' k hk' hin
      rcases (hh k).1 hin with rfl | hin
      · exact hnew (List.mem_map.2 ⟨r', hr', hk'.trans hk.symm⟩)
      · exact fresh r' (List.mem_cons_of_mem _ hr') k hk' hin
    obtain ⟨hspec, htracks, hholds⟩ :=
      ih h ht' (fun r hr => hstored r (List.mem_cons_of_mem _ hr)) hfresh hlater
    refine ⟨hspec.trans (TreeIndex.spec_enter he), htracks, ?_⟩
    rintro k (hin | ⟨r', hr', hk'⟩)
    · exact hholds k (Or.inl ((hh k).2 (Or.inr hin)))
    · rcases List.mem_cons.1 hr' with rfl | hr'
      · cases hk.symm.trans hk'
        exact hholds key (Or.inl ((hh key).2 (Or.inl rfl)))
      · exact hholds k (Or.inr ⟨r', hr', hk'⟩)

end Fill

/-! ## Changes keep an engine sound -/

section Sound
variable {e e' : Engine} {r stored : Row} {key : RowKey} {ixs : List TreeIndex}

theorem Sound.claimed (h : e.Sound) (ha : e.assigned? r = some key) (hl : key ≠ lastKey) :
    (e.claimed r).Sound where
  sorted := h.sorted
  keyed := h.keyed
  below k r' hk := UInt64.lt_of_lt_of_le (h.below k r' hk) (lt_nextAfter ha hl).2
  ids := h.ids
  tracks := h.tracks

theorem row?_withRow_of_ne {k : RowKey} (hk : k ≠ key) :
    (e.withRow r key ixs).row? k = e.row? k := OrderedMap.find?_insert_of_ne _ hk _

theorem row?_withRow_self : (e.withRow r key ixs).row? key = some { r with key := some key } :=
  OrderedMap.find?_insert_self ..

theorem row?_withoutRow_of_ne {k : RowKey} (hk : k ≠ key) :
    (e.withoutRow key ixs).row? k = e.row? k := OrderedMap.find?_erase_of_ne _ hk

theorem row?_withoutRow_self : (e.withoutRow key ixs).row? key = none :=
  OrderedMap.find?_erase_self ..

/-- What is stored after a row was removed was stored before, under another key. -/
theorem row?_of_withoutRow {k : RowKey} (h : (e.withoutRow key ixs).row? k = some r) :
    k ≠ key ∧ e.row? k = some r := by
  by_cases hk : k = key
  · rw [hk, row?_withoutRow_self] at h
    cases h
  · exact ⟨hk, (row?_withoutRow_of_ne hk).symm.trans h⟩

theorem Sound.withRow (h : e.Sound) (ha : e.assigned? r = some key) (hl : key ≠ lastKey)
    (hin : List.Forall₂ (fun ix ix' => ix.enter r key = .ok ix') e.indexes ixs) :
    (e.withRow r key ixs).Sound := by
  have fresh := h.fresh ha
  obtain ⟨hlt, hle⟩ := lt_nextAfter ha hl
  refine ⟨h.sorted.insert _ _, ?_, ?_, ?_, ?_⟩
  · intro k r' hk
    by_cases hkk : k = key
    · subst hkk
      cases row?_withRow_self.symm.trans hk
      rfl
    · exact h.keyed k r' ((row?_withRow_of_ne hkk).symm.trans hk)
  · intro k r' hk
    by_cases hkk : k = key
    · exact hkk ▸ hlt
    · exact UInt64.lt_of_lt_of_le (h.below k r' ((row?_withRow_of_ne hkk).symm.trans hk)) hle
  · have hids := map_eq_of_forall₂ (f := fun ix => ix.spec.id)
      (fun _ _ he => congrArg IndexSpec.id (TreeIndex.spec_enter he)) hin
    exact hids ▸ h.ids
  · intro ix' hix'
    obtain ⟨ix, hix, he⟩ := exists_mem_of_forall₂ hin hix'
    exact (h.tracks ix hix).enter fresh he

theorem Sound.withoutRow (h : e.Sound) (hr : e.row? key = some stored)
    (hout : List.Forall₂ (fun ix ix' => ix.leave stored key = .ok ix') e.indexes ixs) :
    (e.withoutRow key ixs).Sound := by
  refine ⟨h.sorted.erase _, fun k r' hk => h.keyed k r' (row?_of_withoutRow hk).2,
    fun k r' hk => h.below k r' (row?_of_withoutRow hk).2, ?_, ?_⟩
  · have hids := map_eq_of_forall₂ (f := fun ix => ix.spec.id)
      (fun _ _ he => congrArg IndexSpec.id (TreeIndex.spec_leave he)) hout
    exact hids ▸ h.ids
  · intro ix' hix'
    obtain ⟨ix, hix, hl⟩ := exists_mem_of_forall₂ hout hix'
    exact (h.tracks ix hix).leave hr hl

/-- An index after a row was added holds that and what it held before. -/
theorem Sound.holds_withRow (h : e.Sound)
    (hin : List.Forall₂ (fun ix ix' => ix.enter r key = .ok ix') e.indexes ixs)
    {ix' : TreeIndex} (hix' : ix' ∈ ixs) :
    ∃ ix ∈ e.indexes, ix'.spec = ix.spec ∧ ∀ k, ix'.Holds k ↔ k = key ∨ ix.Holds k := by
  obtain ⟨ix, hix, he⟩ := exists_mem_of_forall₂ hin hix'
  exact ⟨ix, hix, TreeIndex.spec_enter he,
    fun _ => TreeIndex.holds_enter (h.tracks ix hix).wellFormed he⟩

/-- An index after a row was removed holds what it held before, except that row. -/
theorem Sound.holds_withoutRow (h : e.Sound) (hr : e.row? key = some stored)
    (hout : List.Forall₂ (fun ix ix' => ix.leave stored key = .ok ix') e.indexes ixs)
    {ix' : TreeIndex} (hix' : ix' ∈ ixs) :
    ∃ ix ∈ e.indexes, ix'.spec = ix.spec ∧ ∀ k, ix'.Holds k ↔ k ≠ key ∧ ix.Holds k := by
  obtain ⟨ix, hix, hl⟩ := exists_mem_of_forall₂ hout hix'
  exact ⟨ix, hix, TreeIndex.spec_leave hl, fun _ => (h.tracks ix hix).holds_leave hr hl⟩

/-- An engine stays sound when a row is added or refused, unless the row is given the last key. -/
theorem Sound.addRow (h : e.Sound) (hl : e.assigned? r ≠ some lastKey)
    (hp : ∀ e', Engine.addRow r e ≠ .error .outOfRange e') :
    (Action.final (Engine.addRow r) e).Sound := by
  cases he : Engine.addRow r e with
  | ok stored e' =>
    rw [Action.final_of_ok he]
    obtain ⟨key, ixs, ha, hin, -, rfl⟩ := addRow_eq_ok.1 he
    exact h.withRow ha (fun hk => hl (hk ▸ ha)) hin
  | error fault e' =>
    rw [Action.final_of_error he]
    cases fault with
    | outOfRange => exact absurd he (hp e')
    | error cause =>
      rcases h.addRow_refused he with ⟨-, rfl⟩ | ⟨key, ha, rfl⟩
      · exact h
      · exact h.claimed ha fun hk => hl (hk ▸ ha)

theorem Sound.truncate (h : e.Sound) : e.truncate.Sound where
  sorted := OrderedMap.sorted_empty
  keyed _ _ hk := by cases hk
  below _ _ hk := by cases hk
  ids := by
    unfold Engine.truncate
    rw [List.map_map]
    exact h.ids
  tracks ix hix := by
    obtain ⟨ix, -, rfl⟩ := List.mem_map.1 hix
    exact TreeIndex.tracks_empty ix.clear ∅ rfl

theorem Sound.mem_rowList (h : e.Sound) : r ∈ e.rowList ↔ ∃ key, e.row? key = some r := by
  unfold rowList OrderedMap.values
  rw [List.mem_map]
  constructor
  · rintro ⟨⟨key, r⟩, hm, rfl⟩
    exact ⟨key, (OrderedMap.mem_entries h.sorted).1 hm⟩
  · rintro ⟨key, hr⟩
    exact ⟨(key, r), (OrderedMap.mem_entries h.sorted).2 hr, rfl⟩

theorem Sound.nodup_rowList_keys (h : e.Sound) : (e.rowList.map (·.key)).Nodup := by
  have hkeys : e.rowList.map (·.key) = e.rows.keys.map some := by
    unfold rowList OrderedMap.values OrderedMap.keys
    rw [List.map_map, List.map_map]
    refine List.map_congr_left fun p hp => ?_
    exact h.keyed p.1 p.2 ((OrderedMap.mem_entries h.sorted).1 hp)
  rw [hkeys]
  exact h.sorted.nodup_keys.map (Option.some_injective _)

/-- An index that is attached holds all stored rows, if it is filled, and is one of a kind. -/
theorem Sound.attached (h : e.Sound) {spec : IndexSpec} {fill : Bool}
    (he : Engine.addIndex spec fill e = .ok () e') :
    ∃ ix, ix.spec = spec ∧ ix.Tracks e.rows ∧ (∀ i ∈ e.indexes, i.spec.id ≠ spec.id) ∧
      (fill = true → ∀ key r, e.row? key = some r → ix.Holds key) ∧
      e' = { e with indexes := e.indexes ++ [ix] } := by
  obtain ⟨hnew, ix, hpop, rfl⟩ := addIndex_eq_ok he
  have stored : ∀ r ∈ (if fill then e.rowList else []),
      ∃ key, r.key = some key ∧ e.row? key = some r := by
    intro r hr
    have hr : r ∈ e.rowList := by
      split at hr
      · exact hr
      · cases hr
    obtain ⟨key, hk⟩ := h.mem_rowList.1 hr
    exact ⟨key, h.keyed key r hk, hk⟩
  have once : ((if fill then e.rowList else []).map (·.key)).Nodup := by
    split
    · exact h.nodup_rowList_keys
    · exact List.nodup_nil
  obtain ⟨hspec, ht, hh⟩ := populate_eq_ok hpop (TreeIndex.tracks_empty _ e.rows rfl) stored
    (fun _ _ _ _ ⟨_, hp, _⟩ => by cases hp) once
  refine ⟨ix, hspec, ht, ?_, ?_, rfl⟩
  · intro i hi hid
    exact List.find?_eq_none.1 hnew i hi (beq_iff_eq.2 hid)
  · intro hf key r hr
    rw [if_pos hf] at hh
    exact hh r (h.mem_rowList.2 ⟨key, hr⟩) key (h.keyed key r hr)

theorem Sound.addIndex (h : e.Sound) (spec : IndexSpec) (fill : Bool) :
    (Action.final (Engine.addIndex spec fill) e).Sound := by
  cases he : Engine.addIndex spec fill e with
  | error fault e' =>
    rw [Action.final_of_error he, addIndex_eq_error he]
    exact h
  | ok _ e' =>
    rw [Action.final_of_ok he]
    obtain ⟨ix, hspec, ht, hnew, -, rfl⟩ := h.attached he
    refine ⟨h.sorted, h.keyed, h.below, ?_, ?_⟩
    · rw [List.map_append, List.nodup_append]
      refine ⟨h.ids, List.nodup_singleton _, ?_⟩
      intro id hid id' hid'
      obtain ⟨i, hi, rfl⟩ := List.mem_map.1 hid
      obtain rfl : id' = ix.spec.id := List.mem_singleton.1 hid'
      rw [hspec]
      exact hnew i hi
    · intro i hi
      rcases List.mem_append.1 hi with hi | hi
      · exact h.tracks i hi
      · obtain rfl := List.mem_singleton.1 hi
        exact ht

theorem Sound.removeIndex (h : e.Sound) (id : Nat) :
    (Action.final (Engine.removeIndex id) e).Sound := by
  rw [Action.final_of_ok (removeIndex_eq e id)]
  refine ⟨h.sorted, h.keyed, h.below, ?_, ?_⟩
  · exact h.ids.sublist ((List.eraseP_sublist).map _)
  · intro ix hix
    exact h.tracks ix (List.mem_of_mem_eraseP hix)

end Sound

end RowStore.Engine
