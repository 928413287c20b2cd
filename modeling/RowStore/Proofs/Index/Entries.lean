import Mathlib.Data.Multiset.Filter
import RowStore.Index.Tree
import RowStore.Proofs.MultiMap
import RowStore.Proofs.Value.Order

/-!
# The entries of an index and the stored rows

* `TreeIndex.entries` : the pairs of indexed values and row key, in any order;
* `TreeIndex.Refuses` : a unique index holds the values of a row, free of NULL, already;
* `enter_eq_ok`, `enter_of_refuses`, `enter_of_narrow` : when a row is entered and how that fails;
* `leave_enter` : a row under a fresh key comes and goes without a trace;
* `TreeIndex.Tracks` : the entries are those of stored rows, at most one for each, and a unique index
  has no two alike; kept by `enter` and `leave`;
* `TreeIndex.Holds` : a row key has an entry;
* `TreeIndex.contents` : what an index is and holds; `enter_of_left` and `leave_of_entered` restore it.
-/

namespace RowStore

/-- The key of a stored row is no part of its values. -/
@[simp] theorem TreeIndex.keyOf?_withKey (ix : TreeIndex) (r : Row) (key : Option RowKey) :
    ix.keyOf? { r with key := key } = ix.keyOf? r := rfl

namespace TreeIndex

/-- The pairs of indexed values and row key, in any order. -/
def entries (ix : TreeIndex) : Multiset (IndexKey × RowKey) := ix.map.toList

/-- The index is unique and holds already the values of the row, none of which is NULL. -/
def Refuses (ix : TreeIndex) (r : Row) : Prop :=
  ∃ k, ix.keyOf? r = some k ∧ ix.guards k = true ∧ ∃ p ∈ ix.map.toList, p.1 = k

/-! ## Entering and leaving -/

section Steps
variable {ix ix' : TreeIndex} {r : Row} {key : RowKey}

theorem exists_mem_iff (h : ix.map.WellFormed) {k : IndexKey} :
    (∃ p ∈ ix.map.toList, p.1 = k) ↔ ix.map.valuesOf k ≠ [] := by
  constructor
  · rintro ⟨p, hp, rfl⟩
    exact List.ne_nil_of_mem ((MultiMap.mem_toList h).1 hp)
  · intro hne
    obtain ⟨v, hv⟩ := List.exists_mem_of_ne_nil _ hne
    exact ⟨(k, v), (MultiMap.mem_toList h).2 hv, rfl⟩

theorem enterKey_of_free {k : IndexKey} (h : ¬ (ix.guards k = true ∧ ix.map.valuesOf k ≠ [])) :
    ix.enterKey k key = .ok { ix with map := ix.map.insert k key } := by
  unfold enterKey
  by_cases hg : ix.guards k = true
  · have hv : ix.map.valuesOf k = [] := by
      by_contra hv
      exact h ⟨hg, hv⟩
    rw [if_pos hg, MultiMap.insertUnique_of_nil hv]
  · rw [if_neg hg]

theorem enterKey_of_taken {k : IndexKey} (hg : ix.guards k = true) (hv : ix.map.valuesOf k ≠ []) :
    ix.enterKey k key = .error (.duplicateKey ix.tableName ix.spec.name k.render) := by
  obtain ⟨w, -, hu⟩ := MultiMap.insertUnique_of_ne_nil hv key
  unfold enterKey
  rw [if_pos hg, hu]

theorem enter_of_narrow (hk : ix.keyOf? r = none) : ix.enter r key = .error .outOfRange := by
  unfold enter
  rw [hk]

theorem refuses_iff (h : ix.map.WellFormed) {k : IndexKey} (hk : ix.keyOf? r = some k) :
    ix.Refuses r ↔ ix.guards k = true ∧ ix.map.valuesOf k ≠ [] := by
  unfold Refuses
  constructor
  · rintro ⟨k', hk', hg, hp⟩
    obtain rfl : k' = k := Option.some.inj (hk'.symm.trans hk)
    exact ⟨hg, (exists_mem_iff h).1 hp⟩
  · rintro ⟨hg, hv⟩
    exact ⟨k, hk, hg, (exists_mem_iff h).2 hv⟩

theorem enter_of_refuses (h : ix.map.WellFormed) {k : IndexKey} (hk : ix.keyOf? r = some k)
    (hr : ix.Refuses r) :
    ix.enter r key = .error (.error (.duplicateKey ix.tableName ix.spec.name k.render)) := by
  obtain ⟨hg, hv⟩ := (refuses_iff h hk).1 hr
  unfold enter
  rw [hk]
  dsimp only
  rw [enterKey_of_taken hg hv]
  rfl

theorem enter_of_not_refuses (h : ix.map.WellFormed) {k : IndexKey} (hk : ix.keyOf? r = some k)
    (hr : ¬ ix.Refuses r) : ix.enter r key = .ok { ix with map := ix.map.insert k key } := by
  rw [refuses_iff h hk] at hr
  unfold enter
  rw [hk]
  dsimp only
  rw [enterKey_of_free hr]
  rfl

/-- A row is entered where its values exist and are not refused. -/
theorem enter_eq_ok (h : ix.map.WellFormed) : ix.enter r key = .ok ix' ↔
    ∃ k, ix.keyOf? r = some k ∧ ¬ ix.Refuses r ∧ ix' = { ix with map := ix.map.insert k key } := by
  constructor
  · intro he
    cases hk : ix.keyOf? r with
    | none =>
      rw [enter_of_narrow hk] at he
      cases he
    | some k =>
      by_cases hr : ix.Refuses r
      · rw [enter_of_refuses h hk hr] at he
        cases he
      · rw [enter_of_not_refuses h hk hr] at he
        exact ⟨k, rfl, hr, (Except.ok.inj he).symm⟩
  · rintro ⟨k, hk, hr, rfl⟩
    exact enter_of_not_refuses h hk hr

theorem spec_enter (h : ix.enter r key = .ok ix') : ix'.spec = ix.spec := by
  unfold enter enterKey at h
  cases hk : ix.keyOf? r with
  | none =>
    rw [hk] at h
    cases h
  | some k =>
    rw [hk] at h
    dsimp only at h
    split at h
    · split at h
      · cases h
      · cases h
        rfl
    · cases h
      rfl

theorem leave_eq_ok : ix.leave r key = .ok ix' ↔
    ∃ k, ix.keyOf? r = some k ∧ ix' = { ix with map := (ix.map.delete k key).2 } := by
  unfold leave
  cases ix.keyOf? r with
  | none => simp
  | some k => simp [eq_comm]

theorem spec_leave (h : ix.leave r key = .ok ix') : ix'.spec = ix.spec := by
  obtain ⟨k, -, rfl⟩ := leave_eq_ok.1 h
  rfl

/-- A row under a fresh key comes and goes without a trace. -/
theorem leave_enter (h : ix.map.WellFormed) (fresh : ∀ p ∈ ix.map.toList, p.2 ≠ key)
    (he : ix.enter r key = .ok ix') : ix'.leave r key = .ok ix := by
  obtain ⟨k, hk, -, rfl⟩ := (enter_eq_ok h).1 he
  refine leave_eq_ok.2 ⟨k, hk, ?_⟩
  have hm : (k, key) ∉ ix.map.toList := fun hm => fresh _ hm rfl
  dsimp only
  rw [MultiMap.delete_insert h hm]

end Steps

/-! ## Entries of stored rows -/

/-- The entries belong to stored rows, at most one to each, and no two of them share values that a
unique index guards. -/
structure Tracks (ix : TreeIndex) (rows : OrderedMap RowKey Row) : Prop where
  wellFormed : ix.map.WellFormed
  entry : ∀ p ∈ ix.map.toList, ∃ r, rows.find? p.2 = some r ∧ ix.keyOf? r = some p.1
  once : (ix.map.toList.map (·.2)).Nodup
  unique : ∀ p ∈ ix.map.toList, ∀ q ∈ ix.map.toList, p.1 = q.1 → ix.guards p.1 = true → p = q

/-- The index has an entry for the row key. -/
def Holds (ix : TreeIndex) (key : RowKey) : Prop := ∃ p ∈ ix.map.toList, p.2 = key

section Tracks
variable {ix ix' : TreeIndex} {rows : OrderedMap RowKey Row} {r : Row} {key : RowKey}

theorem tracks_empty (ix : TreeIndex) (rows : OrderedMap RowKey Row) (h : ix.map = ∅) :
    ix.Tracks rows := by
  have hl : ix.map.toList = [] := by rw [h]; rfl
  refine ⟨h ▸ MultiMap.wellFormed_empty, ?_, ?_, ?_⟩
  · intro p hp
    rw [hl] at hp
    cases hp
  · rw [hl]
    exact List.nodup_nil
  · intro p hp
    rw [hl] at hp
    cases hp

theorem Tracks.fresh (h : ix.Tracks rows) (hk : rows.find? key = none) :
    ∀ p ∈ ix.map.toList, p.2 ≠ key := by
  intro p hp he
  obtain ⟨r, hr, -⟩ := h.entry p hp
  rw [he, hk] at hr
  cases hr

theorem Tracks.countP_le_one (h : ix.Tracks rows) (key : RowKey) :
    ix.entries.countP (·.2 = key) ≤ 1 := by
  have hc := List.nodup_iff_count_le_one.1 h.once key
  rw [List.count, List.countP_map] at hc
  unfold entries
  rw [Multiset.coe_countP]
  exact hc

theorem Tracks.countP_eq_one (h : ix.Tracks rows) (hh : ix.Holds key) :
    ix.entries.countP (·.2 = key) = 1 := by
  obtain ⟨p, hp, hk⟩ := hh
  exact Nat.le_antisymm (h.countP_le_one key) (Multiset.countP_pos.2 ⟨p, hp, hk⟩)

/-- In a unique index, entries with equal values have a NULL among them. -/
theorem Tracks.pairwise (h : ix.Tracks rows) (hu : ix.spec.type.unique = true) :
    ix.map.toList.Pairwise fun p q => p.1 = q.1 → p.1.any Value.isNull = true := by
  refine (List.pairwise_map.1 h.once).imp_of_mem fun {p q} hp hq hne hpq => ?_
  by_contra hn
  have hg : ix.guards p.1 = true := by
    unfold guards
    rw [hu, Bool.true_and, Bool.not_eq_true', Bool.eq_false_iff]
    exact hn
  exact hne (congrArg Prod.snd (h.unique p hp q hq hpq hg))

theorem Tracks.keyOf?_of_find? (h : ix.Tracks rows) {p : IndexKey × RowKey}
    (hp : p ∈ ix.map.toList) (hr : rows.find? p.2 = some r) : ix.keyOf? r = some p.1 := by
  obtain ⟨r', hr', hk⟩ := h.entry p hp
  obtain rfl : r' = r := Option.some.inj (hr'.symm.trans hr)
  exact hk

/-- A row that is stored and has an entry has the entry with its values. -/
theorem Tracks.mem_of_holds (h : ix.Tracks rows) (hr : rows.find? key = some r)
    (hh : ix.Holds key) : ∃ k, ix.keyOf? r = some k ∧ (k, key) ∈ ix.map.toList := by
  obtain ⟨p, hp, rfl⟩ := hh
  exact ⟨p.1, h.keyOf?_of_find? hp hr, hp⟩

theorem entries_enter (h : ix.map.WellFormed) (he : ix.enter r key = .ok ix') :
    ∃ k, ix.keyOf? r = some k ∧ ix'.map.toList.Perm ((k, key) :: ix.map.toList) := by
  obtain ⟨k, hk, -, rfl⟩ := (enter_eq_ok h).1 he
  exact ⟨k, hk, MultiMap.toList_insert h k key⟩

theorem holds_enter (h : ix.map.WellFormed) (he : ix.enter r key = .ok ix') {k : RowKey} :
    ix'.Holds k ↔ k = key ∨ ix.Holds k := by
  obtain ⟨v, -, hp⟩ := entries_enter h he
  unfold Holds
  simp only [hp.mem_iff, List.mem_cons, exists_eq_or_imp, eq_comm]

/-- A stored row that leaves takes the entry of its key along and no other. -/
theorem Tracks.entries_leave (h : ix.Tracks rows) (hr : rows.find? key = some r)
    (hl : ix.leave r key = .ok ix') :
    ix'.map.toList.Perm (ix.map.toList.filter (·.2 ≠ key)) := by
  obtain ⟨k, hk, rfl⟩ := leave_eq_ok.1 hl
  dsimp only
  by_cases hm : (k, key) ∈ ix.map.toList
  · have hp := MultiMap.toList_delete h.wellFormed hm
    have others : ∀ q ∈ (ix.map.delete k key).2.toList, q.2 ≠ key := by
      have hn := (hp.map (·.2)).nodup_iff.1 h.once
      rw [List.map_cons, List.nodup_cons] at hn
      intro q hq he
      exact hn.1 (List.mem_map.2 ⟨q, hq, he⟩)
    have hs : (ix.map.delete k key).2.toList.filter (·.2 ≠ key) = (ix.map.delete k key).2.toList :=
      List.filter_eq_self.2 fun q hq => decide_eq_true (others q hq)
    have hf := hp.filter (·.2 ≠ key)
    rw [List.filter_cons_of_neg (by simp), hs] at hf
    exact hf.symm
  · rw [MultiMap.delete_of_notMem_toList h.wellFormed hm, List.filter_eq_self.2]
    intro p hp
    -- An entry under the key would have the values of the row.
    have hne : p.2 ≠ key := by
      intro he
      obtain ⟨k', hk', hm'⟩ := h.mem_of_holds hr ⟨p, hp, he⟩
      obtain rfl : k' = k := Option.some.inj (hk'.symm.trans hk)
      exact hm hm'
    simpa using hne

theorem Tracks.holds_leave (h : ix.Tracks rows) (hr : rows.find? key = some r)
    (hl : ix.leave r key = .ok ix') {k : RowKey} : ix'.Holds k ↔ k ≠ key ∧ ix.Holds k := by
  have hp := h.entries_leave hr hl
  unfold Holds
  constructor
  · rintro ⟨p, hm, rfl⟩
    have hm := hp.mem_iff.1 hm
    exact ⟨of_decide_eq_true (List.mem_filter.1 hm).2, p, (List.mem_filter.1 hm).1, rfl⟩
  · rintro ⟨hne, p, hm, rfl⟩
    exact ⟨p, hp.mem_iff.2 (List.mem_filter.2 ⟨hm, decide_eq_true hne⟩), rfl⟩

/-- An index goes on tracking the rows when one more of them is entered under its key. -/
theorem Tracks.enter_under {rows' : OrderedMap RowKey Row} {stored : Row} (h : ix.Tracks rows)
    (fresh : ¬ ix.Holds key) (he : ix.enter r key = .ok ix') (hkey : ix.keyOf? stored = ix.keyOf? r)
    (hstored : rows'.find? key = some stored)
    (hrest : ∀ k ≠ key, rows'.find? k = rows.find? k) : ix'.Tracks rows' := by
  obtain ⟨k, hk, hr, rfl⟩ := (enter_eq_ok h.wellFormed).1 he
  have hp := MultiMap.toList_insert h.wellFormed k key
  -- Values that the index guards were not there before.
  have free : ix.guards k = true → ∀ p ∈ ix.map.toList, p.1 ≠ k :=
    fun hg p hm he => hr ⟨k, hk, hg, p, hm, he⟩
  refine ⟨h.wellFormed.insert k key, ?_, ?_, ?_⟩
  · intro p hm
    rcases List.mem_cons.1 (hp.mem_iff.1 hm) with rfl | hm
    · exact ⟨stored, hstored, hkey.trans hk⟩
    · obtain ⟨r', hr', hk'⟩ := h.entry p hm
      exact ⟨r', by rw [hrest p.2 fun he => fresh ⟨p, hm, he⟩, hr'], hk'⟩
  · rw [(hp.map (·.2)).nodup_iff, List.map_cons, List.nodup_cons]
    refine ⟨fun hm => ?_, h.once⟩
    obtain ⟨p, hm, he⟩ := List.mem_map.1 hm
    exact fresh ⟨p, hm, he⟩
  · intro p hm q hm' hpq hg
    rcases List.mem_cons.1 (hp.mem_iff.1 hm) with rfl | hm <;>
      rcases List.mem_cons.1 (hp.mem_iff.1 hm') with rfl | hm'
    · rfl
    · exact absurd hpq.symm (free hg q hm')
    · have hpk : p.1 = k := hpq
      exact absurd hpk (free (hpk ▸ hg) p hm)
    · exact h.unique p hm q hm' hpq hg

/-- An index goes on tracking the rows when one is stored under a fresh key and entered. -/
theorem Tracks.enter (h : ix.Tracks rows) (hk : rows.find? key = none)
    (he : ix.enter r key = .ok ix') :
    ix'.Tracks (rows.insert key { r with key := some key }) := by
  refine h.enter_under (fun ⟨p, hp, hkey⟩ => h.fresh hk p hp hkey) he (ix.keyOf?_withKey r (some key))
    (OrderedMap.find?_insert_self ..) ?_
  intro k hne
  exact OrderedMap.find?_insert_of_ne _ hne _

/-- An index goes on tracking the rows when a stored one that it lacks is entered. -/
theorem Tracks.enter_stored (h : ix.Tracks rows) (hr : rows.find? key = some r)
    (fresh : ¬ ix.Holds key) (he : ix.enter r key = .ok ix') : ix'.Tracks rows :=
  h.enter_under fresh he rfl hr fun _ _ => rfl

/-- An index goes on tracking the rows when a stored one leaves and is deleted. -/
theorem Tracks.leave (h : ix.Tracks rows) (hr : rows.find? key = some r)
    (hl : ix.leave r key = .ok ix') : ix'.Tracks (rows.erase key) := by
  have hp := h.entries_leave hr hl
  have sub : ∀ p ∈ ix'.map.toList, p ∈ ix.map.toList ∧ p.2 ≠ key := fun p hm => by
    simpa using hp.mem_iff.1 hm
  have hwf : ix'.map.WellFormed := by
    obtain ⟨k, -, rfl⟩ := leave_eq_ok.1 hl
    exact h.wellFormed.delete k key
  have hspec := spec_leave hl
  refine ⟨hwf, ?_, ?_, ?_⟩
  · intro p hm
    obtain ⟨hm, hne⟩ := sub p hm
    obtain ⟨r', hr', hk'⟩ := h.entry p hm
    refine ⟨r', by rw [OrderedMap.find?_erase_of_ne _ hne, hr'], ?_⟩
    unfold keyOf? at hk' ⊢
    rw [hspec, hk']
  · rw [(hp.map (·.2)).nodup_iff]
    exact h.once.sublist ((List.filter_sublist).map _)
  · intro p hm q hm' hpq hg
    unfold guards at hg
    rw [hspec] at hg
    exact h.unique p (sub p hm).1 q (sub q hm').1 hpq hg

end Tracks

/-! ## There and back -/

/-- What an index is and holds, in whatever order. -/
def contents (ix : TreeIndex) : IndexSpec × String × Multiset (IndexKey × RowKey) :=
  (ix.spec, ix.tableName, ix.entries)

section Contents
variable {ix ix' back : TreeIndex} {rows rows' : OrderedMap RowKey Row} {r : Row} {key : RowKey}

theorem contents_eq : ix.contents = ix'.contents ↔
    ix.spec = ix'.spec ∧ ix.tableName = ix'.tableName ∧ ix.map.toList.Perm ix'.map.toList := by
  simp [contents, entries]

theorem keyOf?_of_spec (h : ix.spec = ix'.spec) (r : Row) : ix.keyOf? r = ix'.keyOf? r := by
  unfold keyOf?
  rw [h]

/-- An index that a stored row has left, or one with the same contents, takes it back. -/
theorem Tracks.enter_of_left (h : ix.Tracks rows) (hr : rows.find? key = some r) (hh : ix.Holds key)
    (hl : ix.leave r key = .ok ix') (hb : back.map.WellFormed) (hc : back.contents = ix'.contents) :
    ∃ ix'', back.enter r key = .ok ix'' ∧ ix''.contents = ix.contents := by
  obtain ⟨k, hk, hm⟩ := h.mem_of_holds hr hh
  have hleft := h.entries_leave hr hl
  obtain ⟨hspec, hname, hperm⟩ := contents_eq.1 hc
  obtain ⟨k', hk', rfl⟩ := leave_eq_ok.1 hl
  obtain rfl : k' = k := Option.some.inj (hk'.symm.trans hk)
  have hkb : back.keyOf? r = some k' := (keyOf?_of_spec hspec r).trans hk
  -- Whatever held the values of the row besides it would not have let it in.
  have free : ¬ back.Refuses r := by
    rintro ⟨v, hv, hg, p, hp, he⟩
    obtain rfl : v = k' := Option.some.inj (hv.symm.trans hkb)
    have hp := List.mem_filter.1 (hleft.mem_iff.1 (hperm.mem_iff.1 hp))
    have hg : ix.guards p.1 = true := by
      unfold guards at hg ⊢
      rw [he, ← hg, hspec]
    have hpq := h.unique p hp.1 (v, key) hm he hg
    exact of_decide_eq_true hp.2 (congrArg Prod.snd hpq)
  refine ⟨_, enter_of_not_refuses hb hkb free, contents_eq.2 ⟨hspec, hname, ?_⟩⟩
  have hin := MultiMap.toList_insert hb k' key
  have hout := MultiMap.toList_delete h.wellFormed hm
  exact (hin.trans (hperm.cons (k', key))).trans hout.symm

/-- An index that a row has entered under a fresh key, or one with the same contents, lets it go. -/
theorem leave_of_entered {stored : Row} (h : ix.map.WellFormed) (fresh : ¬ ix.Holds key)
    (he : ix.enter r key = .ok ix') (hb : back.Tracks rows') (hstored : rows'.find? key = some stored)
    (hkey : ix.keyOf? stored = ix.keyOf? r) (hc : back.contents = ix'.contents) :
    ∃ ix'', back.leave stored key = .ok ix'' ∧ ix''.contents = ix.contents := by
  obtain ⟨k, hk, hin⟩ := entries_enter h he
  obtain ⟨hspec, hname, hperm⟩ := contents_eq.1 hc
  obtain ⟨_, -, -, rfl⟩ := (enter_eq_ok h).1 he
  have hkb : back.keyOf? stored = some k := (keyOf?_of_spec hspec stored).trans (hkey.trans hk)
  have hl : back.leave stored key = .ok { back with map := (back.map.delete k key).2 } :=
    leave_eq_ok.2 ⟨k, hkb, rfl⟩
  refine ⟨_, hl, contents_eq.2 ⟨hspec, hname, ?_⟩⟩
  have hout := hb.entries_leave hstored hl
  refine hout.trans (((hperm.trans hin).filter (·.2 ≠ key)).trans ?_)
  rw [List.filter_cons_of_neg (by simp), List.filter_eq_self.2]
  intro p hp
  exact decide_eq_true fun hpk => fresh ⟨p, hp, hpk⟩

end Contents

end TreeIndex
end RowStore
