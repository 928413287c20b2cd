import RowStore.Proofs.Engine.Filling
import RowStore.Proofs.Engine.Ordered

/-!
# Reading an index

* `forall₂_filterMap`, `find?_of_forall₂` : what is read off a list member by member, and the first that
  fits;
* `Engine.Yields` : an index yields the row of each of its entries; `Reached.yields` : every attached one does;
* `Reached.perm_rowList` : an index that was whole when it was attached yields all stored rows, each once;
* `IndexColumn.isSet` : a row has a value other than NULL in a column; `Yields.extreme?_eq` : the first or
  last row of an index is the first or last one that has, on the way that it yields them;
* `index_reads_are_complete` : all of that, with the order of the rows.

A row that is not found under the key of an entry is left out without a word, so it matters that this
never happens.
-/

namespace RowStore

/-! ## Lists read member by member -/

section Lists
variable {α β : Type} {R : α → β → Prop} {f : α → Option β}

theorem forall₂_filterMap {l : List α} (h : ∀ a ∈ l, ∃ b, f a = some b ∧ R a b) :
    List.Forall₂ R l (l.filterMap f) := by
  induction l with
  | nil => exact .nil
  | cons a l ih =>
    obtain ⟨⟨b, hb, hr⟩, hl⟩ := List.forall_mem_cons.1 h
    rw [List.filterMap_cons_some hb]
    exact .cons hr (ih hl)

theorem find?_of_forall₂ {p : α → Bool} {q : β → Bool} {l : List α} {l' : List β}
    (h : List.Forall₂ R l l') (hpq : ∀ a b, R a b → p a = q b) (hf : ∀ a b, R a b → f a = some b) :
    (l.find? p).bind f = l'.find? q := by
  induction h with
  | nil => rfl
  | cons hr _ ih =>
    rw [List.find?_cons, List.find?_cons, hpq _ _ hr]
    split
    · exact hf _ _ hr
    · exact ih

/-- Of the members that fit, the first one stands in relation to all. -/
theorem rel_of_find? {R : α → α → Prop} {p : α → Bool} {l : List α} {a b : α} (h : l.Pairwise R)
    (hrefl : ∀ a, R a a) (ha : l.find? p = some a) (hb : b ∈ l) (hp : p b = true) : R a b := by
  obtain ⟨-, before, after, rfl, hbefore⟩ := List.find?_eq_some_iff_append.1 ha
  rcases List.mem_append.1 hb with hb | hb
  · exact absurd hp (by simpa using hbefore b hb)
  · rcases List.mem_cons.1 hb with rfl | hb
    · exact hrefl b
    · exact (List.pairwise_cons.1 (List.pairwise_append.1 h).2.1).1 b hb

end Lists

theorem OrderedMap.Sorted.filterMap_keys {κ ν : Type} [Ord κ] [Std.TransOrd κ] [Std.LawfulEqOrd κ]
    {m : OrderedMap κ ν} (h : m.Sorted) : m.keys.filterMap m.find? = m.values := by
  unfold keys values
  rw [List.filterMap_map, ← List.filterMap_eq_map]
  exact List.filterMap_congr fun entry hentry => (mem_entries h).1 hentry

/-- The row has a value other than NULL in the column. -/
def IndexColumn.isSet (c : IndexColumn) (r : Row) : Bool :=
  ((r.value? c.place).map fun v => !v.isNull).getD false

section Leading
variable {ix : TreeIndex} {c : IndexColumn} {a b : Row} {k l : IndexKey}

theorem TreeIndex.leading_of_keyOf? (hc : ix.spec.columns.head? = some c) (hk : ix.keyOf? a = some k) :
    ∃ v rest, k = v :: rest ∧ a.value? c.place = some v := by
  unfold keyOf? at hk
  cases hcs : ix.spec.columns with
  | nil =>
    rw [hcs] at hc
    cases hc
  | cons d columns =>
    rw [hcs] at hc hk
    cases hc
    obtain ⟨v, rest, hv, -, rfl⟩ := SortOrder.mapM_cons_eq_some hk
    exact ⟨v, rest, rfl, hv⟩

theorem TreeIndex.isSet_eq (hc : ix.spec.columns.head? = some c) (hk : ix.keyOf? a = some k) :
    Engine.leadsNonNull k = c.isSet a := by
  obtain ⟨v, rest, rfl, hv⟩ := leading_of_keyOf? hc hk
  unfold IndexColumn.isSet
  rw [hv]
  rfl

/-- Rows whose entries are in index order are in the order of the leading column. -/
theorem TreeIndex.compare_leading (hc : ix.spec.columns.head? = some c) (ha : ix.keyOf? a = some k)
    (hb : ix.keyOf? b = some l)
    (h : (if ix.isDescending then (compare l k).isLE else (compare k l).isLE) = true) :
    (c.compare a b).isLE := by
  obtain ⟨v, k', rfl, hv⟩ := leading_of_keyOf? hc ha
  obtain ⟨w, l', rfl, hw⟩ := leading_of_keyOf? hc hb
  have hdirection : ix.isDescending = c.descending := by
    unfold isDescending
    rw [hc]
    rfl
  rw [hdirection] at h
  unfold IndexColumn.compare
  rw [hv, hw]
  dsimp only [Option.getD_some]
  split at h
  · rename_i hdown
    rw [if_pos hdown, ← Std.OrientedOrd.eq_swap]
    rw [List.compare_cons_cons, Ordering.isLE_then_iff_and] at h
    exact h.1
  · rename_i hup
    rw [if_neg hup]
    rw [List.compare_cons_cons, Ordering.isLE_then_iff_and] at h
    exact h.1

end Leading

theorem IndexColumn.compare_self (c : IndexColumn) (r : Row) : (c.compare r r).isLE := by
  unfold IndexColumn.compare
  rw [Std.ReflOrd.compare_self]
  split <;> rfl

namespace Engine
variable {table : Nat} {name : String} {history : List Event} {e : Engine} {ix : TreeIndex}
  {c : IndexColumn}

/-! ## Rows and entries -/

/-- The row is stored under the key of the entry and has its values. -/
def IsRowOf (e : Engine) (ix : TreeIndex) (entry : IndexKey × RowKey) (r : Row) : Prop :=
  e.row? entry.2 = some r ∧ ix.keyOf? r = some entry.1

/-- The index yields the rows of its entries, leaving out none. -/
def Yields (e : Engine) (ix : TreeIndex) : Prop :=
  List.Forall₂ (e.IsRowOf ix) ix.ordered (e.accessRows (.tree ix))

theorem Reached.yields (h : Reached table name history e) (hl : .assigned lastKey ∉ history)
    (hix : ix ∈ e.indexes) : e.Yields ix := by
  have htracks := (h.agrees hl).sound.tracks ix hix
  refine forall₂_filterMap fun entry hentry => ?_
  obtain ⟨r, hr, hk⟩ := htracks.entry entry (TreeIndex.mem_ordered hentry)
  exact ⟨r, hr, hr, hk⟩

theorem perm_ordered (ix : TreeIndex) : ix.ordered.Perm ix.map.toList := by
  unfold TreeIndex.ordered
  split
  · exact List.reverse_perm _
  · exact .refl _

/-- A whole index has the keys of the stored rows, each once. -/
theorem Reached.perm_keys (h : Reached table name history e) (hl : .assigned lastKey ∉ history)
    (hix : ix ∈ e.indexes) (hw : Whole ix.spec.id history) :
    (ix.map.toList.map (·.2)).Perm e.rows.keys := by
  obtain ⟨hs, hcovered⟩ := h.agrees hl
  have htracks := hs.tracks ix hix
  refine (List.perm_ext_iff_of_nodup htracks.once hs.sorted.nodup_keys).2 fun key => ?_
  unfold OrderedMap.keys
  rw [List.mem_map, List.mem_map]
  constructor
  · rintro ⟨entry, hentry, rfl⟩
    obtain ⟨r, hr, -⟩ := htracks.entry entry hentry
    exact ⟨_, (OrderedMap.mem_entries hs.sorted).2 hr, rfl⟩
  · rintro ⟨⟨key, r⟩, hr, rfl⟩
    exact hcovered ix hix key r ((OrderedMap.mem_entries hs.sorted).1 hr) (hw.covers key)

theorem Reached.perm_rowList (h : Reached table name history e) (hl : .assigned lastKey ∉ history)
    (hix : ix ∈ e.indexes) (hw : Whole ix.spec.id history) :
    (e.accessRows (.tree ix)).Perm e.rowList := by
  have hkeys : (ix.ordered.map (·.2)).Perm e.rows.keys :=
    ((perm_ordered ix).map _).trans (h.perm_keys hl hix hw)
  have hrows := hkeys.filterMap e.rows.find?
  rwa [List.filterMap_map, (h.agrees hl).sound.sorted.filterMap_keys] at hrows

theorem Reached.pairwise_rows (h : Reached table name history e) (hl : .assigned lastKey ∉ history)
    (hix : ix ∈ e.indexes) (hc : ix.spec.columns.head? = some c) :
    (e.accessRows (.tree ix)).Pairwise fun a b => (c.compare a b).isLE := by
  have htracks := (h.agrees hl).sound.tracks ix hix
  refine List.pairwise_filterMap.2 ((TreeIndex.pairwise_ordered htracks.wellFormed).imp_of_mem ?_)
  intro p q hp hq hpq a ha b hb
  exact TreeIndex.compare_leading hc (htracks.keyOf?_of_find? (TreeIndex.mem_ordered hp) ha)
    (htracks.keyOf?_of_find? (TreeIndex.mem_ordered hq) hb) hpq

/-- The rows on the way from the first to the last, or back. -/
def towards (e : Engine) (first : Bool) (ix : TreeIndex) : List Row :=
  if first then e.accessRows (.tree ix) else (e.accessRows (.tree ix)).reverse

theorem mem_towards {first : Bool} {r : Row} :
    r ∈ e.towards first ix ↔ r ∈ e.accessRows (.tree ix) := by
  unfold towards
  split
  · exact Iff.rfl
  · exact List.mem_reverse

theorem pairwise_towards {cmp : Row → Row → Ordering}
    (h : (e.accessRows (.tree ix)).Pairwise fun a b => (cmp a b).isLE) (first : Bool) :
    (e.towards first ix).Pairwise fun a b => (if first then cmp a b else cmp b a).isLE := by
  unfold towards
  cases first with
  | false => exact List.pairwise_reverse.2 h
  | true => exact h

theorem Yields.extreme?_eq (h : e.Yields ix) (hc : ix.spec.columns.head? = some c) (first : Bool) :
    e.extreme? first (.tree ix) = .ok ((e.towards first ix).find? c.isSet) := by
  have hrows : List.Forall₂ (e.IsRowOf ix) (if first then ix.ordered else ix.ordered.reverse)
      (e.towards first ix) := by
    unfold towards
    split
    · exact h
    · exact List.forall₂_reverse_iff.2 h
  exact congrArg Except.ok (find?_of_forall₂ hrows
    (fun entry r hr => TreeIndex.isSet_eq hc hr.2) fun entry r hr => hr.1)

/-! ## The result -/

/-- An index that was whole when it was attached yields all stored rows, each once, in the direction of its
leading column.  Its first or last row is the first or last of them with a value other than NULL in that
column, and no stored row with one comes before or after it.  There is none just if all have NULL there. -/
theorem index_reads_are_complete (h : Reached table name history e)
    (hl : .assigned lastKey ∉ history) (hix : ix ∈ e.indexes) (hw : Whole ix.spec.id history) :
    ∃ c, ix.spec.columns.head? = some c ∧
      (e.accessRows (.tree ix)).Perm e.rowList ∧
      (e.accessRows (.tree ix)).Pairwise (fun a b => (c.compare a b).isLE) ∧
      ∀ first, ∃ found, e.extreme? first (.tree ix) = .ok found ∧
        found = (e.towards first ix).find? c.isSet ∧
        (∀ r, found = some r → r ∈ e.rowList ∧ c.isSet r = true ∧
          ∀ r' ∈ e.rowList, c.isSet r' = true →
            (if first then c.compare r r' else c.compare r' r).isLE) ∧
        (found = none ↔ ∀ r ∈ e.rowList, c.isSet r = false) := by
  obtain ⟨c, hc⟩ : ∃ c, ix.spec.columns.head? = some c := by
    have hcolumns := h.columns ix.spec (List.mem_map_of_mem hix)
    exact ⟨_, List.head?_eq_some_head hcolumns⟩
  have hyields := h.yields hl hix
  have hperm := h.perm_rowList hl hix hw
  have hpairs := h.pairwise_rows hl hix hc
  refine ⟨c, hc, hperm, hpairs, fun first => ⟨_, hyields.extreme?_eq hc first, rfl, ?_, ?_⟩⟩
  · intro r hr
    have hmem := mem_towards.1 (List.mem_of_find?_eq_some hr)
    refine ⟨hperm.mem_iff.1 hmem, List.find?_some hr, fun r' hr' hset => ?_⟩
    have hself (a : Row) : (if first then c.compare a a else c.compare a a).isLE := by
      rw [ite_self]
      exact c.compare_self a
    have hrel := rel_of_find? (pairwise_towards hpairs first) hself hr
      (mem_towards.2 (hperm.mem_iff.2 hr')) hset
    exact hrel
  · rw [List.find?_eq_none]
    simp only [mem_towards, hperm.mem_iff, Bool.not_eq_true]

/-- The first row of an index with the greatest value first, and the last one before those with NULL. -/
theorem extremes_beside_null :
    let e : Engine :=
      { table := 7
        name := "T"
        rows := ⟨[(0, ⟨some 0, [some (.int 1)]⟩), (1, ⟨some 1, [some .null]⟩),
          (2, ⟨some 2, [some (.int 3)]⟩)]⟩
        indexes := [⟨⟨1, "BY_AGE", [⟨0, true⟩], .plain, none⟩, "T",
          ⟨⟨[([.null], [1]), ([.int 1], [0]), ([.int 3], [2])]⟩⟩⟩]
        nextKey := 3
        modification := 3 }
    ∃ history, Reached 7 "T" history e ∧ ∃ ix ∈ e.indexes, Whole ix.spec.id history ∧
      e.extreme? true (.tree ix) = .ok (some ⟨some 2, [some (.int 3)]⟩) ∧
      e.extreme? false (.tree ix) = .ok (some ⟨some 0, [some (.int 1)]⟩) := by
  intro e
  have h : Reached 7 "T" [.stored 2, .assigned 2, .stored 1, .assigned 1, .stored 0, .assigned 0,
      .attached 1 true] e :=
    .done (.addRow ⟨none, [some (.int 3)]⟩) (.done (.addRow ⟨none, [some .null]⟩)
      (.done (.addRow ⟨none, [some (.int 1)]⟩)
        (.done (.addIndex ⟨1, "BY_AGE", [⟨0, true⟩], .plain, none⟩ false) .start rfl) rfl) rfl) rfl
  refine ⟨_, h, _, List.mem_cons_self, rfl, ?_⟩
  obtain ⟨c, hc, -, -, hextreme⟩ := index_reads_are_complete h (by decide) List.mem_cons_self rfl
  cases hc
  obtain ⟨found, hfound, rfl, -⟩ := hextreme true
  obtain ⟨found, hfound', rfl, -⟩ := hextreme false
  exact ⟨hfound, hfound'⟩

end Engine
end RowStore
