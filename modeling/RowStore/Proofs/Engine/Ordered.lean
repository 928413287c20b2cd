import RowStore.Engine.Access
import RowStore.Proofs.Engine.History

/-!
# The order in which an index yields rows

* `SortOrder.compare` : the order of two rows, the first column in which they differ deciding;
* `SortOrder.led` : the columns of a sort order, all in one direction;
* `compare_led_of_isLE` : rows are in the order of their values in an index, if all columns ascend;
* `index_yields_in_leading_direction` : an index yields its rows in the direction of its leading column,
  as far as that goes;
* `not_index_yields_every_served_order` : an index with columns of both directions does not yield the
  order that it is said to serve.
-/

namespace RowStore

/-- The order of two rows by one column, in its direction. -/
protected def IndexColumn.compare (c : IndexColumn) (a b : Row) : Ordering :=
  let order := Ord.compare ((a.value? c.place).getD .null) ((b.value? c.place).getD .null)
  if c.descending then order.swap else order

namespace SortOrder

/-- The order of two rows: by the first column in which they differ. -/
protected def compare : SortOrder → Row → Row → Ordering
  | [], _, _ => .eq
  | c :: rest, a, b => (c.compare a b).then (SortOrder.compare rest a b)

/-- The columns of a sort order, all descending or all ascending. -/
def led (sort : SortOrder) (descending : Bool) : SortOrder := sort.map fun c => ⟨c.place, descending⟩

section Led
variable {sort columns : List IndexColumn} {a b : Row} {k l : IndexKey}

theorem led_of_forall {descending : Bool} (h : ∀ c ∈ sort, c.descending = descending) :
    led sort descending = sort := by
  have hsame : ∀ c ∈ sort, (⟨c.place, descending⟩ : IndexColumn) = c := by
    intro c hc
    rw [← h c hc]
  exact (List.map_congr_left hsame).trans (List.map_id sort)

theorem compare_led_swap (sort : SortOrder) (a b : Row) :
    (led sort true).compare a b = (led sort false).compare b a := by
  induction sort with
  | nil => rfl
  | cons c rest ih =>
    have hc : IndexColumn.compare ⟨c.place, true⟩ a b = IndexColumn.compare ⟨c.place, false⟩ b a :=
      Std.OrientedOrd.eq_swap.symm
    change (IndexColumn.compare ⟨c.place, true⟩ a b).then ((led rest true).compare a b) = _
    rw [hc, ih]
    rfl

theorem mapM_cons_eq_some {c : IndexColumn} {r : Row}
    (h : (c :: columns).mapM (fun c => r.value? c.place) = some k) :
    ∃ v k', r.value? c.place = some v ∧ columns.mapM (fun c => r.value? c.place) = some k' ∧
      k = v :: k' := by
  rw [List.mapM_cons] at h
  obtain ⟨v, hv, h⟩ := Option.bind_eq_some_iff.1 h
  obtain ⟨k', hk', h⟩ := Option.bind_eq_some_iff.1 h
  exact ⟨v, k', hv, hk', (Option.some.inj h).symm⟩

/-- Rows whose values in an index are in order are in the order of the first columns, all ascending. -/
theorem compare_led_of_isLE (hs : sort <+: columns)
    (ha : columns.mapM (fun c => a.value? c.place) = some k)
    (hb : columns.mapM (fun c => b.value? c.place) = some l) (h : (compare k l).isLE) :
    ((led sort false).compare a b).isLE := by
  induction columns generalizing sort k l with
  | nil =>
    obtain rfl := List.prefix_nil.1 hs
    rfl
  | cons c columns ih =>
    cases sort with
    | nil => rfl
    | cons d rest =>
      obtain ⟨rfl, hrest⟩ := List.cons_prefix_cons.1 hs
      obtain ⟨v, k', hv, hk', rfl⟩ := mapM_cons_eq_some ha
      obtain ⟨w, l', hw, hl', rfl⟩ := mapM_cons_eq_some hb
      rw [List.compare_cons_cons, Ordering.isLE_then_iff_and] at h
      have hd : IndexColumn.compare ⟨d.place, false⟩ a b = compare v w := by
        unfold IndexColumn.compare
        rw [hv, hw]
        rfl
      change ((IndexColumn.compare ⟨d.place, false⟩ a b).then ((led rest false).compare a b)).isLE
      rw [hd, Ordering.isLE_then_iff_and]
      exact ⟨h.1, h.2.imp_right (ih hrest hk' hl')⟩

end Led

end SortOrder

/-- The entries of an index are in the order of their values, or in the opposite order. -/
theorem TreeIndex.pairwise_ordered {ix : TreeIndex} (h : ix.map.WellFormed) :
    ix.ordered.Pairwise fun p q =>
      if ix.isDescending then (compare q.1 p.1).isLE else (compare p.1 q.1).isLE := by
  unfold ordered
  split
  · exact List.pairwise_reverse.2 h.pairwise_toList
  · exact h.pairwise_toList

theorem TreeIndex.mem_ordered {ix : TreeIndex} {p : IndexKey × RowKey} (h : p ∈ ix.ordered) :
    p ∈ ix.map.toList := by
  unfold ordered at h
  split at h
  · exact List.mem_reverse.1 h
  · exact h

namespace Engine

section Order
variable {table : Nat} {name : String} {history : List Event} {e : Engine} {ix : TreeIndex}
  {sort : SortOrder}

/-- An index yields its rows in every order that it is said to serve, except that all columns are in the
direction of the leading one.  That is the order asked for if its columns agree in direction. -/
theorem index_yields_in_leading_direction (h : Reached table name history e)
    (hl : .assigned lastKey ∉ history) (hix : ix ∈ e.indexes)
    (served : sort.isServedBy ix.spec.columns = true) :
    ((e.accessRows (.tree ix)).Pairwise fun a b => ((sort.led ix.isDescending).compare a b).isLE) ∧
    ((∀ c ∈ sort, c.descending = ix.isDescending) →
      (e.accessRows (.tree ix)).Pairwise fun a b => (sort.compare a b).isLE) := by
  have htracks := (h.agrees hl).sound.tracks ix hix
  have hprefix : sort <+: ix.spec.columns := by
    rw [SortOrder.isServedBy, Bool.and_eq_true] at served
    exact List.isPrefixOf_iff_prefix.1 served.2
  -- the row of an entry has the values of the entry
  have hvalues : ∀ p ∈ ix.ordered, ∀ r, e.row? p.2 = some r → ix.keyOf? r = some p.1 := by
    intro p hp r hr
    obtain ⟨r', hr', hk⟩ := htracks.entry p (TreeIndex.mem_ordered hp)
    obtain rfl : r' = r := Option.some.inj (hr'.symm.trans hr)
    exact hk
  have hyields : (e.accessRows (.tree ix)).Pairwise fun a b =>
      ((sort.led ix.isDescending).compare a b).isLE := by
    refine List.pairwise_filterMap.2 ((TreeIndex.pairwise_ordered htracks.wellFormed).imp_of_mem ?_)
    intro p q hp hq hpq a ha b hb
    have hka := hvalues p hp a ha
    have hkb := hvalues q hq b hb
    cases hdir : ix.isDescending with
    | false =>
      rw [hdir] at hpq
      exact SortOrder.compare_led_of_isLE hprefix hka hkb hpq
    | true =>
      rw [hdir] at hpq
      rw [SortOrder.compare_led_swap]
      exact SortOrder.compare_led_of_isLE hprefix hkb hka hpq
  refine ⟨hyields, fun hagree => ?_⟩
  rw [SortOrder.led_of_forall hagree] at hyields
  exact hyields

end Order

/-- Two rows that agree in the first column, in an index that is to have the greatest value of the second
one first. -/
def mixed : Engine :=
  { table := 7
    name := "T"
    rows := ⟨[(0, ⟨some 0, [some (.int 1), some (.int 1)]⟩), (1, ⟨some 1, [some (.int 1), some (.int 2)]⟩)]⟩
    indexes := [⟨⟨1, "BY_BOTH", [⟨0, false⟩, ⟨1, true⟩], .plain, none⟩, "T",
      ⟨⟨[([.int 1, .int 1], [0]), ([.int 1, .int 2], [1])]⟩⟩⟩]
    nextKey := 2
    modification := 2 }

theorem reached_mixed :
    Reached 7 "T" [.stored 1, .assigned 1, .stored 0, .assigned 0, .attached 1 true] mixed :=
  .done (.addRow ⟨none, [some (.int 1), some (.int 2)]⟩)
    (.done (.addRow ⟨none, [some (.int 1), some (.int 1)]⟩)
      (.done (.addIndex ⟨1, "BY_BOTH", [⟨0, false⟩, ⟨1, true⟩], .plain, none⟩ true) .start rfl) rfl) rfl

/-- The order by the first column alone is delivered. -/
theorem mixed_index_yields_first_column :
    ∃ ix ∈ mixed.indexes, SortOrder.isServedBy [⟨0, false⟩] ix.spec.columns = true ∧
      (mixed.accessRows (.tree ix)).Pairwise fun a b =>
        (SortOrder.compare [⟨0, false⟩] a b).isLE := by
  refine ⟨_, List.mem_cons_self, rfl, ?_⟩
  exact (index_yields_in_leading_direction reached_mixed (by decide) List.mem_cons_self rfl).2
    fun c hc => by rw [List.mem_singleton.1 hc]; rfl

/-- An index with columns of both directions is said to serve the order of its columns, but yields rows
in another. -/
theorem not_index_yields_every_served_order :
    ¬ ∀ (table : Nat) (name : String) (history : List Event) (e : Engine) (ix : TreeIndex)
      (sort : SortOrder), Reached table name history e → .assigned lastKey ∉ history →
      ix ∈ e.indexes → sort.isServedBy ix.spec.columns = true →
      (e.accessRows (.tree ix)).Pairwise fun a b => (sort.compare a b).isLE := by
  intro h
  have hyields := h 7 "T" _ mixed _ [⟨0, false⟩, ⟨1, true⟩] reached_mixed (by decide)
    List.mem_cons_self rfl
  revert hyields
  decide +kernel

end Engine
end RowStore
