import Mathlib.Data.Finset.Card
import RowStore.Proofs.Engine.Ordered
import RowStore.Proofs.MultiMap.Bag

/-!
# The measured share of distinct values

* `Grouped` : equal members of a list stand next to each other, as they do in sorted lists;
* `card_le_runs`, `runs_eq_card_iff` : a list has as many runs as distinct members just if it is grouped;
* `Engine.distinctAt`, `Engine.combinations` : how many values a column has among the stored rows, and how
  many combinations of values several columns have;
* `selectivity_is_share_of_runs` : what is measured of a column is the share of the runs of its values in
  index order, at least the distinct values and at most the combinations up to that column;
* `not_selectivity_is_share_of_distinct` : from the second column on it can be more than the distinct
  values.
-/

namespace RowStore

/-! ## Runs -/

section Runs
variable {α β : Type}

/-- Equal members stand next to each other. -/
def Grouped : List α → Prop
  | [] => True
  | v :: vs => (v ∈ vs → vs.head? = some v) ∧ Grouped vs

/-- Where members are in order, equal ones stand next to each other. -/
theorem grouped_of_pairwise [Ord α] [Std.TransOrd α] [Std.LawfulEqOrd α] {vs : List α}
    (h : vs.Pairwise fun a b => (compare a b).isLE) : Grouped vs := by
  induction h with
  | nil => trivial
  | cons hv hvs ih =>
    rename_i v vs
    refine ⟨fun hm => ?_, ih⟩
    cases vs with
    | nil => cases hm
    | cons w rest =>
      -- The next member is neither before nor after `v`, which comes again.
      have hwv : (compare w v).isLE := by
        rcases List.mem_cons.1 hm with rfl | hm
        · rw [Std.ReflOrd.compare_self]
          rfl
        · exact (List.pairwise_cons.1 hvs).1 v hm
      have heq : compare w v = .eq :=
        Std.OrientedCmp.isLE_antisymm hwv (hv w List.mem_cons_self)
      rw [List.head?_cons, Std.LawfulEqOrd.eq_of_compare heq]

theorem grouped_cons_cons {a b : α} {vs : List α} :
    Grouped (a :: b :: vs) ↔ (a = b ∨ a ∉ b :: vs) ∧ Grouped (b :: vs) := by
  show ((a ∈ b :: vs → some b = some a) ∧ _) ↔ _
  refine and_congr_left fun _ => ?_
  constructor
  · intro h
    by_cases hm : a ∈ b :: vs
    · exact .inl (Option.some.inj (h hm)).symm
    · exact .inr hm
  · rintro (rfl | hno) hm
    · rfl
    · exact absurd hm hno

namespace Engine

theorem card_le_runs (vs : List (Option Value)) : vs.toFinset.card ≤ runs vs := by
  fun_induction runs vs with
  | case1 => simp
  | case2 a => simp
  | case3 a b rest ih =>
    rw [List.toFinset_cons]
    split
    · rename_i heq
      rw [Finset.insert_eq_of_mem (by simp [heq])]
      omega
    · have := Finset.card_insert_le a (b :: rest).toFinset
      omega

/-- A list has a run for each of its distinct members just if equal ones stand next to each other. -/
theorem runs_eq_card_iff (vs : List (Option Value)) : runs vs = vs.toFinset.card ↔ Grouped vs := by
  fun_induction runs vs with
  | case1 => simp [Grouped]
  | case2 a => simp [Grouped]
  | case3 a b rest ih =>
    have hle := card_le_runs (b :: rest)
    rw [grouped_cons_cons, List.toFinset_cons, ← ih]
    split
    · rename_i heq
      rw [Finset.insert_eq_of_mem (by simp [heq])]
      simp [heq]
    · rename_i hne
      by_cases hm : a ∈ b :: rest
      · rw [Finset.insert_eq_of_mem (List.mem_toFinset.2 hm)]
        simp only [hne, hm, not_true, or_false, false_and, iff_false]
        omega
      · rw [Finset.card_insert_of_notMem (mt List.mem_toFinset.1 hm)]
        simp only [hm, not_false_iff, or_true, true_and]
        omega

/-- Members that are told apart by something grouped have at most as many runs as that has members. -/
theorem runs_map_le_card [DecidableEq β] {f : α → Option Value} {g : α → β}
    (hfg : ∀ a b, g a = g b → f a = f b) : ∀ l : List α, Grouped (l.map g) →
      runs (l.map f) ≤ (l.map g).toFinset.card
  | [], _ => Nat.le_refl _
  | [a], _ => by simp [runs]
  | a :: b :: rest, h => by
    have ih := runs_map_le_card hfg (b :: rest)
    simp only [List.map_cons, grouped_cons_cons] at h ih ⊢
    have hrest := ih h.2
    rw [runs, List.toFinset_cons]
    split
    · have := Finset.card_le_card (Finset.subset_insert (g a) (g b :: rest.map g).toFinset)
      omega
    · rename_i hne
      have hnew : g a ∉ g b :: rest.map g := h.1.resolve_left fun heq => hne (hfg a b heq)
      rw [Finset.card_insert_of_notMem (mt List.mem_toFinset.1 hnew)]
      omega

end Engine

theorem card_toFinset_map [DecidableEq α] [DecidableEq β] {f : α → β}
    (hf : Function.Injective f) (l : List α) : (l.map f).toFinset.card = l.toFinset.card := by
  have himage : (l.map f).toFinset = l.toFinset.image f := by
    ext b
    simp
  rw [himage, Finset.card_image_of_injective _ hf]

end Runs

/-! ## Values in an index -/

namespace TreeIndex
variable {ix : TreeIndex} {r : Row} {k : IndexKey}

/-- The values at a place of the index, in the order of its entries. -/
def valuesAt (ix : TreeIndex) (i : Nat) : List (Option Value) :=
  ix.map.toList.map fun entry => entry.1[i]?

theorem mapM_eq_some {columns : List IndexColumn}
    (h : columns.mapM (fun c => r.value? c.place) = some k) :
    columns.map (fun c => r.value? c.place) = k.map some := by
  induction columns generalizing k with
  | nil =>
    cases h
    rfl
  | cons c columns ih =>
    obtain ⟨v, k', hv, hk', rfl⟩ := SortOrder.mapM_cons_eq_some h
    rw [List.map_cons, List.map_cons, hv, ih hk']

/-- The indexed values of a row are the values of its columns, in index order. -/
theorem values_of_keyOf? (h : ix.keyOf? r = some k) (columns : Nat) :
    (ix.spec.columns.take columns).map (fun c => r.value? c.place) = (k.take columns).map some := by
  rw [List.map_take, mapM_eq_some h, List.map_take]

theorem value_of_keyOf? (h : ix.keyOf? r = some k) {i : Nat} {c : IndexColumn}
    (hc : ix.spec.columns[i]? = some c) : k[i]? = r.value? c.place := by
  have hvalue := congrArg (·[i]?) (mapM_eq_some h)
  simp only [List.getElem?_map, hc, Option.map_some] at hvalue
  cases hk : k[i]? with
  | none =>
    rw [hk] at hvalue
    cases hvalue
  | some v =>
    rw [hk] at hvalue
    exact (Option.some.inj hvalue).symm

/-- The first values of keys are in the order of the keys. -/
theorem isLE_take {k l : IndexKey} (h : (compare k l).isLE) (n : Nat) :
    (compare (k.take n) (l.take n)).isLE := by
  induction n generalizing k l with
  | zero => rfl
  | succ n ih =>
    cases k with
    | nil => cases l <;> rfl
    | cons v k =>
      cases l with
      | nil => cases h
      | cons w l =>
        rw [List.compare_cons_cons, Ordering.isLE_then_iff_and] at h
        rw [List.take_succ_cons, List.take_succ_cons, List.compare_cons_cons,
          Ordering.isLE_then_iff_and]
        exact ⟨h.1, h.2.imp_right ih⟩

/-- The first values of the entries are grouped. -/
theorem grouped_take (h : ix.map.WellFormed) (n : Nat) :
    Grouped (ix.map.toList.map fun entry => entry.1.take n) :=
  grouped_of_pairwise (List.pairwise_map.2 (h.pairwise_toList.imp fun hle => isLE_take hle n))

end TreeIndex

namespace Engine

/-- The number of distinct values of a column among the stored rows. -/
def distinctAt (e : Engine) (c : IndexColumn) : Nat :=
  (e.rowList.map fun r => r.value? c.place).toFinset.card

/-- The number of distinct combinations of values of several columns among the stored rows. -/
def combinations (e : Engine) (columns : List IndexColumn) : Nat :=
  (e.rowList.map fun r => columns.map fun c => r.value? c.place).toFinset.card

/-- A number in percent of the rows, truncated, but at least 1 and at most 100. -/
def share (e : Engine) (count : Nat) : Nat := max 1 (min (count * 100 / e.rowCount) 100)

/-- The index has an entry for each stored row, and only such. -/
structure Mirrors (e : Engine) (ix : TreeIndex) : Prop where
  wellFormed : ix.map.WellFormed
  stored : ∀ p ∈ ix.map.toList, ∃ r ∈ e.rowList, ix.keyOf? r = some p.1
  entered : ∀ r ∈ e.rowList, ∃ p ∈ ix.map.toList, ix.keyOf? r = some p.1

section Shares
variable {e : Engine} {ix : TreeIndex} {c : IndexColumn} {i : Nat}

/-- An index that was whole when it was attached mirrors the rows. -/
theorem Reached.mirrors {table : Nat} {name : String} {history : List Event}
    (h : Reached table name history e) (hl : .assigned lastKey ∉ history) (hix : ix ∈ e.indexes)
    (hw : Whole ix.spec.id history) : e.Mirrors ix := by
  obtain ⟨hs, hcovered⟩ := h.agrees hl
  have htracks := hs.tracks ix hix
  refine ⟨htracks.wellFormed, fun p hp => ?_, fun r hr => ?_⟩
  · obtain ⟨r, hr, hk⟩ := htracks.entry p hp
    exact ⟨r, hs.mem_rowList.2 ⟨p.2, hr⟩, hk⟩
  · obtain ⟨key, hr⟩ := hs.mem_rowList.1 hr
    obtain ⟨k, hk, hp⟩ := htracks.mem_of_holds hr (hcovered ix hix key r hr (hw.covers key))
    exact ⟨(k, key), hp, hk⟩

/-- What can be read off the indexed values takes the same values on rows and on entries. -/
theorem Mirrors.toFinset_eq {γ : Type} [DecidableEq γ] (h : e.Mirrors ix) {f : Row → γ}
    {g : IndexKey → γ} (hfg : ∀ r k, ix.keyOf? r = some k → f r = g k) :
    (e.rowList.map f).toFinset = (ix.map.toList.map fun entry => g entry.1).toFinset := by
  ext x
  rw [List.mem_toFinset, List.mem_toFinset, List.mem_map, List.mem_map]
  constructor
  · rintro ⟨r, hr, rfl⟩
    obtain ⟨p, hp, hk⟩ := h.entered r hr
    exact ⟨p, hp, (hfg r p.1 hk).symm⟩
  · rintro ⟨p, hp, rfl⟩
    obtain ⟨r, hr, hk⟩ := h.stored p hp
    exact ⟨r, hr, hfg r p.1 hk⟩

theorem Mirrors.distinctAt_eq (h : e.Mirrors ix) (hc : ix.spec.columns[i]? = some c) :
    e.distinctAt c = (ix.valuesAt i).toFinset.card := by
  unfold distinctAt TreeIndex.valuesAt
  rw [h.toFinset_eq fun r k hk => (TreeIndex.value_of_keyOf? hk hc).symm]

theorem Mirrors.combinations_eq (h : e.Mirrors ix) (n : Nat) :
    e.combinations (ix.spec.columns.take n) =
      (ix.map.toList.map fun entry => entry.1.take n).toFinset.card := by
  have hsome : Function.Injective (List.map (some : Value → Option Value)) :=
    List.map_injective_iff.2 (Option.some_injective Value)
  unfold combinations
  rw [h.toFinset_eq fun r k hk => TreeIndex.values_of_keyOf? hk n, ← card_toFinset_map hsome,
    List.map_map]
  rfl

theorem combinations_singleton (e : Engine) (c : IndexColumn) :
    e.combinations [c] = e.distinctAt c := by
  have hone : Function.Injective fun v : Option Value => [v] := List.singleton_injective
  unfold combinations distinctAt
  rw [← card_toFinset_map hone, List.map_map]
  rfl

/-- The values at a place have at least a run for each of them, and at most one for each combination up to
the place. -/
theorem Mirrors.runs_bounds (h : e.Mirrors ix) (hc : ix.spec.columns[i]? = some c) :
    e.distinctAt c ≤ runs (ix.valuesAt i) ∧
      runs (ix.valuesAt i) ≤ e.combinations (ix.spec.columns.take (i + 1)) := by
  constructor
  · rw [h.distinctAt_eq hc]
    exact card_le_runs _
  · rw [h.combinations_eq (i + 1)]
    refine runs_map_le_card (fun p q hpq => ?_) _ (TreeIndex.grouped_take h.wellFormed (i + 1))
    have hvalue := congrArg (·[i]?) hpq
    simpa [List.getElem?_take] using hvalue

/-- The leading values of an index have just a run for each of them. -/
theorem Mirrors.runs_leading (h : e.Mirrors ix) (hc : ix.spec.columns[0]? = some c) :
    runs (ix.valuesAt 0) = e.distinctAt c := by
  obtain ⟨hlow, hhigh⟩ := h.runs_bounds hc
  have hfirst : ix.spec.columns.take 1 = [c] := by
    cases hcs : ix.spec.columns with
    | nil =>
      rw [hcs] at hc
      cases hc
    | cons d rest =>
      rw [hcs] at hc
      cases hc
      rfl
  rw [hfirst, combinations_singleton] at hhigh
  exact Nat.le_antisymm hhigh hlow

/-- In an index on one column, the keys are the values of that column. -/
theorem Mirrors.keyCount_single (h : e.Mirrors ix) (hc : ix.spec.columns = [c]) :
    ix.map.keyCount = e.distinctAt c := by
  have hall := h.combinations_eq 1
  have hkeys : (ix.map.toList.map fun entry => entry.1.take 1) = ix.map.toList.map (·.1) := by
    refine List.map_congr_left fun p hp => ?_
    obtain ⟨r, -, hk⟩ := h.stored p hp
    have hlength := congrArg List.length (TreeIndex.mapM_eq_some hk)
    rw [hc, List.length_map, List.length_map] at hlength
    exact List.take_of_length_le (Nat.le_of_eq hlength.symm)
  rw [hkeys, ← h.wellFormed.keyCount_eq_card, hc] at hall
  rw [← hall]
  exact combinations_singleton e c

/-- What is measured of a column is the share of its runs. -/
theorem Mirrors.selectivity_eq (h : e.Mirrors ix) (hrows : e.rowCount ≠ 0)
    (hc : ix.spec.columns[i]? = some c) :
    e.selectivity ix i = e.share (runs (ix.valuesAt i)) := by
  unfold selectivity share
  rw [if_neg hrows]
  dsimp only
  split
  · rename_i hone
    obtain ⟨d, hd⟩ := List.length_eq_one_iff.1 hone
    have hi : i = 0 := by
      have := (List.getElem?_eq_some_iff.1 hc).1
      omega
    subst hi
    have hcd : c = d := by
      rw [hd] at hc
      exact (Option.some.inj hc).symm
    rw [h.keyCount_single hd, h.runs_leading hc, hcd]
  · rfl

end Shares

/-! ## The result -/

/-- What is measured of a column of an index that was whole when it was attached is the share of the runs of
its values in index order.  There are at least as many runs as distinct values among the stored rows, and
just as many if equal ones stand next to each other, as they do at the first place; there are at most as
many as combinations with the columns before. -/
theorem selectivity_is_share_of_runs {table : Nat} {name : String} {history : List Event} {e : Engine}
    {ix : TreeIndex} {i : Nat} {c : IndexColumn} (h : Reached table name history e)
    (hl : .assigned lastKey ∉ history) (hix : ix ∈ e.indexes) (hw : Whole ix.spec.id history)
    (hrows : e.rowCount ≠ 0) (hc : ix.spec.columns[i]? = some c) :
    e.selectivity ix i = e.share (runs (ix.valuesAt i)) ∧
    e.distinctAt c ≤ runs (ix.valuesAt i) ∧
    runs (ix.valuesAt i) ≤ e.combinations (ix.spec.columns.take (i + 1)) ∧
    (runs (ix.valuesAt i) = e.distinctAt c ↔ Grouped (ix.valuesAt i)) ∧
    (i = 0 → e.selectivity ix i = e.share (e.distinctAt c)) := by
  have hm := h.mirrors hl hix hw
  have hmeasured := hm.selectivity_eq hrows hc
  obtain ⟨hlow, hhigh⟩ := hm.runs_bounds hc
  refine ⟨hmeasured, hlow, hhigh, ?_, ?_⟩
  · rw [hm.distinctAt_eq hc]
    exact runs_eq_card_iff _
  · rintro rfl
    rw [hmeasured, hm.runs_leading hc]

/-- Four rows, all combinations of two values in each of two columns, in an index on both. -/
def fourRows : Engine :=
  { table := 7
    name := "T"
    rows := ⟨[(0, ⟨some 0, [some (.int 1), some (.int 1)]⟩), (1, ⟨some 1, [some (.int 1), some (.int 2)]⟩),
      (2, ⟨some 2, [some (.int 2), some (.int 1)]⟩), (3, ⟨some 3, [some (.int 2), some (.int 2)]⟩)]⟩
    indexes := [⟨⟨1, "BY_BOTH", [⟨0, false⟩, ⟨1, false⟩], .plain, none⟩, "T",
      ⟨⟨[([.int 1, .int 1], [0]), ([.int 1, .int 2], [1]), ([.int 2, .int 1], [2]),
        ([.int 2, .int 2], [3])]⟩⟩⟩]
    nextKey := 4
    modification := 4 }

theorem reached_fourRows :
    Reached 7 "T" [.stored 3, .assigned 3, .stored 2, .assigned 2, .stored 1, .assigned 1, .stored 0,
      .assigned 0, .attached 1 true] fourRows :=
  .done (.addRow ⟨none, [some (.int 2), some (.int 2)]⟩)
    (.done (.addRow ⟨none, [some (.int 2), some (.int 1)]⟩)
      (.done (.addRow ⟨none, [some (.int 1), some (.int 2)]⟩)
        (.done (.addRow ⟨none, [some (.int 1), some (.int 1)]⟩)
          (.done (.addIndex ⟨1, "BY_BOTH", [⟨0, false⟩, ⟨1, false⟩], .plain, none⟩ true) .start rfl)
          rfl) rfl) rfl) rfl

/-- Half of the values in the first column are distinct. -/
theorem selectivity_of_first_column :
    ∃ ix ∈ fourRows.indexes, fourRows.rowCount ≠ 0 ∧ fourRows.selectivity ix 0 = 50 := by
  refine ⟨_, List.mem_cons_self, by decide, ?_⟩
  obtain ⟨-, -, -, -, hfirst⟩ := selectivity_is_share_of_runs (i := 0) reached_fourRows (by decide)
    List.mem_cons_self rfl (by decide) rfl
  rw [hfirst rfl]
  decide +kernel

/-- Half of the values in the second column are distinct too, but each of them comes twice in index order and
is counted twice. -/
theorem not_selectivity_is_share_of_distinct :
    ¬ ∀ (table : Nat) (name : String) (history : List Event) (e : Engine) (ix : TreeIndex) (i : Nat)
      (c : IndexColumn), Reached table name history e → .assigned lastKey ∉ history →
      ix ∈ e.indexes → Whole ix.spec.id history → e.rowCount ≠ 0 →
      ix.spec.columns[i]? = some c → e.selectivity ix i = e.share (e.distinctAt c) := by
  intro h
  have hsame := h 7 "T" _ fourRows _ 1 ⟨1, false⟩ reached_fourRows (by decide) List.mem_cons_self
    rfl (by decide) rfl
  revert hsame
  decide +kernel

end Engine
end RowStore
