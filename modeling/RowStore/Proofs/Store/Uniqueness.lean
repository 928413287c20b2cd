import RowStore.Proofs.Column
import RowStore.Proofs.Engine.Guarded
import RowStore.Proofs.Store.Lifetime
import RowStore.Proofs.Value.Comparison

/-!
# Rows that agree under the collation of a table

* `Value.eq_of_collate` : values that are equal under a collation are the same, or texts that differ in case;
* `Table.Agree` : two rows have values in a column, free of NULL, that the table compares as equal;
* `Table.Guarded` : unique indexes guard the values of the stored rows, which fit the columns;
* `Table.guarding` : that they do is kept up by changes of rows; `TableCall.Settled` : what a call has to
  observe for that; `Guarded.call` : then it is kept up by the call;
* `rows_disagree_on_unique_indexes` : rows under different keys do not agree on all columns of a unique index,
  unless they have texts in one that differ, in case only;
* `not_rows_disagree_under_collation` : which two rows may have where case is ignored.
-/

namespace RowStore
open RowStore.Action RowStore.Store

/-! ## Equal values -/

theorem Value.eq_of_collate {c : Collation} {v w : Value} (h : collate c v w = .eq) :
    v = w ∨ c = .ignoreCase ∧ ∃ a b, v = .text a ∧ w = .text b ∧ a ≠ b ∧
      Collation.ignoreCase.key a = Collation.ignoreCase.key b := by
  have hplain (hp : v.compare w = .eq) : v = w := Std.LawfulEqOrd.eq_of_compare hp
  cases v with
  | text a =>
    cases w with
    | text b =>
      by_cases hab : a = b
      · exact Or.inl (congrArg _ hab)
      · cases c with
        | binary => exact absurd (Std.LawfulEqOrd.eq_of_compare h) hab
        | ignoreCase => exact Or.inr ⟨rfl, a, b, rfl, rfl, hab, Std.LawfulEqOrd.eq_of_compare h⟩
    | _ => exact Or.inl (hplain h)
  | _ => exact Or.inl (hplain h)

/-- The two rows have the same values, free of NULL, in all columns of the index. -/
theorem TreeIndex.exists_key_of_same {ix : TreeIndex} {r r' : Row} (h : ∀ c ∈ ix.spec.columns,
    ∃ v, r.value? c.place = some v ∧ r'.value? c.place = some v ∧ v ≠ .null) :
    ∃ k, ix.keyOf? r = some k ∧ ix.keyOf? r' = some k ∧ k.any Value.isNull = false := by
  unfold keyOf?
  generalize ix.spec.columns = columns at h ⊢
  induction columns with
  | nil => exact ⟨[], rfl, rfl, rfl⟩
  | cons c rest ih =>
    obtain ⟨⟨v, hv, hv', hne⟩, hrest⟩ := List.forall_mem_cons.1 h
    obtain ⟨k, hk, hk', hnull⟩ := ih hrest
    have hcons {x : Row} (hx : x.value? c.place = some v)
        (hxs : (rest.mapM fun c => x.value? c.place) = some k) :
        ((c :: rest).mapM fun c => x.value? c.place) = some (v :: k) := by
      rw [List.mapM_cons, hx, hxs]
      rfl
    refine ⟨v :: k, hcons hv hk, hcons hv' hk', ?_⟩
    rw [List.any_cons, hnull, Bool.or_false]
    cases v with
    | null => exact absurd rfl hne
    | _ => rfl

namespace Table
variable {table table' : Table} {r r' : Row} {place : Nat}

/-- The rows have values in the column at a place, free of NULL, that the table compares as equal. -/
def Agree (table : Table) (place : Nat) (r r' : Row) : Prop := ∃ v w,
  r.value? place = some v ∧ r'.value? place = some w ∧ v ≠ .null ∧ w ≠ .null ∧ table.compare v w = .ok .eq

/-- The rows have texts in the column at a place that are the same but for case, which the table ignores. -/
def DifferInCase (table : Table) (place : Nat) (r r' : Row) : Prop := table.collation = .ignoreCase ∧
  ∃ a b, r.value? place = some (.text a) ∧ r'.value? place = some (.text b) ∧ a ≠ b ∧
    Collation.ignoreCase.key a = Collation.ignoreCase.key b

theorem takes_of_fits {columns : List Column} {v : Value} (h : r.Fits columns)
    (hv : r.value? place = some v) : ∃ c, columns[place]? = some c ∧ c.Takes v := by
  unfold Row.value? at hv
  obtain ⟨slot, hslot, rfl⟩ := Option.map_eq_some_iff.1 hv
  have hlt : place < columns.length := by
    rw [← h.width]
    exact (List.getElem?_eq_some_iff.1 hslot).1
  obtain ⟨w, hw, htakes⟩ := h.slots place _ (List.getElem?_eq_getElem hlt)
  cases hslot.symm.trans hw
  exact ⟨_, List.getElem?_eq_getElem hlt, htakes⟩

/-- Rows that fit the columns and agree in one have the same value there, or differ in case. -/
theorem Agree.same (h : table.Agree place r r') (hr : r.Fits table.columns.list)
    (hr' : r'.Fits table.columns.list) :
    (∃ v, r.value? place = some v ∧ r'.value? place = some v ∧ v ≠ .null) ∨
      table.DifferInCase place r r' := by
  obtain ⟨v, w, hv, hw, hvnull, hwnull, hcompare⟩ := h
  obtain ⟨c, hc, htakes⟩ := takes_of_fits hr hv
  obtain ⟨c', hc', htakes'⟩ := takes_of_fits hr' hw
  cases hc.symm.trans hc'
  have htype : v.dataType = w.dataType :=
    (htakes.resolve_left fun hn => hvnull hn.1).2.trans (htakes'.resolve_left fun hn => hwnull hn.1).2.symm
  rw [compare_of_type htype] at hcompare
  rcases Value.eq_of_collate (Except.ok.inj hcompare) with rfl | ⟨hcase, a, b, rfl, rfl, hab, hkey⟩
  · exact Or.inl ⟨v, hv, hw, hvnull⟩
  · exact Or.inr ⟨hcase, a, b, hv, hw, hab, hkey⟩

/-! ## Tables -/

/-- Unique indexes guard the values of the stored rows, which fit the columns. -/
structure Guarded (table : Table) : Prop where
  indexes : table.engine.Guarded
  fits : ∀ r ∈ table.engine.rowList, r.Fits table.columns.list

/-- Rows under different keys do not agree on all columns of a unique index, but for case. -/
theorem Guarded.disagree (h : table.Guarded) {ix : TreeIndex} {key key' : RowKey}
    (hix : ix ∈ table.engine.indexes) (unique : ix.spec.type.unique = true)
    (hr : table.engine.row? key = some r) (hr' : table.engine.row? key' = some r') (hne : key ≠ key') :
    ∃ c ∈ ix.spec.columns, ¬ table.Agree c.place r r' ∨ table.DifferInCase c.place r r' := by
  by_contra hall
  push Not at hall
  refine h.indexes.not_clash hix hr hr' hne ⟨unique, ?_⟩
  obtain ⟨k, hk, hk', hnull⟩ := TreeIndex.exists_key_of_same fun c hc =>
    ((hall c hc).1.same (h.fits r (Engine.mem_rowList_of_row? hr))
      (h.fits r' (Engine.mem_rowList_of_row? hr'))).resolve_right (hall c hc).2
  exact ⟨k, hk, hk', hnull⟩

/-- That unique indexes guard the values of the stored rows while these change. -/
def guarding (table : Table) : Upkeep where
  table := table
  holds e := e.Guarded ∧ ∀ r ∈ e.rowList, r.Fits table.columns.list
  numbers _ := True
  good r := r.Fits table.columns.list
  fine _ := True
  refused _ := trivial
  fits := meets_iff.2 fun _ hd =>
    ⟨fun _ _ h => ⟨trivial, fits_of_fitted h hd.2⟩, fun _ _ _ => ⟨trivial, trivial⟩⟩
  checks := table.safe_checks
  adds r hr := Stays.safe_of_any fun e he => by
    refine ⟨he.1.addRow r, fun x hx => ?_⟩
    rcases Engine.mem_rowList_addRow hx with ⟨key, rfl⟩ | hold
    · exact ⟨hr.width, hr.slots⟩
    · exact he.2 x hold
  removes r := Stays.safe_of_any fun e he =>
    ⟨he.1.removeRow r, fun x hx => he.2 x (Engine.mem_rowList_removeRow hx)⟩

/-! ### Changes of structure -/

theorem fits_of_kinds {cs cs' : ColumnSet} (h : cs'.kinds = cs.kinds) (hr : r.Fits cs.list) :
    r.Fits cs'.list where
  width := hr.width.trans (ColumnSet.width_of_kinds h).symm
  slots i c' hc' := by
    have hkind : (cs.list[i]?).map (fun c => (c.dataType, c.nullable)) = some (c'.dataType, c'.nullable) := by
      rw [← List.getElem?_map]
      change cs.kinds[i]? = _
      rw [← h]
      unfold ColumnSet.kinds
      rw [List.getElem?_map, hc']
      rfl
    obtain ⟨c, hc, hsame⟩ := Option.map_eq_some_iff.1 hkind
    obtain ⟨htype, hnullable⟩ := Prod.mk.inj hsame
    obtain ⟨v, hv, htakes⟩ := hr.slots i c hc
    refine ⟨v, hv, ?_⟩
    unfold Column.Takes at htakes ⊢
    rwa [htype, hnullable] at htakes

theorem Guarded.of_kinds (h : table.Guarded) {cs : ColumnSet} (hkinds : cs.kinds = table.columns.kinds) :
    { table with columns := cs }.Guarded :=
  ⟨h.indexes, fun r hr => fits_of_kinds hkinds (h.fits r hr)⟩

theorem Guarded.sheds (h : table.Guarded) (hs : table.Sheds table') : table'.Guarded := by
  obtain ⟨ixs, hsub, he⟩ := hs.engine
  constructor
  · intro ix hix
    rw [he] at hix ⊢
    exact h.indexes ix (hsub.subset hix)
  · intro r hr
    rw [he] at hr
    exact fits_of_kinds hs.kinds (h.fits r hr)

theorem Guarded.indexed (h : table.Guarded) {spec : IndexSpec} {fill : Bool}
    (hi : table.Indexed spec fill table') (hnew : spec.type.unique = true → table.engine.rowList = []) :
    table'.Guarded := by
  obtain ⟨-, e, hadd, rfl⟩ := hi
  have hguarded := h.indexes.addIndex hadd hnew
  obtain ⟨-, ix, -, rfl⟩ := Engine.addIndex_eq_ok hadd
  refine ⟨hguarded, fun r hr => ?_⟩
  dsimp only
  split
  · exact fits_of_kinds (ColumnSet.kinds_markPrimary _ _ _) (h.fits r hr)
  · exact h.fits r hr

end Table

/-! ## Calls -/

section Calls
variable {t : Nat} {c : TableCall} {s s₀ s₁ : Store}

/-- Columns are set, and unique indexes attached, while nothing is stored; and rows that an update is to
replace, and may have to put back after a concurrent change, fit the columns. -/
def TableCall.Settled (t : Nat) (s : Store) : TableCall → Prop
  | setColumns .. => (s.table t).engine.rowList = []
  | addIndex spec _ => spec.type.unique = true → (s.table t).engine.rowList = []
  | update _ _ pairs => (s.table t).contested.isSome = true → ∀ r ∈ pairs.map (·.1),
      (r.key.bind (s.table t).engine.row?).isSome = true → r.Fits (s.table t).columns.list
  | _ => True

theorem Table.Guarded.changed (h : (s.table t).Guarded) (hc : c.Settled t s)
    (hrows : c.changesRows = true) : ((final (c.run t) s).table t).Guarded := by
  have hfed : c.Fed (s.table t).guarding (s.table t).engine := by
    cases c with
    | update u canceled pairs =>
      intro r hr hcontested key stored hkey hrow
      exact hc hcontested r hr (by rw [hkey, Option.bind_some, hrow]; rfl)
    | _ => trivial
  have hend := (s.table t).guarding.at_call hrows ⟨rfl, ⟨h.indexes, h.fits⟩, trivial⟩ hfed
  rw [hend.table]
  exact ⟨hend.engine.1, hend.engine.2⟩

theorem Table.Guarded.call (h : (s.table t).Guarded) (hc : c.Settled t s) :
    ((final (c.run t) s).table t).Guarded := by
  cases hrows : c.changesRows with
  | true => exact h.changed hc hrows
  | false =>
    have hbecomes := TableCall.becomes (t := t) hrows s
    generalize (final (c.run t) s).table t = table' at hbecomes ⊢
    cases hbecomes with
    | same => exact h
    | columns hlist =>
      have hempty : (s.table t).engine.rowList = [] := hc
      refine ⟨h.indexes, fun r hr => ?_⟩
      dsimp only at hr
      rw [hempty] at hr
      cases hr
    | renamed hlist => exact h.of_kinds (ColumnSet.kinds_of_renamed hlist)
    | indexed hindexed => exact h.indexed hindexed hc
    | sheds hsheds => exact h.sheds hsheds

theorem guarded_of_created {spec : TableSpec} (h : createTable spec s₀ = .ok () s₁) :
    (s₁.table spec.id).Guarded := by
  obtain ⟨-, hempty, -⟩ := createTable_empty h
  constructor
  · intro ix hix
    rw [hempty] at hix
    cases hix
  · intro r hr
    rw [hempty] at hr
    cases hr

/-- In the life of a table whose columns and unique indexes were settled while it was empty, rows under
different keys do not agree on all columns of a unique index, unless they differ in case in one. -/
theorem rows_disagree_on_unique_indexes {spec : TableSpec} {ix : TreeIndex} {key key' : RowKey} {r r' : Row}
    (created : createTable spec s₀ = .ok () s₁) (h : Lifetime spec.id (TableCall.Settled spec.id) s₁ s)
    (attached : ix ∈ (s.table spec.id).engine.indexes) (unique : ix.spec.type.unique = true)
    (hr : (s.table spec.id).engine.row? key = some r) (hr' : (s.table spec.id).engine.row? key' = some r')
    (hne : key ≠ key') : ∃ c ∈ ix.spec.columns,
      ¬ (s.table spec.id).Agree c.place r r' ∨ (s.table spec.id).DifferInCase c.place r r' :=
  (h.keeps (guarded_of_created created) fun _ _ hc h => h.call hc).disagree attached unique hr hr' hne

end Calls

/-! ## Names in capitals and not -/

def names : TableSpec where
  id := 7
  name := "T"
  columns := [{ name := "NAME", dataType := .text }]

def nameOnce : IndexSpec := { id := 1, name := "ONCE", columns := [⟨0, false⟩], type := .distinct }

/-- A new table of names with that index, in a store whose tables compare texts under a collation. -/
def namesUnder (c : Collation) : Store := final (createTable names) { options := { collation := c } }

theorem created_namesUnder (c : Collation) :
    createTable names { options := { collation := c } } = .ok () (namesUnder c) := by
  refine eq_ok_of_succeeds ?_
  cases c <;> decide +kernel

/-- Two stored names, the second of which has taken the place of another one. -/
theorem distinct_names_disagree : ∃ s, ∃ ix ∈ (s.table 7).engine.indexes, ∃ r r',
    Lifetime 7 (TableCall.Settled 7) (namesUnder .binary) s ∧ (s.table 7).engine.row? 0 = some r ∧
      (s.table 7).engine.row? 1 = some r' ∧ ∃ c ∈ ix.spec.columns, ¬ (s.table 7).Agree c.place r r' := by
  have h : Lifetime 7 (TableCall.Settled 7) (namesUnder .binary) _ := .start
  have h := h.call (.addIndex nameOnce true) fun _ => rfl
  have h := h.call (.insert 1 ⟨none, [some (.text "a")]⟩) trivial
  have h := h.call (.insert 1 ⟨none, [some (.text "b")]⟩) trivial
  have h := h.call (.update 1 (fun _ => false)
    [(⟨some 1, [some (.text "b")]⟩, ⟨none, [some (.text "A")]⟩)]) nofun
  obtain ⟨s, h, hunique, hr, hr', hbinary⟩ : ∃ s, Lifetime 7 (TableCall.Settled 7) (namesUnder .binary) s ∧
      (s.table 7).engine.indexes.any (·.spec.type.unique) = true ∧
        (s.table 7).engine.row? 0 = some ⟨some 0, [some (.text "a")]⟩ ∧
          (s.table 7).engine.row? 1 = some ⟨some 1, [some (.text "A")]⟩ ∧ (s.table 7).collation = .binary :=
    ⟨_, h, by decide +kernel, by decide +kernel, by decide +kernel, by decide +kernel⟩
  obtain ⟨ix, hix, hu⟩ := List.any_eq_true.1 hunique
  obtain ⟨c, hc, hdisagree⟩ := rows_disagree_on_unique_indexes (created_namesUnder .binary) h hix hu hr hr'
    (by decide)
  refine ⟨s, ix, hix, _, _, h, hr, hr', c, hc, hdisagree.resolve_right fun hcase => ?_⟩
  cases hbinary.symm.trans hcase.1

/-- Columns are set and indexes attached while nothing is stored; otherwise rows are inserted, deleted and
updated. -/
def TableCall.Fixed (t : Nat) (s : Store) : TableCall → Prop
  | setColumns .. | addIndex .. => (s.table t).engine.rowList = []
  | insert .. | delete .. | update .. => True
  | _ => False

/-- Where case is ignored, names that differ in case agree, and both may be stored. -/
theorem not_rows_disagree_under_collation : ¬ ∀ (spec : TableSpec) (s₀ s₁ s : Store) (ix : TreeIndex)
    (key key' : RowKey) (r r' : Row), createTable spec s₀ = .ok () s₁ →
      Lifetime spec.id (TableCall.Fixed spec.id) s₁ s → ix ∈ (s.table spec.id).engine.indexes →
        ix.spec.type.unique = true → (s.table spec.id).engine.row? key = some r →
          (s.table spec.id).engine.row? key' = some r' → key ≠ key' →
            ∃ c ∈ ix.spec.columns, ¬ (s.table spec.id).Agree c.place r r' := by
  intro hall
  have h : Lifetime 7 (TableCall.Fixed 7) (namesUnder .ignoreCase) _ := .start
  have h := h.call (.addIndex nameOnce true) rfl
  have h := h.call (.insert 1 ⟨none, [some (.text "a")]⟩) trivial
  have h := h.call (.insert 1 ⟨none, [some (.text "A")]⟩) trivial
  obtain ⟨s, h, hspecs, hr, hr', hcase⟩ : ∃ s, Lifetime 7 (TableCall.Fixed 7) (namesUnder .ignoreCase) s ∧
      (s.table 7).engine.specs = [nameOnce] ∧
        (s.table 7).engine.row? 0 = some ⟨some 0, [some (.text "a")]⟩ ∧
          (s.table 7).engine.row? 1 = some ⟨some 1, [some (.text "A")]⟩ ∧
            (s.table 7).collation = .ignoreCase :=
    ⟨_, h, rfl, by decide +kernel, by decide +kernel, by decide +kernel⟩
  have hattached : nameOnce ∈ (s.table 7).engine.specs := hspecs ▸ List.mem_singleton_self nameOnce
  obtain ⟨ix, hix, hspec⟩ := List.mem_map.1 hattached
  have htypes : (Value.text "a").dataType = (Value.text "A").dataType := rfl
  have hequal : (s.table 7).compare (.text "a") (.text "A") = .ok .eq := by
    rw [Table.compare_of_type htypes, hcase]
    decide +kernel
  obtain ⟨c, hc, hdisagree⟩ := hall names _ _ s ix 0 1 _ _ (created_namesUnder .ignoreCase) h hix
    (by rw [hspec]; rfl) hr hr' (by decide)
  rw [hspec] at hc
  cases List.mem_singleton.1 hc
  exact hdisagree ⟨.text "a", .text "A", rfl, rfl, nofun, nofun, hequal⟩

end RowStore
