import RowStore.Proofs.Engine.Refusals

/-!
# What it takes to attach an index

* `IndexSpec.Agree` : two rows agree, free of NULL, on the indexed columns;
* `populate_iff` : rows go into an index one after the other just if it refuses none of them and no two of
  them clash; `populate_entries` : each of them then has its entry;
* `Engine.Admits` : all that an engine asks of a new index; `addIndex_iff` : it is attached just if that
  holds; `addIndex_added` : what it holds then;
* `Reached.keyed`, `Reached.columns` : stored rows carry keys, even when keys start over, and attached
  indexes have columns.
-/

namespace RowStore

/-- The two rows agree, free of NULL, on the indexed columns. -/
def IndexSpec.Agree (spec : IndexSpec) (r r' : Row) : Prop :=
  ∀ c ∈ spec.columns, ∃ v ∈ r.value? c.place, r'.value? c.place = some v ∧ v.isNull = false

instance (spec : IndexSpec) (r r' : Row) : Decidable (spec.Agree r r') :=
  inferInstanceAs (Decidable (∀ c ∈ spec.columns, ∃ v ∈ r.value? c.place, _))

namespace TreeIndex
variable {ix ix' : TreeIndex} {r r' : Row} {key : RowKey}

theorem clash_iff_agree :
    ix.Clash r r' ↔ ix.spec.type.unique = true ∧ ix.spec.Agree r r' := by
  unfold Clash IndexSpec.Agree keyOf?
  refine and_congr_right fun _ => ?_
  generalize ix.spec.columns = cs
  induction cs with
  | nil => simp
  | cons c cs ih =>
    rw [List.forall_mem_cons, ← ih]
    simp only [List.mapM_cons, Option.mem_def]
    cases r.value? c.place with
    | none => simp
    | some v =>
      cases r'.value? c.place with
      | none => simp
      | some v' =>
        cases cs.mapM fun c => r.value? c.place with
        | none => simp
        | some k =>
          cases cs.mapM fun c => r'.value? c.place with
          | none => simp
          | some k' => simp [and_left_comm, and_assoc]

theorem wellFormed_enter (h : ix.map.WellFormed) (he : ix.enter r key = .ok ix') :
    ix'.map.WellFormed := by
  obtain ⟨k, -, -, rfl⟩ := (enter_eq_ok h).1 he
  exact h.insert k key

/-- Besides what it refused before, an index refuses what clashes with the row that was entered. -/
theorem refuses_enter (h : ix.map.WellFormed) (he : ix.enter r key = .ok ix') :
    ix'.Refuses r' ↔ ix.Refuses r' ∨ ix.Clash r r' := by
  have hspec := spec_enter he
  obtain ⟨k, hk, hentries⟩ := entries_enter h he
  have hguards (k' : IndexKey) : ix'.guards k' = ix.guards k' := by
    unfold guards
    rw [hspec]
  rw [clash_iff]
  unfold Refuses
  rw [keyOf?_of_spec hspec]
  simp only [hguards, hentries.mem_iff, List.mem_cons, exists_eq_or_imp, hk, Option.some.injEq]
  constructor
  · rintro ⟨k', hk', hg, rfl | hp⟩
    · exact .inr ⟨_, hg, rfl, hk'⟩
    · exact .inl ⟨k', hk', hg, hp⟩
  · rintro (⟨k', hk', hg, hp⟩ | ⟨k', hg, rfl, hk'⟩)
    · exact ⟨k', hk', hg, .inr hp⟩
    · exact ⟨_, hk', hg, .inl rfl⟩

def IsEntry (ix : TreeIndex) (r : Row) (entry : IndexKey × RowKey) : Prop :=
  ix.keyOf? r = some entry.1 ∧ r.key = some entry.2

theorem reads_of_spec (h : ix'.spec = ix.spec) (hr : ix.Reads r) : ix'.Reads r := by
  unfold Reads at hr ⊢
  rwa [h]

end TreeIndex

namespace Engine
open RowStore.Action

variable {e e' : Engine} {spec : IndexSpec} {fill : Bool} {name : String} {rs : List Row}
  {ix ix' : TreeIndex}

/-! ## Rows one after the other -/

theorem populate_of_key {r : Row} {key : RowKey} (hk : r.key = some key) :
    populate name (r :: rs) ix = (ix.enter r key).bind (populate name rs) := by
  rw [populate, hk]

theorem populate_iff (h : ix.map.WellFormed) (hkeys : ∀ r ∈ rs, ∃ key, r.key = some key)
    (hreads : ∀ r ∈ rs, ix.Reads r) :
    (∃ ix', populate name rs ix = .ok ix') ↔
      (∀ r ∈ rs, ¬ ix.Refuses r) ∧ rs.Pairwise fun r r' => ¬ ix.Clash r r' := by
  induction rs generalizing ix with
  | nil => exact ⟨fun _ => ⟨nofun, .nil⟩, fun _ => ⟨ix, rfl⟩⟩
  | cons r rs ih =>
    obtain ⟨hkey, hkeys⟩ := List.forall_mem_cons.1 hkeys
    obtain ⟨hread, hreads⟩ := List.forall_mem_cons.1 hreads
    obtain ⟨key, hkey⟩ := hkey
    obtain ⟨k, hk⟩ := TreeIndex.exists_keyOf?_of_reads hread
    rw [populate_of_key hkey, List.forall_mem_cons, List.pairwise_cons]
    by_cases hr : ix.Refuses r
    · rw [TreeIndex.enter_of_refuses h hk hr]
      exact iff_of_false (fun ⟨_, hp⟩ => nomatch hp) fun hfree => hfree.1.1 hr
    · cases he : ix.enter r key with
      | error fault => cases (TreeIndex.enter_of_not_refuses h hk hr).symm.trans he
      | ok entered =>
        have hspec := TreeIndex.spec_enter he
        have hrest := ih (TreeIndex.wellFormed_enter h he) hkeys fun x hx =>
          TreeIndex.reads_of_spec hspec (hreads x hx)
        simp only [TreeIndex.refuses_enter h he, TreeIndex.clash_of_spec hspec, not_or] at hrest
        refine hrest.trans ⟨fun ⟨hfree, hpairs⟩ => ?_, fun ⟨⟨_, hfree⟩, hclash, hpairs⟩ => ?_⟩
        · exact ⟨⟨hr, fun x hx => (hfree x hx).1⟩, fun x hx => (hfree x hx).2, hpairs⟩
        · exact ⟨fun x hx => ⟨hfree x hx, hclash x hx⟩, hpairs⟩

theorem populate_entries (h : ix.map.WellFormed) (hkeys : ∀ r ∈ rs, ∃ key, r.key = some key)
    (hp : populate name rs ix = .ok ix') :
    ∃ added, List.Forall₂ ix.IsEntry rs added ∧ ix'.map.toList.Perm (added ++ ix.map.toList) := by
  induction rs generalizing ix with
  | nil =>
    cases hp
    exact ⟨[], .nil, .refl _⟩
  | cons r rs ih =>
    obtain ⟨⟨key, hkey⟩, hkeys⟩ := List.forall_mem_cons.1 hkeys
    obtain ⟨entered, he, hp⟩ := populate_cons hkey hp
    obtain ⟨k, hk, hentries⟩ := TreeIndex.entries_enter h he
    obtain ⟨added, hadded, hfilled⟩ := ih (TreeIndex.wellFormed_enter h he) hkeys hp
    refine ⟨(k, key) :: added, .cons ⟨hk, hkey⟩ (hadded.imp fun x entry hx => ?_), ?_⟩
    · exact ⟨(TreeIndex.keyOf?_of_spec (TreeIndex.spec_enter he) x).symm.trans hx.1, hx.2⟩
    · exact hfilled.trans ((hentries.append_left added).trans List.perm_middle)

/-! ## Attaching -/

/-- What an engine asks of a new index: columns, a number that is free and not that of the scan, and, if it
is unique and to be filled, that no two stored rows agree on it. -/
structure Admits (e : Engine) (spec : IndexSpec) (fill : Bool) : Prop where
  columns : spec.columns ≠ []
  numbered : spec.id ≠ scanId
  free : ∀ ix ∈ e.indexes, ix.spec.id ≠ spec.id
  distinct : spec.type.unique = true → fill = true →
    e.rowList.Pairwise fun r r' => ¬ spec.Agree r r'

theorem index?_eq_none_iff {id : Nat} : e.index? id = none ↔ ∀ ix ∈ e.indexes, ix.spec.id ≠ id := by
  unfold index?
  simp

section Attaching
variable (hkeys : ∀ r ∈ e.rowList, ∃ key, r.key = some key)
include hkeys

theorem addIndex_iff (hreads : ∀ r ∈ e.rowList, ∀ c ∈ spec.columns, c.place < r.width) :
    (∃ e', addIndex spec fill e = .ok () e') ↔ e.Admits spec fill := by
  have hempty : ∀ r, ¬ TreeIndex.Refuses { spec := spec, tableName := e.name } r := by
    rintro r ⟨_, -, -, _, hp, -⟩
    cases hp
  have hfilled : (∃ ix, populate e.name (if fill then e.rowList else [])
      { spec := spec, tableName := e.name } = .ok ix) ↔
      (spec.type.unique = true → fill = true → e.rowList.Pairwise fun r r' => ¬ spec.Agree r r') := by
    cases fill with
    | false => exact iff_of_true ⟨_, rfl⟩ nofun
    | true =>
      have hread : ∀ r ∈ e.rowList, TreeIndex.Reads { spec := spec, tableName := e.name } r := hreads
      refine (populate_iff MultiMap.wellFormed_empty hkeys hread).trans ?_
      simp only [hempty, TreeIndex.clash_iff_agree, not_false_eq_true, implies_true, true_and,
        true_implies]
      cases spec.type.unique with
      | false => simp [List.pairwise_of_forall]
      | true => simp
  rcases addIndex_cases e spec fill with ⟨hbad, what, hrefused⟩ | ⟨⟨hcolumns, hscan, hfree⟩, hbuilt⟩
  · refine iff_of_false (fun ⟨e', he⟩ => nomatch hrefused.symm.trans he) fun h => ?_
    rcases hbad with hnone | hscan | htaken
    · exact h.columns hnone
    · exact h.numbered hscan
    · exact htaken (index?_eq_none_iff.2 h.free)
  · rw [hbuilt]
    refine Iff.trans ?_ (hfilled.trans
      ⟨fun h => ⟨hcolumns, hscan, index?_eq_none_iff.1 hfree, h⟩, Admits.distinct⟩)
    cases populate e.name (if fill then e.rowList else []) { spec := spec, tableName := e.name } with
    | error fault => exact iff_of_false nofun nofun
    | ok ix => exact iff_of_true ⟨_, rfl⟩ ⟨ix, rfl⟩

theorem addIndex_added (h : addIndex spec fill e = .ok () e') :
    ∃ ix added, ix.spec = spec ∧ e' = { e with indexes := e.indexes ++ [ix] } ∧
      List.Forall₂ ix.IsEntry (if fill then e.rowList else []) added ∧ ix.entries = ↑added := by
  obtain ⟨-, ix, hp, rfl⟩ := addIndex_eq_ok h
  have hspec : ix.spec = spec := spec_populate hp
  have hkeyed : ∀ r ∈ (if fill then e.rowList else []), ∃ key, r.key = some key := by
    intro r hr
    split at hr
    · exact hkeys r hr
    · cases hr
  obtain ⟨added, hadded, hentries⟩ := populate_entries MultiMap.wellFormed_empty hkeyed hp
  have hall : ix.map.toList.Perm added := (List.append_nil added) ▸ hentries
  refine ⟨ix, added, hspec, rfl, hadded.imp fun r entry hr => ?_, Multiset.coe_eq_coe.2 hall⟩
  exact ⟨(TreeIndex.keyOf?_of_spec hspec r).trans hr.1, hr.2⟩

end Attaching

/-! ## Whatever has happened -/

theorem Call.keyed (c : Call) (h : ∀ r ∈ e.rowList, ∃ key, r.key = some key) :
    ∀ r ∈ (final c.run e).rowList, ∃ key, r.key = some key := by
  cases c with
  | addRow r =>
    unfold Call.run
    rw [final_discard]
    cases he : Engine.addRow r e with
    | ok stored e' =>
      rw [final_of_ok he]
      obtain ⟨key, ixs, -, -, -, rfl⟩ := addRow_eq_ok.1 he
      intro x hx
      rcases mem_rowList_withRow hx with rfl | hx
      · exact ⟨key, rfl⟩
      · exact h x hx
    | error fault e' =>
      rw [final_of_error he]
      unfold rowList
      rwa [(addRow_visited he).1]
  | removeRow r => exact fun x hx => h x (mem_rowList_removeRow hx)
  | truncate => exact nofun
  | addIndex spec fill =>
    change ∀ r ∈ (final (Engine.addIndex spec fill) e).rowList, _
    cases he : Engine.addIndex spec fill e with
    | ok _ e' =>
      rw [final_of_ok he]
      obtain ⟨-, ix, -, rfl⟩ := addIndex_eq_ok he
      exact h
    | error fault e' =>
      rw [final_of_error he, addIndex_eq_error he]
      exact h
  | removeIndex id =>
    unfold Call.run
    rw [final_discard, final_of_ok (removeIndex_eq e id)]
    exact h

theorem Reached.keyed {table : Nat} {history : List Event} (h : Reached table name history e) :
    ∀ r ∈ e.rowList, ∃ key, r.key = some key := by
  induction h with
  | start => exact nofun
  | done c _ run ih => exact final_of_ok run ▸ c.keyed ih
  | refused c _ run ih => exact final_of_error run ▸ c.keyed ih

/-- A change lets indexes go if anything, or attaches one with columns and a number of its own. -/
theorem Call.specs_cases (c : Call) (e : Engine) :
    (final c.run e).specs.Sublist e.specs ∨ ∃ spec, spec.columns ≠ [] ∧
      spec.id ∉ e.specs.map (·.id) ∧ (final c.run e).specs = e.specs ++ [spec] := by
  cases c with
  | addRow r =>
    unfold Call.run
    rw [final_discard, specs_addRow]
    exact .inl (.refl _)
  | removeRow r =>
    change (final (Engine.removeRow r) e).specs.Sublist e.specs ∨ _
    rw [specs_removeRow]
    exact .inl (.refl _)
  | truncate =>
    have hspecs : (final truncate.run e).specs = e.specs := List.map_map
    rw [hspecs]
    exact .inl (.refl _)
  | addIndex spec fill =>
    change (final (Engine.addIndex spec fill) e).specs.Sublist e.specs ∨ _
    cases he : Engine.addIndex spec fill e with
    | ok _ e' =>
      obtain ⟨hspecs, hnew⟩ := specs_addIndex he
      rcases addIndex_cases e spec fill with ⟨-, what, hrefused⟩ | ⟨⟨hcolumns, -⟩, -⟩
      · cases hrefused.symm.trans he
      · exact .inr ⟨spec, hcolumns, hnew, (final_of_ok he).symm ▸ hspecs⟩
    | error fault e' =>
      rw [final_of_error he, addIndex_eq_error he]
      exact .inl (.refl _)
  | removeIndex id =>
    unfold Call.run
    rw [final_discard, final_of_ok (removeIndex_eq e id)]
    exact .inl (List.eraseP_sublist.map _)

theorem Call.columns (c : Call) (h : ∀ spec ∈ e.specs, spec.columns ≠ []) :
    ∀ spec ∈ (final c.run e).specs, spec.columns ≠ [] := by
  rcases c.specs_cases e with hsub | ⟨new, hnew, -, hspecs⟩
  · exact fun spec hspec => h spec (hsub.subset hspec)
  · rw [hspecs]
    intro spec hspec
    rcases List.mem_append.1 hspec with hspec | hspec
    · exact h spec hspec
    · exact List.mem_singleton.1 hspec ▸ hnew

theorem Reached.columns {table : Nat} {history : List Event} (h : Reached table name history e) :
    ∀ spec ∈ e.specs, spec.columns ≠ [] := by
  induction h with
  | start => exact nofun
  | done c _ run ih => exact final_of_ok run ▸ c.columns ih
  | refused c _ run ih => exact final_of_error run ▸ c.columns ih

end Engine
end RowStore
