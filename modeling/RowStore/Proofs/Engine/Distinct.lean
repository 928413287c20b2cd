import RowStore.Proofs.Engine.Contents

/-!
# Rows that agree on a unique index

* `TreeIndex.Reads` : a row has all the columns of an index;
* `Engine.Clash` : two rows agree, free of NULL, on all the columns of a unique index;
* `Engine.Distinct` : no two rows of a list clash; `Full.distinct` : stored rows never do;
* `Full.refuses_iff` : a full engine refuses just the rows that clash with a stored one;
* `Full.addRow_of_clash`, `Full.addRow_of_free` : a row with a free key of its own is refused as a
  duplicate, or stored;
* `Full.removeRow_of_stored` : a stored row can be removed.
-/

namespace RowStore

namespace TreeIndex

def Reads (ix : TreeIndex) (r : Row) : Prop := ∀ c ∈ ix.spec.columns, c.place < r.width

/-- The two rows agree, free of NULL, on all columns of the index, which is unique. -/
def Clash (ix : TreeIndex) (r r' : Row) : Prop :=
  ix.spec.type.unique = true ∧
    ∃ k ∈ ix.keyOf? r, ix.keyOf? r' = some k ∧ k.any Value.isNull = false

instance (ix : TreeIndex) (r : Row) : Decidable (ix.Reads r) :=
  inferInstanceAs (Decidable (∀ c ∈ ix.spec.columns, c.place < r.width))

instance (ix : TreeIndex) (r r' : Row) : Decidable (ix.Clash r r') :=
  inferInstanceAs (Decidable (_ ∧ ∃ k ∈ ix.keyOf? r, _))

variable {ix ix' : TreeIndex} {r r' : Row}

theorem exists_keyOf?_of_reads (h : ix.Reads r) : ∃ k, ix.keyOf? r = some k := by
  unfold Reads at h
  unfold keyOf?
  generalize ix.spec.columns = cs at h ⊢
  induction cs with
  | nil => exact ⟨[], rfl⟩
  | cons c cs ih =>
    obtain ⟨k, hk⟩ := ih fun d hd => h d (List.mem_cons_of_mem _ hd)
    have hc : c.place < r.slots.length := h c List.mem_cons_self
    have hv : r.value? c.place = some (r.slots[c.place].getD .null) := by
      unfold Row.value?
      rw [List.getElem?_eq_getElem hc, Option.map_some]
    exact ⟨_ :: k, by rw [List.mapM_cons, hv, hk]; rfl⟩

theorem reads_of_keyOf? {k : IndexKey} (h : ix.keyOf? r = some k) : ix.Reads r := by
  unfold Reads
  unfold keyOf? at h
  generalize ix.spec.columns = cs at h ⊢
  induction cs generalizing k with
  | nil => exact nofun
  | cons c cs ih =>
    rw [List.mapM_cons] at h
    obtain ⟨v, hv, h⟩ := Option.bind_eq_some_iff.1 h
    obtain ⟨k', hk', -⟩ := Option.bind_eq_some_iff.1 h
    refine List.forall_mem_cons.2 ⟨?_, ih hk'⟩
    obtain ⟨slot, hslot, -⟩ := Option.map_eq_some_iff.1 hv
    exact (List.getElem?_eq_some_iff.1 hslot).1

theorem guards_iff {k : IndexKey} :
    ix.guards k = true ↔ ix.spec.type.unique = true ∧ k.any Value.isNull = false := by
  unfold guards
  rw [Bool.and_eq_true, Bool.not_eq_true']

theorem clash_iff : ix.Clash r r' ↔
    ∃ k, ix.guards k = true ∧ ix.keyOf? r = some k ∧ ix.keyOf? r' = some k := by
  simp only [Clash, guards_iff, Option.mem_def]
  constructor
  · rintro ⟨hu, k, hk, hk', hn⟩
    exact ⟨k, ⟨hu, hn⟩, hk, hk'⟩
  · rintro ⟨k, ⟨hu, hn⟩, hk, hk'⟩
    exact ⟨hu, k, hk, hk', hn⟩

theorem Clash.symm (h : ix.Clash r r') : ix.Clash r' r := by
  obtain ⟨k, hg, hk, hk'⟩ := clash_iff.1 h
  exact clash_iff.2 ⟨k, hg, hk', hk⟩

theorem clash_of_spec (h : ix.spec = ix'.spec) : ix.Clash r r' ↔ ix'.Clash r r' := by
  unfold Clash
  rw [keyOf?_of_spec h, keyOf?_of_spec h, h]

end TreeIndex

namespace Engine

/-- The two rows agree, free of NULL, on all columns of a unique index. -/
def Clash (e : Engine) (r r' : Row) : Prop := ∃ ix ∈ e.indexes, ix.Clash r r'

/-- No two of the rows agree, free of NULL, on all columns of a unique index. -/
def Distinct (e : Engine) (rows : List Row) : Prop :=
  ∀ r ∈ rows, ∀ r' ∈ rows, r ≠ r' → ¬ e.Clash r r'

instance (e : Engine) (r r' : Row) : Decidable (e.Clash r r') :=
  inferInstanceAs (Decidable (∃ ix ∈ e.indexes, ix.Clash r r'))

instance (e : Engine) (rows : List Row) : Decidable (e.Distinct rows) :=
  inferInstanceAs (Decidable (∀ r ∈ rows, ∀ r' ∈ rows, r ≠ r' → ¬ e.Clash r r'))

def specs (e : Engine) : List IndexSpec := e.indexes.map (·.spec)

section Specs
variable {e e' : Engine} {r r' : Row}

theorem exists_index_of_specs (h : e'.specs = e.specs) {ix : TreeIndex} (hix : ix ∈ e'.indexes) :
    ∃ ix' ∈ e.indexes, ix'.spec = ix.spec := by
  have hm : ix.spec ∈ e.specs := h ▸ List.mem_map_of_mem hix
  exact List.mem_map.1 hm

theorem clash_of_specs (h : e'.specs = e.specs) : e'.Clash r r' ↔ e.Clash r r' := by
  constructor
  · rintro ⟨ix, hix, hc⟩
    obtain ⟨ix', hix', hs⟩ := exists_index_of_specs h hix
    exact ⟨ix', hix', (TreeIndex.clash_of_spec hs).2 hc⟩
  · rintro ⟨ix, hix, hc⟩
    obtain ⟨ix', hix', hs⟩ := exists_index_of_specs h.symm hix
    exact ⟨ix', hix', (TreeIndex.clash_of_spec hs).2 hc⟩

theorem distinct_congr {rows rows' : List Row} (h : e'.specs = e.specs)
    (hm : ∀ r, r ∈ rows' ↔ r ∈ rows) : e'.Distinct rows' ↔ e.Distinct rows := by
  simp only [Distinct, hm, clash_of_specs h]

theorem reads_of_specs (h : e'.specs = e.specs) (hr : ∀ ix ∈ e.indexes, ix.Reads r) :
    ∀ ix ∈ e'.indexes, ix.Reads r := by
  intro ix hix
  obtain ⟨ix', hix', hs⟩ := exists_index_of_specs h hix
  have hreads := hr ix' hix'
  unfold TreeIndex.Reads at hreads ⊢
  rwa [← hs]

end Specs

/-! ## What a full engine refuses -/

section Full
variable {e e' : Engine} {r r' : Row} {key : RowKey}

/-- A full engine refuses just the rows that clash with a stored one. -/
theorem Full.refuses_iff (h : e.Full) :
    (∃ ix ∈ e.indexes, ix.Refuses r) ↔ ∃ r' ∈ e.rowList, e.Clash r' r := by
  constructor
  · rintro ⟨ix, hix, k, hk, hg, p, hp, rfl⟩
    obtain ⟨r', hr', hk'⟩ := (h.sound.tracks ix hix).entry p hp
    exact ⟨r', h.sound.mem_rowList.2 ⟨p.2, hr'⟩, ix, hix, TreeIndex.clash_iff.2 ⟨p.1, hg, hk', hk⟩⟩
  · rintro ⟨r', hr', ix, hix, hc⟩
    obtain ⟨key, hkey⟩ := h.sound.mem_rowList.1 hr'
    obtain ⟨k, hg, hk', hk⟩ := TreeIndex.clash_iff.1 hc
    obtain ⟨k', hk'', hp⟩ := h.mem_index hix hkey
    obtain rfl : k' = k := Option.some.inj (hk''.symm.trans hk')
    exact ⟨ix, hix, k', hk, hg, (k', key), hp, rfl⟩

/-- Stored rows do not clash. -/
theorem Full.distinct (h : e.Full) : e.Distinct e.rowList := by
  rintro r hr r' hr' hne ⟨ix, hix, hc⟩
  obtain ⟨key, hkey⟩ := h.sound.mem_rowList.1 hr
  obtain ⟨key', hkey'⟩ := h.sound.mem_rowList.1 hr'
  obtain ⟨k, hg, hk, hk'⟩ := TreeIndex.clash_iff.1 hc
  obtain ⟨v, hv, hp⟩ := h.mem_index hix hkey
  obtain ⟨v', hv', hp'⟩ := h.mem_index hix hkey'
  obtain rfl : v = k := Option.some.inj (hv.symm.trans hk)
  obtain rfl : v' = v := Option.some.inj (hv'.symm.trans hk')
  have hsame := (h.sound.tracks ix hix).unique _ hp _ hp' rfl hg
  obtain rfl : key = key' := congrArg Prod.snd hsame
  exact hne (Option.some.inj (hkey.symm.trans hkey'))

/-! ## Rows that come and go -/

theorem Sound.row?_eq_some_iff (h : e.Sound) :
    e.row? key = some r ↔ r ∈ e.rowList ∧ r.key = some key := by
  constructor
  · intro hr
    exact ⟨h.mem_rowList.2 ⟨key, hr⟩, h.keyed key r hr⟩
  · rintro ⟨hr, hk⟩
    obtain ⟨key', hkey'⟩ := h.mem_rowList.1 hr
    obtain rfl : key' = key := Option.some.inj ((h.keyed key' r hkey').symm.trans hk)
    exact hkey'

theorem Sound.row?_eq_none_iff (h : e.Sound) :
    e.row? key = none ↔ ∀ r ∈ e.rowList, r.key ≠ some key := by
  rw [Option.eq_none_iff_forall_ne_some]
  constructor
  · intro hn r hr hk
    exact hn r (h.row?_eq_some_iff.2 ⟨hr, hk⟩)
  · intro hf r hr
    obtain ⟨hm, hk⟩ := h.row?_eq_some_iff.1 hr
    exact hf r hm hk

/-- A row wide enough for the indexes never makes them read past its end. -/
theorem Sound.not_outOfRange (h : e.Sound) (hw : ∀ ix ∈ e.indexes, ix.Reads r) :
    Engine.addRow r e ≠ .error .outOfRange e' := by
  intro he
  rcases addRow_eq_error he with ⟨-, -, what, hf⟩ | ⟨_, _, -, -, -, before, ix, after, hixs, -, hix⟩
  · cases hf
  · have hm : ix ∈ e.indexes := hixs ▸ List.mem_append_right _ List.mem_cons_self
    have hwf := (h.tracks ix hm).wellFormed
    obtain ⟨k, hk⟩ := TreeIndex.exists_keyOf?_of_reads (hw ix hm)
    by_cases hr : ix.Refuses r
    · cases (TreeIndex.enter_of_refuses hwf hk hr).symm.trans hix
    · cases (TreeIndex.enter_of_not_refuses hwf hk hr).symm.trans hix

/-- A row that clashes with a stored one is refused as a duplicate. -/
theorem Full.addRow_of_clash (h : e.Full) (hk : r.key = some key) (hfree : e.row? key = none)
    (hw : ∀ ix ∈ e.indexes, ix.Reads r) (hc : ∃ r' ∈ e.rowList, e.Clash r' r) :
    ∃ table index value e',
      Engine.addRow r e = .error (.error (.duplicateKey table index value)) e' := by
  obtain ⟨ix, hix, hr⟩ := h.refuses_iff.2 hc
  cases he : Engine.addRow r e with
  | ok stored e' => exact absurd hr (h.sound.not_refuses he ix hix)
  | error fault e' =>
    cases fault with
    | outOfRange => exact absurd he (h.sound.not_outOfRange hw)
    | error cause =>
      obtain ⟨_, first, _, k, -, -, -, -, rfl⟩ := h.sound.refuses (assigned?_of_own hk hfree) he
      exact ⟨_, _, _, e', rfl⟩

/-- A row that clashes with no stored one is stored under its own key. -/
theorem Full.addRow_of_free (h : e.Full) (hk : r.key = some key) (hfree : e.row? key = none)
    (hl : key ≠ lastKey) (hw : ∀ ix ∈ e.indexes, ix.Reads r)
    (hc : ¬ ∃ r' ∈ e.rowList, e.Clash r' r) :
    ∃ e', Engine.addRow r e = .ok r e' ∧ e'.Full ∧ e'.specs = e.specs ∧
      ∀ r', r' ∈ e'.rowList ↔ r' = r ∨ r' ∈ e.rowList := by
  have ha := assigned?_of_own hk hfree
  have hlast : e.assigned? r ≠ some lastKey := by
    rw [ha]
    exact fun he => hl (Option.some.inj he)
  have hfull := h.addRow hlast fun _ => h.sound.not_outOfRange hw
  cases he : Engine.addRow r e with
  | error fault e' =>
    cases fault with
    | outOfRange => exact absurd he (h.sound.not_outOfRange hw)
    | error cause =>
      obtain ⟨before, ix, after, k, hixs, -, hr, -⟩ := h.sound.refuses ha he
      exact absurd (h.refuses_iff.1 ⟨ix, hixs ▸ List.mem_append_right _ List.mem_cons_self, hr⟩) hc
  | ok stored e' =>
    rw [Action.final_of_ok he] at hfull
    obtain ⟨key', ixs, ha', hin, rfl, rfl⟩ := addRow_eq_ok.1 he
    obtain rfl : key' = key := Option.some.inj (ha'.symm.trans ha)
    have hsame : ({ r with key := some key' } : Row) = r := by
      rw [← hk]
    refine ⟨_, by rw [hsame], hfull, ?_, ?_⟩
    · exact map_eq_of_forall₂ (fun _ _ he => TreeIndex.spec_enter he) hin
    · intro r'
      rw [hfull.sound.mem_rowList, h.sound.mem_rowList]
      constructor
      · rintro ⟨k, hr'⟩
        by_cases hkk : k = key'
        · rw [hkk, row?_withRow_self, hsame] at hr'
          exact Or.inl (Option.some.inj hr').symm
        · exact Or.inr ⟨k, (row?_withRow_of_ne hkk).symm.trans hr'⟩
      · rintro (rfl | ⟨k, hr'⟩)
        · exact ⟨key', row?_withRow_self.trans (congrArg some hsame)⟩
        · have hkk : k ≠ key' := by
            rintro rfl
            cases hfree.symm.trans hr'
          exact ⟨k, (row?_withRow_of_ne hkk).trans hr'⟩

/-- A stored row can be removed, which leaves the others. -/
theorem Full.removeRow_of_stored (h : e.Full) (hm : r ∈ e.rowList) :
    ∃ e', Engine.removeRow r e = .ok () e' ∧ e'.Full ∧ e'.specs = e.specs ∧
      ∀ r', r' ∈ e'.rowList ↔ r' ∈ e.rowList ∧ r' ≠ r := by
  obtain ⟨key, hr⟩ := h.sound.mem_rowList.1 hm
  have hkey := h.sound.keyed key r hr
  have hfull := h.removeRow r
  obtain ⟨ixs, hixs⟩ := h.exists_left hr
  have he : Engine.removeRow r e = .ok () (e.withoutRow key ixs) :=
    removeRow_eq_ok.2 ⟨key, r, ixs, hkey, hr, hixs, rfl⟩
  rw [Action.final_of_ok he] at hfull
  refine ⟨_, he, hfull, map_eq_of_forall₂ (fun _ _ hl => TreeIndex.spec_leave hl) hixs, ?_⟩
  intro r'
  rw [hfull.sound.mem_rowList, h.sound.mem_rowList]
  constructor
  · rintro ⟨k, hr'⟩
    obtain ⟨hk, hold⟩ := row?_of_withoutRow hr'
    refine ⟨⟨k, hold⟩, ?_⟩
    rintro rfl
    exact hk (Option.some.inj ((h.sound.keyed k r' hold).symm.trans hkey))
  · rintro ⟨⟨k, hr'⟩, hne⟩
    have hk : k ≠ key := by
      rintro rfl
      exact hne (Option.some.inj (hr'.symm.trans hr))
    exact ⟨k, (row?_withoutRow_of_ne hk).trans hr'⟩

end Full

end Engine
end RowStore
