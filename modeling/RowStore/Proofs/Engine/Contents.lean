import RowStore.Proofs.Engine.History

/-!
# Contents of an engine, and the way back to them

* `Engine.contents` : the stored rows, and what each index is and holds;
* `Engine.Full` : a sound engine whose indexes hold all rows; `Engine.Regular` : how engines get there;
* `Full.addRow`, `Full.removeRow` : changes of rows keep an engine full;
* `Full.addRow_of_removed` : a row that was removed can be added again;
* `Sound.removeRow_of_added` : a row that was added can be removed again.

Both lead back to the contents that were, from every engine with the contents that came of it.
-/

namespace RowStore.Engine

/-- The stored rows, and what each index is and holds. -/
def contents (e : Engine) :
    OrderedMap RowKey Row × List (IndexSpec × String × Multiset (IndexKey × RowKey)) :=
  (e.rows, e.indexes.map TreeIndex.contents)

/-- A sound engine whose indexes hold all rows. -/
structure Full (e : Engine) : Prop where
  sound : e.Sound
  holds : ∀ ix ∈ e.indexes, ∀ key r, e.row? key = some r → ix.Holds key

/-- An engine is full if all its indexes were whole when they were attached. -/
theorem Reached.full {table : Nat} {name : String} {history : List Event} {e : Engine}
    (h : Reached table name history e) (hl : .assigned lastKey ∉ history)
    (hw : ∀ ix ∈ e.indexes, Whole ix.spec.id history) : e.Full := by
  obtain ⟨hs, hcovered⟩ := h.agrees hl
  refine ⟨hs, ?_⟩
  intro ix hix key r hr
  exact hcovered ix hix key r hr ((hw ix hix).covers key)

/-- No row was ever given the last key, and all indexes were whole when they were attached. -/
def Regular (e : Engine) : Prop :=
  ∃ table name history, Reached table name history e ∧ .assigned lastKey ∉ history ∧
    ∀ ix ∈ e.indexes, Whole ix.spec.id history

theorem Regular.full {e : Engine} (h : e.Regular) : e.Full := by
  obtain ⟨_, _, _, hr, hl, hw⟩ := h
  exact hr.full hl hw

section Changes
variable {e e' b : Engine} {r stored : Row} {key : RowKey}

theorem contents_claimed (e : Engine) (r : Row) : (e.claimed r).contents = e.contents := rfl

theorem Full.of_contents (h : e.Full) (hb : b.Sound) (hc : b.contents = e.contents) : b.Full := by
  have hrows : b.rows = e.rows := congrArg Prod.fst hc
  have hixs : b.indexes.map TreeIndex.contents = e.indexes.map TreeIndex.contents :=
    congrArg Prod.snd hc
  refine ⟨hb, ?_⟩
  intro ix hix key r hr
  have hm : ix.contents ∈ e.indexes.map TreeIndex.contents := hixs ▸ List.mem_map_of_mem hix
  obtain ⟨ix₀, hix₀, he⟩ := List.mem_map.1 hm
  unfold row? at hr
  rw [hrows] at hr
  obtain ⟨p, hp, hk⟩ := h.holds ix₀ hix₀ key r hr
  exact ⟨p, (TreeIndex.contents_eq.1 he).2.2.mem_iff.1 hp, hk⟩

/-- Where a row is stored, its index entries are its values. -/
theorem Full.mem_index (h : e.Full) {ix : TreeIndex} (hix : ix ∈ e.indexes)
    (hr : e.row? key = some r) : ∃ k, ix.keyOf? r = some k ∧ (k, key) ∈ ix.map.toList :=
  (h.sound.tracks ix hix).mem_of_holds hr (h.holds ix hix key r hr)

/-- A stored row leaves all indexes. -/
theorem Full.exists_left (h : e.Full) (hr : e.row? key = some r) :
    ∃ ixs, List.Forall₂ (fun ix ix' => ix.leave r key = .ok ix') e.indexes ixs := by
  refine exists_forall₂ fun ix hix => ?_
  obtain ⟨k, hk, -⟩ := h.mem_index hix hr
  exact ⟨_, TreeIndex.leave_eq_ok.2 ⟨k, hk, rfl⟩⟩

/-- A removal that fails on a full engine changes nothing: all indexes have the values of the row. -/
theorem Full.removeRow_eq_error (h : e.Full) {fault : Fault} (he : Engine.removeRow r e = .error fault e') :
    fault = .error (.rowNotFound e.name) ∧ e' = e := by
  refine (Engine.removeRow_eq_error he).resolve_right ?_
  rintro ⟨key, stored, _, -, hk, hr, -⟩
  obtain ⟨ixs, hout⟩ := h.exists_left hr
  cases he.symm.trans (removeRow_eq_ok.2 ⟨key, stored, ixs, hk, hr, hout, rfl⟩)

/-- An engine stays full when a row is added or refused, unless the row is given the last key. -/
theorem Full.addRow (h : e.Full) (hl : e.assigned? r ≠ some lastKey)
    (hp : ∀ e', Engine.addRow r e ≠ .error .outOfRange e') :
    (Action.final (Engine.addRow r) e).Full := by
  have hs := h.sound.addRow hl hp
  cases he : Engine.addRow r e with
  | ok stored e' =>
    rw [Action.final_of_ok he] at hs ⊢
    obtain ⟨key, ixs, -, hin, -, rfl⟩ := addRow_eq_ok.1 he
    refine ⟨hs, ?_⟩
    intro ix' hix' k r' hr
    obtain ⟨ix, hix, -, hholds⟩ := h.sound.holds_withRow hin hix'
    rw [hholds]
    by_cases hk : k = key
    · exact Or.inl hk
    · exact Or.inr (h.holds ix hix k r' ((row?_withRow_of_ne hk).symm.trans hr))
  | error fault e' =>
    rw [Action.final_of_error he] at hs ⊢
    cases fault with
    | outOfRange => exact absurd he (hp e')
    | error cause =>
      rcases h.sound.addRow_refused he with ⟨-, rfl⟩ | ⟨_, -, rfl⟩
      · exact h
      · exact h.of_contents hs (contents_claimed e r)

theorem Full.removeRow (h : e.Full) (r : Row) : (Action.final (Engine.removeRow r) e).Full := by
  cases he : Engine.removeRow r e with
  | ok _ e' =>
    rw [Action.final_of_ok he]
    obtain ⟨key, stored, ixs, -, hr, hout, rfl⟩ := removeRow_eq_ok.1 he
    refine ⟨h.sound.withoutRow hr hout, ?_⟩
    intro ix' hix' k r' hr'
    obtain ⟨ix, hix, -, hholds⟩ := h.sound.holds_withoutRow hr hout hix'
    obtain ⟨hk, hold⟩ := row?_of_withoutRow hr'
    rw [hholds]
    exact ⟨hk, h.holds ix hix k r' hold⟩
  | error fault e' =>
    rw [Action.final_of_error he, (h.removeRow_eq_error he).2]
    exact h

/-! ## The way back -/

/-- Where each index has a way back, from every index with the contents it came to, all of them have. -/
theorem exists_back {forth back : TreeIndex → TreeIndex → Prop} {start found : TreeIndex → Prop}
    {ixs ixs' others : List TreeIndex} (h : List.Forall₂ forth ixs ixs')
    (hstart : ∀ ix ∈ ixs, start ix) (hfound : ∀ ix ∈ others, found ix)
    (hc : others.map TreeIndex.contents = ixs'.map TreeIndex.contents)
    (step : ∀ ix ix' other, start ix → forth ix ix' → found other → other.contents = ix'.contents →
      ∃ other', back other other' ∧ other'.contents = ix.contents) :
    ∃ others', List.Forall₂ back others others' ∧
      others'.map TreeIndex.contents = ixs.map TreeIndex.contents := by
  induction h generalizing others with
  | nil =>
    obtain rfl : others = [] := List.map_eq_nil_iff.1 hc
    exact ⟨[], List.Forall₂.nil, rfl⟩
  | cons hforth _ ih =>
    cases others with
    | nil => cases hc
    | cons first rest =>
      obtain ⟨hfirst, hrest⟩ := List.cons.inj hc
      obtain ⟨first', hback, hcf⟩ := step _ _ first (hstart _ List.mem_cons_self) hforth
        (hfound first List.mem_cons_self) hfirst
      obtain ⟨rest', hbacks, hcr⟩ := ih (fun ix hix => hstart ix (List.mem_cons_of_mem _ hix))
        (fun ix hix => hfound ix (List.mem_cons_of_mem _ hix)) hrest
      refine ⟨first' :: rest', List.Forall₂.cons hback hbacks, ?_⟩
      rw [List.map_cons, List.map_cons, hcf, hcr]

/-- Indexes that a row has left, or others with their contents, take it back. -/
theorem enterAll_of_left {rows : OrderedMap RowKey Row} {ixs ixs' back : List TreeIndex}
    (hr : rows.find? key = some r)
    (hout : List.Forall₂ (fun ix ix' => ix.leave r key = .ok ix') ixs ixs')
    (ht : ∀ ix ∈ ixs, ix.Tracks rows ∧ ix.Holds key) (hb : ∀ ix ∈ back, ix.map.WellFormed)
    (hc : back.map TreeIndex.contents = ixs'.map TreeIndex.contents) :
    ∃ back', List.Forall₂ (fun ix ix' => ix.enter r key = .ok ix') back back' ∧
      back'.map TreeIndex.contents = ixs.map TreeIndex.contents := by
  refine exists_back hout ht hb hc ?_
  intro ix ix' other htracks hl hwf hcontents
  exact htracks.1.enter_of_left hr htracks.2 hl hwf hcontents

/-- Indexes that a row has entered under a fresh key, or others with their contents, let it go. -/
theorem leaveAll_of_entered {rows : OrderedMap RowKey Row} {ixs ixs' back : List TreeIndex}
    (hr : rows.find? key = some { r with key := some key })
    (hin : List.Forall₂ (fun ix ix' => ix.enter r key = .ok ix') ixs ixs')
    (ht : ∀ ix ∈ ixs, ix.map.WellFormed ∧ ¬ ix.Holds key) (hb : ∀ ix ∈ back, ix.Tracks rows)
    (hc : back.map TreeIndex.contents = ixs'.map TreeIndex.contents) :
    ∃ back', List.Forall₂ (fun ix ix' => ix.leave { r with key := some key } key = .ok ix')
        back back' ∧ back'.map TreeIndex.contents = ixs.map TreeIndex.contents := by
  refine exists_back hin ht hb hc ?_
  intro ix ix' other hfresh he htracks hcontents
  exact TreeIndex.leave_of_entered hfresh.1 hfresh.2 he htracks hr
    (TreeIndex.keyOf?_withKey _ r (some key)) hcontents

/-- A row that was removed can be added again, which restores the contents. -/
theorem Full.addRow_of_removed (h : e.Full) (hr : e.row? key = some r)
    (he : Engine.removeRow r e = .ok () e') (hb : b.Sound) (hc : b.contents = e'.contents) :
    ∃ b', Engine.addRow r b = .ok r b' ∧ b'.Sound ∧ b'.contents = e.contents := by
  have hkey := h.sound.keyed key r hr
  obtain ⟨key', stored, ixs, hk', hr', hout, rfl⟩ := removeRow_eq_ok.1 he
  cases hkey.symm.trans hk'
  cases hr.symm.trans hr'
  have hrows : b.rows = e.rows.erase key := congrArg Prod.fst hc
  have hixs : b.indexes.map TreeIndex.contents = ixs.map TreeIndex.contents :=
    congrArg Prod.snd hc
  have hfree : b.row? key = none := by
    unfold row?
    rw [hrows]
    exact OrderedMap.find?_erase_self ..
  have ha := assigned?_of_own hkey hfree
  obtain ⟨back, hin, hback⟩ := enterAll_of_left hr hout
    (fun ix hix => ⟨h.sound.tracks ix hix, h.holds ix hix key r hr⟩)
    (fun ix hix => (hb.tracks ix hix).wellFormed) hixs
  have hsame : ({ r with key := some key } : Row) = r := by
    rw [← hkey]
  refine ⟨b.withRow r key back, addRow_eq_ok.2 ⟨key, back, ha, hin, hsame.symm, rfl⟩, ?_, ?_⟩
  · exact hb.withRow ha (h.sound.ne_lastKey hr) hin
  · unfold contents
    refine Prod.ext ?_ hback
    change b.rows.insert key { r with key := some key } = e.rows
    rw [hsame, hrows]
    exact OrderedMap.insert_erase h.sound.sorted hr

/-- A row that was added can be removed again, which restores the contents. -/
theorem Sound.removeRow_of_added (h : e.Sound) (he : Engine.addRow r e = .ok stored e')
    (hb : b.Sound) (hc : b.contents = e'.contents) :
    ∃ b', Engine.removeRow stored b = .ok () b' ∧ b'.Sound ∧ b'.contents = e.contents := by
  obtain ⟨key, ixs, ha, hin, rfl, rfl⟩ := addRow_eq_ok.1 he
  have hfree := h.fresh ha
  have hrows : b.rows = e.rows.insert key { r with key := some key } := congrArg Prod.fst hc
  have hixs : b.indexes.map TreeIndex.contents = ixs.map TreeIndex.contents :=
    congrArg Prod.snd hc
  have hstored : b.row? key = some { r with key := some key } := by
    unfold row?
    rw [hrows]
    exact OrderedMap.find?_insert_self ..
  obtain ⟨back, hout, hback⟩ := leaveAll_of_entered hstored hin
    (fun ix hix => ⟨(h.tracks ix hix).wellFormed,
      fun ⟨p, hp, hk⟩ => (h.tracks ix hix).fresh hfree p hp hk⟩)
    hb.tracks hixs
  refine ⟨b.withoutRow key back,
    removeRow_eq_ok.2 ⟨key, _, back, rfl, hstored, hout, rfl⟩, hb.withoutRow hstored hout, ?_⟩
  unfold contents
  refine Prod.ext ?_ hback
  change b.rows.erase key = e.rows
  rw [hrows]
  exact OrderedMap.erase_insert h.sorted hfree _

end Changes

end RowStore.Engine
