import RowStore.MultiMap
import RowStore.Proofs.OrderedMap

/-!
# Maps from keys to several values: what their pairs are

* `perm_swapRemove` : what a removal from the list of values of a key leaves;
* `MultiMap.WellFormed` : keys in order, and none without values; kept by every change;
* `MultiMap.setValues` : a key with other values; `insert` and `delete` are cases of it;
* `WellFormed.pairwise_toList`, `mem_toList` : the pairs are in order, and are the values of each key;
* `toList_insert`, `toList_delete` : the pairs after a change, in any order;
* `delete_insert` : a pair that was not there comes and goes without a trace, in the very same order.
-/

set_option linter.unusedSectionVars false

namespace RowStore.MultiMap

variable {κ ν : Type}

/-! ## Removal from a list of values -/

theorem swapRemove_concat (vs : List ν) (v : ν) : swapRemove (vs ++ [v]) vs.length = vs := by
  simp [swapRemove]

theorem perm_cons_set {vs : List ν} {i : Nat} {v : ν} (h : vs[i]? = some v) (w : ν) :
    (v :: vs.set i w).Perm (w :: vs) := by
  obtain ⟨hi, rfl⟩ := List.getElem?_eq_some_iff.1 h
  have split : vs = vs.take i ++ vs[i] :: vs.drop (i + 1) := by simp
  rw [List.set_eq_take_append_cons_drop, if_pos hi]
  calc (vs[i] :: (vs.take i ++ w :: vs.drop (i + 1))).Perm
        (vs[i] :: w :: (vs.take i ++ vs.drop (i + 1))) := List.perm_middle.cons _
    _ |>.Perm (w :: vs[i] :: (vs.take i ++ vs.drop (i + 1))) := List.Perm.swap _ _ _
    _ |>.Perm (w :: (vs.take i ++ vs[i] :: vs.drop (i + 1))) := List.perm_middle.symm.cons _
    _ |>.Perm (w :: vs) := by rw [← split]

/-- Removal takes out the value at the place, and no other. -/
theorem perm_swapRemove {vs : List ν} {i : Nat} {v : ν} (h : vs[i]? = some v) :
    vs.Perm (v :: swapRemove vs i) := by
  rcases List.eq_nil_or_concat vs with rfl | ⟨front, last, rfl⟩
  · cases h
  rw [List.concat_eq_append] at h ⊢
  rcases Nat.lt_or_ge i front.length with hi | hi
  · rw [List.getElem?_append_left hi] at h
    rw [swapRemove, List.getLast?_concat]
    simp only [List.set_append_left _ _ hi, List.dropLast_concat]
    exact (List.perm_append_singleton _ _).trans (perm_cons_set h last).symm
  · have hlen := (List.getElem?_eq_some_iff.1 h).1
    have heq : i = front.length := by
      rw [List.length_append, List.length_singleton] at hlen
      omega
    subst heq
    rw [swapRemove_concat]
    have hv : last = v := by simpa using h
    rw [hv]
    exact List.perm_append_singleton _ _

/-! ## Well-formed maps -/

/-- The keys are in order, and each has a value. -/
structure WellFormed [Ord κ] (m : MultiMap κ ν) : Prop where
  sorted : m.groups.Sorted
  nonempty : ∀ g ∈ m.groups.entries, g.2 ≠ []

section Order
variable [Ord κ] [Std.TransOrd κ] [Std.LawfulEqOrd κ]

theorem wellFormed_empty : (∅ : MultiMap κ ν).WellFormed :=
  ⟨OrderedMap.sorted_empty, fun _ hg => absurd hg List.not_mem_nil⟩

theorem WellFormed.find?_ne_nil {m : MultiMap κ ν} (h : m.WellFormed) (k : κ) :
    m.groups.find? k ≠ some [] :=
  fun hf => h.nonempty _ ((OrderedMap.mem_entries h.sorted).2 hf) rfl

theorem WellFormed.find?_of_valuesOf {m : MultiMap κ ν} (h : m.WellFormed) {k : κ} :
    m.groups.find? k = if m.valuesOf k = [] then none else some (m.valuesOf k) := by
  have hne := h.find?_ne_nil k
  unfold valuesOf
  cases hf : m.groups.find? k with
  | none => rfl
  | some vs =>
    have hvs : vs ≠ [] := fun he => hne (he ▸ hf)
    simp [hvs]

def setValues (m : MultiMap κ ν) (k : κ) (vs : List ν) : MultiMap κ ν :=
  ⟨if vs = [] then m.groups.erase k else m.groups.insert k vs⟩

theorem WellFormed.setValues {m : MultiMap κ ν} (h : m.WellFormed) (k : κ) (vs : List ν) :
    (m.setValues k vs).WellFormed := by
  unfold MultiMap.setValues
  split
  · exact ⟨h.sorted.erase k, fun g hg => h.nonempty g (List.mem_filter.1 hg).1⟩
  · rename_i hvs
    refine ⟨h.sorted.insert k vs, fun g hg => ?_⟩
    rcases OrderedMap.mem_insertIn hg with rfl | hg
    · exact hvs
    · exact h.nonempty g hg

theorem valuesOf_setValues_self (m : MultiMap κ ν) (k : κ) (vs : List ν) :
    (m.setValues k vs).valuesOf k = vs := by
  unfold setValues valuesOf
  split
  · rename_i hvs
    rw [OrderedMap.find?_erase_self, hvs]
    rfl
  · rw [OrderedMap.find?_insert_self]
    rfl

theorem valuesOf_setValues_of_ne (m : MultiMap κ ν) {k k' : κ} (hk : k' ≠ k) (vs : List ν) :
    (m.setValues k vs).valuesOf k' = m.valuesOf k' := by
  unfold setValues valuesOf
  split
  · rw [OrderedMap.find?_erase_of_ne _ hk]
  · rw [OrderedMap.find?_insert_of_ne _ hk]

/-- Well-formed maps with the same values for each key are equal. -/
theorem ext {m m' : MultiMap κ ν} (h : m.WellFormed) (h' : m'.WellFormed)
    (hv : ∀ k, m.valuesOf k = m'.valuesOf k) : m = m' := by
  have hgroups : m.groups = m'.groups := by
    refine OrderedMap.ext h.sorted h'.sorted fun k => ?_
    rw [h.find?_of_valuesOf, h'.find?_of_valuesOf, hv]
  cases m
  cases m'
  exact congrArg MultiMap.mk hgroups

theorem setValues_setValues {m : MultiMap κ ν} (h : m.WellFormed) (k : κ) (vs : List ν) :
    (m.setValues k vs).setValues k (m.valuesOf k) = m := by
  refine ext ((h.setValues k vs).setValues k _) h fun k' => ?_
  by_cases hk : k' = k
  · rw [hk, valuesOf_setValues_self]
  · rw [valuesOf_setValues_of_ne _ hk, valuesOf_setValues_of_ne _ hk]

/-! ## Pairs -/

/-- The pairs are in the order of their keys. -/
theorem WellFormed.pairwise_toList {m : MultiMap κ ν} (h : m.WellFormed) :
    m.toList.Pairwise fun p q => (compare p.1 q.1).isLE := by
  unfold toList
  refine List.pairwise_flatMap.2 ⟨fun g _ => List.pairwise_map.2 ?_, h.sorted.imp ?_⟩
  · exact List.pairwise_of_forall fun _ _ => by rw [Std.ReflOrd.compare_self]; rfl
  · intro g g' hlt p hp q hq
    obtain ⟨_, -, rfl⟩ := List.mem_map.1 hp
    obtain ⟨_, -, rfl⟩ := List.mem_map.1 hq
    rw [hlt]
    rfl

/-- The pairs are those of one key and those of the others. -/
theorem toList_perm {m : MultiMap κ ν} (h : m.WellFormed) (k : κ) :
    m.toList.Perm ((m.valuesOf k).map (k, ·) ++ (m.setValues k []).toList) := by
  unfold toList setValues
  rw [if_pos rfl]
  by_cases hv : m.valuesOf k = []
  · have hf : m.groups.find? k = none := by rw [h.find?_of_valuesOf, if_pos hv]
    rw [hv, OrderedMap.erase_of_none h.sorted hf]
    exact List.Perm.refl _
  · have hf : m.groups.find? k = some (m.valuesOf k) := by rw [h.find?_of_valuesOf, if_neg hv]
    have hp := (OrderedMap.entries_perm h.sorted hf).flatMap_right fun g => g.2.map (g.1, ·)
    rwa [List.flatMap_cons] at hp

theorem toList_setValues {m : MultiMap κ ν} (h : m.WellFormed) (k : κ) (vs : List ν) :
    (m.setValues k vs).toList.Perm (vs.map (k, ·) ++ (m.setValues k []).toList) := by
  have hp := toList_perm (h.setValues k vs) k
  have hrest : (m.setValues k vs).setValues k [] = m.setValues k [] := by
    refine ext ((h.setValues k vs).setValues k _) (h.setValues k _) fun k' => ?_
    by_cases hk : k' = k
    · rw [hk, valuesOf_setValues_self, valuesOf_setValues_self]
    · simp only [valuesOf_setValues_of_ne _ hk]
  rwa [valuesOf_setValues_self, hrest] at hp

/-- The pairs are the values of each key. -/
theorem mem_toList {m : MultiMap κ ν} (h : m.WellFormed) {p : κ × ν} :
    p ∈ m.toList ↔ p.2 ∈ m.valuesOf p.1 := by
  unfold toList
  rw [List.mem_flatMap]
  constructor
  · rintro ⟨g, hg, hp⟩
    obtain ⟨v, hv, rfl⟩ := List.mem_map.1 hp
    rw [valuesOf, (OrderedMap.mem_entries h.sorted).1 hg]
    exact hv
  · intro hp
    have hv : m.valuesOf p.1 ≠ [] := List.ne_nil_of_mem hp
    have hf : m.groups.find? p.1 = some (m.valuesOf p.1) := by
      rw [h.find?_of_valuesOf, if_neg hv]
    exact ⟨_, (OrderedMap.mem_entries h.sorted).2 hf, List.mem_map.2 ⟨p.2, hp, rfl⟩⟩

/-! ## Changes -/

theorem insert_eq (m : MultiMap κ ν) (k : κ) (v : ν) :
    m.insert k v = m.setValues k (m.valuesOf k ++ [v]) := by
  unfold insert setValues
  rw [if_neg (List.append_ne_nil_of_right_ne_nil _ (List.cons_ne_nil _ _))]

theorem WellFormed.insert {m : MultiMap κ ν} (h : m.WellFormed) (k : κ) (v : ν) :
    (m.insert k v).WellFormed := insert_eq m k v ▸ h.setValues k _

/-- An insertion adds its pair. -/
theorem toList_insert {m : MultiMap κ ν} (h : m.WellFormed) (k : κ) (v : ν) :
    (m.insert k v).toList.Perm ((k, v) :: m.toList) := by
  rw [insert_eq]
  refine (toList_setValues h k _).trans (List.Perm.trans ?_ ((toList_perm h k).symm.cons (k, v)))
  rw [List.map_append, ← List.cons_append]
  exact (List.perm_append_singleton (k, v) _).append_right _

section Delete
variable [DecidableEq ν]

theorem delete_of_notMem {m : MultiMap κ ν} {k : κ} {v : ν} (hv : v ∉ m.valuesOf k) :
    m.delete k v = (false, m) := by
  have hnone : (m.valuesOf k).findIdx? (· = v) = none := by
    rw [List.findIdx?_eq_none_iff]
    intro w hw
    exact decide_eq_false fun he => hv (he ▸ hw)
  unfold delete
  rw [hnone]

theorem delete_of_findIdx {m : MultiMap κ ν} {k : κ} {v : ν} {i : Nat}
    (hi : (m.valuesOf k).findIdx? (· = v) = some i) :
    m.delete k v = (true, m.setValues k (swapRemove (m.valuesOf k) i)) := by
  unfold delete setValues
  rw [hi]
  dsimp only
  cases swapRemove (m.valuesOf k) i <;> rfl

/-- A removal of a pair that is there is one from the values of its key. -/
theorem delete_of_mem {m : MultiMap κ ν} {k : κ} {v : ν} (hv : v ∈ m.valuesOf k) :
    ∃ i, (m.valuesOf k)[i]? = some v ∧
      m.delete k v = (true, m.setValues k (swapRemove (m.valuesOf k) i)) := by
  cases hi : (m.valuesOf k).findIdx? (· = v) with
  | none => exact absurd (List.findIdx?_eq_none_iff.1 hi v hv) (by simp)
  | some i =>
    obtain ⟨hlt, hw, -⟩ := List.findIdx?_eq_some_iff_getElem.1 hi
    refine ⟨i, ?_, delete_of_findIdx hi⟩
    rw [List.getElem?_eq_getElem hlt, of_decide_eq_true hw]

theorem WellFormed.delete {m : MultiMap κ ν} (h : m.WellFormed) (k : κ) (v : ν) :
    (m.delete k v).2.WellFormed := by
  by_cases hv : v ∈ m.valuesOf k
  · obtain ⟨i, -, hd⟩ := delete_of_mem hv
    rw [hd]
    exact h.setValues k _
  · rw [delete_of_notMem hv]
    exact h

/-- A removal takes out its pair. -/
theorem toList_delete {m : MultiMap κ ν} (h : m.WellFormed) {k : κ} {v : ν}
    (hm : (k, v) ∈ m.toList) : m.toList.Perm ((k, v) :: (m.delete k v).2.toList) := by
  obtain ⟨i, hi, hd⟩ := delete_of_mem ((mem_toList h).1 hm)
  rw [hd]
  have hvalues := (perm_swapRemove hi).map (Prod.mk k)
  have hp := (toList_perm h k).trans (hvalues.append_right _)
  exact hp.trans ((toList_setValues h k _).symm.cons (k, v))

theorem delete_of_notMem_toList {m : MultiMap κ ν} (h : m.WellFormed) {k : κ} {v : ν}
    (hm : (k, v) ∉ m.toList) : m.delete k v = (false, m) :=
  delete_of_notMem fun hv => hm ((mem_toList h).2 hv)

/-- A pair that was not there comes and goes without a trace. -/
theorem delete_insert {m : MultiMap κ ν} (h : m.WellFormed) {k : κ} {v : ν}
    (hm : (k, v) ∉ m.toList) : (m.insert k v).delete k v = (true, m) := by
  have fresh : v ∉ m.valuesOf k := fun hv => hm ((mem_toList h).2 hv)
  have hvalues : (m.insert k v).valuesOf k = m.valuesOf k ++ [v] := by
    rw [insert_eq, valuesOf_setValues_self]
  have hi : ((m.insert k v).valuesOf k).findIdx? (· = v) = some (m.valuesOf k).length := by
    have hnone : (m.valuesOf k).findIdx? (fun w => decide (w = v)) = none :=
      List.findIdx?_eq_none_iff.2 fun w hw => decide_eq_false fun he => fresh (he ▸ hw)
    rw [hvalues, List.findIdx?_append, hnone]
    simp
  rw [delete_of_findIdx hi, hvalues, swapRemove_concat, insert_eq, setValues_setValues h]

end Delete

/-! ## Insertion under a fresh key -/

theorem insertUnique_of_nil {m : MultiMap κ ν} {k : κ} (hk : m.valuesOf k = []) (v : ν) :
    m.insertUnique k v = (none, m.insert k v) := by
  unfold insertUnique
  rw [hk]

theorem insertUnique_of_ne_nil {m : MultiMap κ ν} {k : κ} (hk : m.valuesOf k ≠ []) (v : ν) :
    ∃ w ∈ m.valuesOf k, m.insertUnique k v = (some w, m) := by
  unfold insertUnique
  cases hv : m.valuesOf k with
  | nil => exact absurd hv hk
  | cons w ws => exact ⟨w, List.mem_cons_self, rfl⟩

end Order

end RowStore.MultiMap
