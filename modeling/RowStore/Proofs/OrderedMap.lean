import RowStore.OrderedMap

/-!
# Maps in key order: what look-ups see

* `OrderedMap.Sorted` : each key once, in order; kept by `insert` and `erase`;
* `find?_insert`, `find?_erase` : a map after a change, look-up by look-up;
* `mem_entries` : in a sorted map the bindings are the look-ups;
* `ext` : sorted maps with the same look-ups are equal, hence `erase_insert`, `insert_erase`;
* `entries_perm` : a binding and the rest, hence `size_insert`.
-/

set_option linter.unusedSectionVars false

namespace RowStore.OrderedMap

variable {κ ν : Type} [Ord κ]

/-- Each key is bound once, and the bindings are in the order of their keys. -/
def Sorted (m : OrderedMap κ ν) : Prop := m.entries.Pairwise fun a b => compare a.1 b.1 = .lt

theorem sorted_empty : (∅ : OrderedMap κ ν).Sorted := List.Pairwise.nil

/-! ## Look-ups after a change -/

theorem findIn_filter_self (k : κ) (es : List (κ × ν)) :
    findIn k (es.filter fun e => compare k e.1 ≠ .eq) = none := by
  induction es with
  | nil => rfl
  | cons e es ih =>
    rw [List.filter_cons]
    split
    · rename_i h
      have hne : compare k e.1 ≠ .eq := of_decide_eq_true h
      simp only [findIn, if_neg hne, ih]
    · exact ih

theorem find?_erase_self (m : OrderedMap κ ν) (k : κ) : (m.erase k).find? k = none :=
  findIn_filter_self k m.entries

section Lookup
variable [Std.LawfulEqOrd κ]

theorem findIn_insertIn_self (k : κ) (v : ν) (es : List (κ × ν)) :
    findIn k (insertIn k v es) = some v := by
  induction es with
  | nil => simp [insertIn, findIn]
  | cons e es ih =>
    unfold insertIn
    split
    · simp [findIn]
    · simp [findIn]
    · rename_i h
      simp [findIn, h, ih]

theorem findIn_insertIn_of_ne {k k' : κ} (h : k' ≠ k) (v : ν) (es : List (κ × ν)) :
    findIn k' (insertIn k v es) = findIn k' es := by
  have hk : compare k' k ≠ .eq := fun he => h (Std.LawfulEqOrd.eq_of_compare he)
  induction es with
  | nil => simp [insertIn, findIn, hk]
  | cons e es ih =>
    unfold insertIn
    split
    · simp [findIn, hk]
    · rename_i he
      have hke : k = e.1 := Std.LawfulEqOrd.eq_of_compare he
      simp [findIn, hk, ← hke]
    · simp [findIn, ih]

theorem find?_insert_self (m : OrderedMap κ ν) (k : κ) (v : ν) : (m.insert k v).find? k = some v :=
  findIn_insertIn_self k v m.entries

theorem find?_insert_of_ne (m : OrderedMap κ ν) {k k' : κ} (h : k' ≠ k) (v : ν) :
    (m.insert k v).find? k' = m.find? k' := findIn_insertIn_of_ne h v m.entries

theorem findIn_filter_of_ne {k k' : κ} (h : k' ≠ k) (es : List (κ × ν)) :
    findIn k' (es.filter fun e => compare k e.1 ≠ .eq) = findIn k' es := by
  induction es with
  | nil => rfl
  | cons e es ih =>
    rw [List.filter_cons]
    split
    · simp only [findIn, ih]
    · rename_i he
      have heq : k = e.1 := Std.LawfulEqOrd.eq_of_compare (by simpa using he)
      have hne : compare k' e.1 ≠ .eq := fun hc =>
        h ((Std.LawfulEqOrd.eq_of_compare hc).trans heq.symm)
      rw [ih, findIn, if_neg hne]

theorem find?_erase_of_ne (m : OrderedMap κ ν) {k k' : κ} (h : k' ≠ k) :
    (m.erase k).find? k' = m.find? k' := findIn_filter_of_ne h m.entries

theorem Sorted.nodup_keys {m : OrderedMap κ ν} (h : m.Sorted) : m.keys.Nodup :=
  List.pairwise_map.2 (h.imp fun hlt he => by
    rw [he, Std.ReflOrd.compare_self] at hlt
    cases hlt)

theorem Sorted.nodup {m : OrderedMap κ ν} (h : m.Sorted) : m.entries.Nodup :=
  List.Pairwise.imp (fun hlt he => by rw [he, Std.ReflOrd.compare_self] at hlt; cases hlt) h

end Lookup

/-! ## Sorted maps -/

theorem Sorted.erase {m : OrderedMap κ ν} (h : m.Sorted) (k : κ) : (m.erase k).Sorted :=
  List.Pairwise.filter _ h

theorem mem_insertIn {k : κ} {v : ν} {es : List (κ × ν)} {e : κ × ν} (h : e ∈ insertIn k v es) :
    e = (k, v) ∨ e ∈ es := by
  induction es with
  | nil => exact Or.inl (List.mem_singleton.1 h)
  | cons a es ih =>
    unfold insertIn at h
    split at h
    · exact List.mem_cons.1 h
    · rcases List.mem_cons.1 h with h | h
      · exact Or.inl h
      · exact Or.inr (List.mem_cons_of_mem _ h)
    · rcases List.mem_cons.1 h with h | h
      · exact Or.inr (h ▸ List.mem_cons_self)
      · exact (ih h).imp id (List.mem_cons_of_mem _)

section Order
variable [Std.TransOrd κ] [Std.LawfulEqOrd κ]

theorem sorted_insertIn (k : κ) (v : ν) {es : List (κ × ν)}
    (h : es.Pairwise fun a b => compare a.1 b.1 = .lt) :
    (insertIn k v es).Pairwise fun a b => compare a.1 b.1 = .lt := by
  induction es with
  | nil => exact List.pairwise_singleton _ _
  | cons e es ih =>
    obtain ⟨he, hes⟩ := List.pairwise_cons.1 h
    unfold insertIn
    split
    · rename_i hlt
      refine List.pairwise_cons.2 ⟨fun a ha => ?_, h⟩
      rcases List.mem_cons.1 ha with rfl | ha
      · exact hlt
      · exact Std.TransCmp.lt_trans hlt (he a ha)
    · rename_i heq
      rw [Std.LawfulEqOrd.eq_of_compare heq]
      exact List.pairwise_cons.2 ⟨he, hes⟩
    · rename_i hgt
      refine List.pairwise_cons.2 ⟨fun a ha => ?_, ih hes⟩
      rcases mem_insertIn ha with rfl | ha
      · exact Std.OrientedCmp.gt_iff_lt.1 hgt
      · exact he a ha

theorem Sorted.insert {m : OrderedMap κ ν} (h : m.Sorted) (k : κ) (v : ν) : (m.insert k v).Sorted :=
  sorted_insertIn k v h

theorem mem_iff_findIn {es : List (κ × ν)} (h : es.Pairwise fun a b => compare a.1 b.1 = .lt)
    {k : κ} {v : ν} : (k, v) ∈ es ↔ findIn k es = some v := by
  induction es with
  | nil => simp [findIn]
  | cons e es ih =>
    obtain ⟨he, hes⟩ := List.pairwise_cons.1 h
    rw [List.mem_cons, ih hes, findIn]
    constructor
    · rintro (rfl | hf)
      · simp
      · have hlt := he _ ((ih hes).2 hf)
        rw [if_neg (fun hc => by rw [Std.OrientedCmp.eq_comm.1 hc] at hlt; cases hlt)]
        exact hf
    · intro hf
      split at hf
      · rename_i hc
        cases hf
        exact Or.inl (by rw [Std.LawfulEqOrd.eq_of_compare hc])
      · exact Or.inr hf

theorem exists_of_findIn {es : List (κ × ν)} {k : κ} {v : ν} (h : findIn k es = some v) :
    ∃ p ∈ es, p.2 = v := by
  induction es with
  | nil => cases h
  | cons e es ih =>
    unfold findIn at h
    split at h
    · exact ⟨e, List.mem_cons_self, Option.some.inj h⟩
    · obtain ⟨p, hp, hv⟩ := ih h
      exact ⟨p, List.mem_cons_of_mem _ hp, hv⟩

/-- The bindings of a sorted map are its look-ups. -/
theorem mem_entries {m : OrderedMap κ ν} (h : m.Sorted) {k : κ} {v : ν} :
    (k, v) ∈ m.entries ↔ m.find? k = some v := mem_iff_findIn h

/-- Sorted maps with the same bindings in any order are equal. -/
theorem eq_of_perm {m m' : OrderedMap κ ν} (h : m.Sorted) (h' : m'.Sorted)
    (hp : m.entries.Perm m'.entries) : m = m' := by
  have hlists : m.entries = m'.entries :=
    List.Perm.eq_of_pairwise (fun a b _ _ hab hba => by
      rw [Std.OrientedOrd.eq_swap, hba] at hab; cases hab) h h' hp
  cases m
  cases m'
  exact congrArg OrderedMap.mk hlists

/-- Sorted maps with the same look-ups are equal. -/
theorem ext {m m' : OrderedMap κ ν} (h : m.Sorted) (h' : m'.Sorted)
    (hf : ∀ k, m.find? k = m'.find? k) : m = m' := by
  refine eq_of_perm h h' ((List.perm_ext_iff_of_nodup h.nodup h'.nodup).2 fun e => ?_)
  rw [mem_entries h, mem_entries h', hf]

theorem erase_insert {m : OrderedMap κ ν} (h : m.Sorted) {k : κ} (hk : m.find? k = none) (v : ν) :
    (m.insert k v).erase k = m := by
  refine ext ((h.insert k v).erase k) h fun k' => ?_
  by_cases hkk : k' = k
  · rw [hkk, find?_erase_self, hk]
  · rw [find?_erase_of_ne _ hkk, find?_insert_of_ne _ hkk]

theorem insert_erase {m : OrderedMap κ ν} (h : m.Sorted) {k : κ} {v : ν} (hk : m.find? k = some v) :
    (m.erase k).insert k v = m := by
  refine ext ((h.erase k).insert k v) h fun k' => ?_
  by_cases hkk : k' = k
  · rw [hkk, find?_insert_self, hk]
  · rw [find?_insert_of_ne _ hkk, find?_erase_of_ne _ hkk]

/-- A sorted map is one of its bindings and the rest. -/
theorem entries_perm {m : OrderedMap κ ν} (h : m.Sorted) {k : κ} {v : ν} (hk : m.find? k = some v) :
    m.entries.Perm ((k, v) :: (m.erase k).entries) := by
  have fresh : (k, v) ∉ (m.erase k).entries := fun hm => by
    rw [mem_entries (h.erase k), find?_erase_self] at hm
    cases hm
  refine (List.perm_ext_iff_of_nodup h.nodup
    (List.nodup_cons.2 ⟨fresh, (h.erase k).nodup⟩)).2 fun e => ?_
  rw [List.mem_cons, mem_entries h, mem_entries (h.erase k)]
  by_cases he : e.1 = k
  · rw [he, find?_erase_self, hk]
    constructor
    · intro hv
      exact Or.inl (Prod.ext he (Option.some.inj hv).symm)
    · rintro (rfl | hv)
      · rfl
      · cases hv
  · rw [find?_erase_of_ne _ he]
    constructor
    · exact Or.inr
    · rintro (rfl | hv)
      · exact absurd rfl he
      · exact hv

/-- One binding more, unless the key was bound before. -/
theorem size_insert {m : OrderedMap κ ν} (h : m.Sorted) (k : κ) (v : ν) :
    (m.insert k v).size = (m.erase k).size + 1 := by
  have herase : (m.insert k v).erase k = m.erase k := by
    refine ext ((h.insert k v).erase k) (h.erase k) fun k' => ?_
    by_cases hkk : k' = k
    · rw [hkk, find?_erase_self, find?_erase_self]
    · rw [find?_erase_of_ne _ hkk, find?_insert_of_ne _ hkk, find?_erase_of_ne _ hkk]
  have hp := entries_perm (h.insert k v) (find?_insert_self m k v)
  rw [herase] at hp
  exact hp.length_eq

/-- Without a binding there is nothing to unbind. -/
theorem erase_of_none {m : OrderedMap κ ν} (h : m.Sorted) {k : κ} (hk : m.find? k = none) :
    m.erase k = m := by
  refine ext (h.erase k) h fun k' => ?_
  by_cases hkk : k' = k
  · rw [hkk, find?_erase_self, hk]
  · rw [find?_erase_of_ne _ hkk]

end Order

end RowStore.OrderedMap
