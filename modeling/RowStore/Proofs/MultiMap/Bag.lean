import Mathlib.Data.Finset.Card
import RowStore.Proofs.MultiMap

/-!
# A map from keys to several values is a bag of pairs in key order

* `bag` : the pairs of a map, in any order; `bag_insert`, `bag_delete` : the bag after a change;
* `WellFormed.keyCount_eq_card`, `WellFormed.isEmpty_iff`, `size_eq_length`, `backward_eq_reverse` :
  what the counts and the way back say of the pairs;
* `Call`, `Call.run` : a change of a map, and its answer;
* `Call.onBag`, `Call.Answers` : what the change makes of a bag, and the answer that it should give;
* `Call.run_refines` : one change of a well-formed map;
* `after_shows_bag` : what every map shows that changes of the empty one lead to.
-/

namespace RowStore.MultiMap

variable {κ ν : Type}

def bag (m : MultiMap κ ν) : Multiset (κ × ν) := m.toList

/-! ## Counts and the way back -/

/-- The way back is the way there, reversed. -/
theorem backward_eq_reverse (m : MultiMap κ ν) : m.backward = m.toList.reverse := by
  unfold backward toList
  rw [List.reverse_flatMap]
  simp only [Function.comp_def, List.map_reverse]

theorem size_eq_length (m : MultiMap κ ν) : m.size = m.toList.length := by
  unfold size toList
  induction m.groups.entries with
  | nil => rfl
  | cons g gs ih => rw [List.foldr_cons, ih, List.flatMap_cons, List.length_append, List.length_map]

section Order
variable [Ord κ] {m : MultiMap κ ν}

/-- A key has pairs just if it is bound. -/
theorem WellFormed.mem_keys (h : m.WellFormed) {k : κ} :
    k ∈ m.toList.map (·.1) ↔ k ∈ m.groups.keys := by
  rw [List.mem_map, OrderedMap.keys, List.mem_map]
  constructor
  · rintro ⟨p, hp, rfl⟩
    obtain ⟨g, hg, hp⟩ := List.mem_flatMap.1 hp
    obtain ⟨v, -, rfl⟩ := List.mem_map.1 hp
    exact ⟨g, hg, rfl⟩
  · rintro ⟨g, hg, rfl⟩
    obtain ⟨v, hv⟩ := List.exists_mem_of_ne_nil _ (h.nonempty g hg)
    exact ⟨(g.1, v), List.mem_flatMap.2 ⟨g, hg, List.mem_map.2 ⟨v, hv, rfl⟩⟩, rfl⟩

/-- There is no pair just if no key is bound. -/
theorem WellFormed.isEmpty_iff (h : m.WellFormed) : m.isEmpty = true ↔ m.toList = [] := by
  unfold isEmpty
  rw [List.isEmpty_iff]
  constructor
  · intro hno
    unfold toList
    rw [hno, List.flatMap_nil]
  · intro hno
    rw [List.eq_nil_iff_forall_not_mem]
    intro g hg
    have hk : g.1 ∈ m.toList.map (·.1) := h.mem_keys.2 (List.mem_map_of_mem hg)
    rw [hno] at hk
    cases hk

variable [Std.LawfulEqOrd κ] [DecidableEq κ]

/-- The number of bound keys is that of the distinct keys of the pairs. -/
theorem WellFormed.keyCount_eq_card (h : m.WellFormed) :
    m.keyCount = (m.toList.map (·.1)).toFinset.card := by
  have hkeys : (m.toList.map (·.1)).toFinset = m.groups.keys.toFinset := by
    ext k
    rw [List.mem_toFinset, List.mem_toFinset, h.mem_keys]
  rw [hkeys, List.toFinset_card_of_nodup h.sorted.nodup_keys]
  exact (List.length_map _).symm

end Order

/-! ## Calls -/

/-- A change of a map. -/
inductive Call (κ ν : Type) where
  | insert (k : κ) (v : ν)
  | insertUnique (k : κ) (v : ν)
  | delete (k : κ) (v : ν)
  | clear

inductive Answer (ν : Type) where
  /-- Nothing. -/
  | done
  /-- The value in the way of a pair that was to be the only one of its key. -/
  | inTheWay (w : Option ν)
  /-- There was a pair to remove. -/
  | found (b : Bool)

namespace Call
variable [Ord κ] [DecidableEq κ] [DecidableEq ν]

def run : Call κ ν → MultiMap κ ν → Answer ν × MultiMap κ ν
  | insert k v, m => (.done, m.insert k v)
  | insertUnique k v, m => (.inTheWay (m.insertUnique k v).1, (m.insertUnique k v).2)
  | delete k v, m => (.found (m.delete k v).1, (m.delete k v).2)
  | clear, _ => (.done, ∅)

def onBag : Call κ ν → Multiset (κ × ν) → Multiset (κ × ν)
  | insert k v, b => (k, v) ::ₘ b
  | insertUnique k v, b => if k ∈ b.map (·.1) then b else (k, v) ::ₘ b
  | delete k v, b => b.erase (k, v)
  | clear, _ => 0

/-- The answer that a change should give on a bag. -/
def Answers (b : Multiset (κ × ν)) : Call κ ν → Answer ν → Prop
  | insert _ _, .done => True
  | insertUnique k _, .inTheWay none => k ∉ b.map (·.1)
  | insertUnique k _, .inTheWay (some w) => (k, w) ∈ b
  | delete k v, .found there => there = true ↔ (k, v) ∈ b
  | clear, .done => True
  | _, _ => False

end Call

/-- The map that changes of the empty one lead to. -/
def after [Ord κ] [DecidableEq ν] (calls : List (Call κ ν)) : MultiMap κ ν :=
  calls.foldl (fun m c => (c.run m).2) ∅

/-- The bag that changes of the empty one lead to. -/
def bagAfter [DecidableEq κ] [DecidableEq ν] (calls : List (Call κ ν)) : Multiset (κ × ν) :=
  calls.foldl (fun b c => c.onBag b) 0

/-! ## Changes of the bag -/

section Changes
variable [Ord κ] [Std.TransOrd κ] [Std.LawfulEqOrd κ] {m : MultiMap κ ν}

theorem bag_insert (h : m.WellFormed) (k : κ) (v : ν) : (m.insert k v).bag = (k, v) ::ₘ m.bag :=
  Multiset.coe_eq_coe.2 (toList_insert h k v)

theorem mem_bag (h : m.WellFormed) {k : κ} {v : ν} : (k, v) ∈ m.bag ↔ v ∈ m.valuesOf k :=
  mem_toList h

/-- A key has no values just if it is none of the keys of the bag. -/
theorem valuesOf_eq_nil_iff (h : m.WellFormed) {k : κ} :
    m.valuesOf k = [] ↔ k ∉ m.bag.map (·.1) := by
  rw [List.eq_nil_iff_forall_not_mem, Multiset.mem_map]
  constructor
  · rintro hno ⟨⟨_, v⟩, hp, rfl⟩
    exact hno v ((mem_bag h).1 hp)
  · intro hno v hv
    exact hno ⟨(k, v), (mem_bag h).2 hv, rfl⟩

variable [DecidableEq ν]

/-- A removal says whether there was a pair. -/
theorem delete_fst_iff (h : m.WellFormed) (k : κ) (v : ν) :
    (m.delete k v).1 = true ↔ (k, v) ∈ m.bag := by
  rw [mem_bag h]
  by_cases hv : v ∈ m.valuesOf k
  · obtain ⟨i, -, hd⟩ := delete_of_mem hv
    simp [hd, hv]
  · simp [delete_of_notMem hv, hv]

variable [DecidableEq κ]

theorem bag_delete (h : m.WellFormed) (k : κ) (v : ν) :
    (m.delete k v).2.bag = m.bag.erase (k, v) := by
  by_cases hm : (k, v) ∈ m.toList
  · have hp : m.bag = (k, v) ::ₘ (m.delete k v).2.bag := Multiset.coe_eq_coe.2 (toList_delete h hm)
    rw [hp, Multiset.erase_cons_head]
  · rw [delete_of_notMem_toList h hm]
    exact (Multiset.erase_of_notMem hm).symm

/-- What a change does to a well-formed map, seen as a bag: the map stays well-formed, its bag is the one
that should come of it, and so is the answer. -/
theorem Call.run_refines (c : Call κ ν) (h : m.WellFormed) :
    (c.run m).2.WellFormed ∧ (c.run m).2.bag = c.onBag m.bag ∧ c.Answers m.bag (c.run m).1 := by
  cases c with
  | insert k v => exact ⟨h.insert k v, bag_insert h k v, trivial⟩
  | insertUnique k v =>
    change (m.insertUnique k v).2.WellFormed ∧
      (m.insertUnique k v).2.bag = (if k ∈ m.bag.map (·.1) then m.bag else (k, v) ::ₘ m.bag) ∧
      Call.Answers m.bag (.insertUnique k v) (.inTheWay (m.insertUnique k v).1)
    by_cases hk : m.valuesOf k = []
    · have hfresh := (valuesOf_eq_nil_iff h).1 hk
      rw [insertUnique_of_nil hk, if_neg hfresh]
      exact ⟨h.insert k v, bag_insert h k v, hfresh⟩
    · obtain ⟨w, hw, hkept⟩ := insertUnique_of_ne_nil hk v
      rw [hkept, if_pos (not_not.1 (mt (valuesOf_eq_nil_iff h).2 hk))]
      exact ⟨h, rfl, (mem_bag h).2 hw⟩
  | delete k v => exact ⟨h.delete k v, bag_delete h k v, delete_fst_iff h k v⟩
  | clear => exact ⟨wellFormed_empty, rfl, trivial⟩

/-- Changes lead from a well-formed map to one that is the bag that the changes lead to. -/
theorem foldl_run_refines (calls : List (Call κ ν)) (h : m.WellFormed) :
    (calls.foldl (fun m c => (c.run m).2) m).WellFormed ∧
      (calls.foldl (fun m c => (c.run m).2) m).bag = calls.foldl (fun b c => c.onBag b) m.bag := by
  induction calls generalizing m with
  | nil => exact ⟨h, rfl⟩
  | cons c calls ih =>
    obtain ⟨hw, hbag, -⟩ := c.run_refines h
    rw [List.foldl_cons, List.foldl_cons, ← hbag]
    exact ih hw

end Changes

/-! ## Every map -/

/-- A map shows a bag of pairs: all of them and no others, in key order, and the same on the way back; and
its counts are those of the bag. -/
structure Shows [Ord κ] [DecidableEq κ] (m : MultiMap κ ν) (b : Multiset (κ × ν)) : Prop where
  pairs : (m.toList : Multiset (κ × ν)) = b
  ordered : m.toList.Pairwise fun p q => (compare p.1 q.1).isLE
  backward : m.backward = m.toList.reverse
  size : m.size = m.toList.length
  keyCount : m.keyCount = (b.map (·.1)).toFinset.card
  isEmpty : m.isEmpty = true ↔ b = 0

section Every
variable [Ord κ] [Std.TransOrd κ] [Std.LawfulEqOrd κ] [DecidableEq κ] [DecidableEq ν]

/-- Whatever changes were made of the empty map, it shows the bag that they make of the empty bag, and
each change after them gives the answer that it should give on that bag. -/
theorem after_shows_bag (calls : List (Call κ ν)) :
    (after calls).Shows (bagAfter calls) ∧
      ∀ c : Call κ ν, c.Answers (bagAfter calls) (c.run (after calls)).1 := by
  obtain ⟨h, hbag⟩ := foldl_run_refines calls (wellFormed_empty (κ := κ) (ν := ν))
  change (after calls).WellFormed at h
  change (after calls).bag = bagAfter calls at hbag
  rw [← hbag]
  refine ⟨⟨rfl, h.pairwise_toList, backward_eq_reverse _, size_eq_length _, h.keyCount_eq_card, ?_⟩,
    fun c => (c.run_refines h).2.2⟩
  rw [h.isEmpty_iff]
  exact (Multiset.coe_eq_zero _).symm

/-- The value that takes the place of a removed one is listed there. -/
theorem after_shows_swapped_pairs :
    let calls : List (Call Int Int) := [.insert 2 20, .insert 1 10, .insert 1 11, .insert 1 12,
      .insertUnique 1 13, .insertUnique 3 30, .delete 1 10, .delete 1 10, .delete 3 30]
    (after calls).toList = [(1, 12), (1, 11), (2, 20)] ∧ (after calls).Shows (bagAfter calls) ∧
      (after calls).keyCount = 2 := by
  intro calls
  have h := (after_shows_bag calls).1
  exact ⟨by decide, h, h.keyCount.trans (by decide)⟩

end Every

end RowStore.MultiMap
