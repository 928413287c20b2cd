import Mathlib.Data.List.Chain
import Mathlib.Data.List.Nodup
import Mathlib.Logic.Relation
import Mathlib.Order.MinMax
import RowStore.WaitGraph

/-!
# What a search for a cycle finds

* `Way` : a way along a relation from one session to another;
* `WaitGraph.Waits` : an edge between two sessions;
* `look_fst`, `mem_look` : what is seen from one session;
* `Going` : what is known after every round of a search, kept by `Going.next`;
* `search_cycle`, `search_noCycle` : a way that was found, and none where none was;
* `way_of_findCycle`, `not_transGen_of_findCycle` : so a search finds a way just where there is one;
* `Acyclic` : a relation without cycles, and what can be added to it.
-/

namespace RowStore
open Relation

/-! ## Ways -/

/-- A way from `a` to `b`: it starts at `a`, meets nobody twice, and each session on it stands in the
relation to the next, as the last does to `b`. -/
structure Way (R : Nat → Nat → Prop) (a b : Nat) (path : List Nat) : Prop where
  starts : path.head? = some a
  once : path.Nodup
  chain : (path ++ [b]).IsChain R

/-- A way leads where it says. -/
theorem Way.transGen {R : Nat → Nat → Prop} {a b : Nat} {path : List Nat} (h : Way R a b path) :
    TransGen R a b := by
  obtain ⟨hstarts, -, hchain⟩ := h
  induction path generalizing a with
  | nil => cases hstarts
  | cons c path ih =>
    cases hstarts
    cases path with
    | nil => exact .single (List.isChain_pair.1 hchain)
    | cons d path =>
      obtain ⟨hcd, hrest⟩ := List.isChain_cons_cons.1 hchain
      exact .head hcd (ih rfl hrest)

namespace WaitGraph

def Waits (g : WaitGraph) (a b : Nat) : Prop := b ∈ g.blockers a ∧ b ≠ a

/-! ## One session's blockers -/

section Look
variable {clash node b : Nat} {bs visited : List Nat}

theorem look_fst : (look clash node visited bs).1 = true ↔ clash ∈ bs ∧ clash ≠ node := by
  induction bs generalizing visited with
  | nil => simp [look]
  | cons c cs ih =>
    rw [List.mem_cons]
    unfold look
    split
    · rename_i hc
      rw [ih, hc]
      exact and_congr_left fun hne => (or_iff_right hne).symm
    · rename_i hc
      split
      · rename_i he
        exact iff_of_true rfl ⟨Or.inl he.symm, he ▸ hc⟩
      · rename_i he
        split <;> exact ih.trans (and_congr_left' (or_iff_right fun h => he h.symm).symm)

theorem ne_of_mem_look (h : b ∈ (look clash node visited bs).2) : b ≠ node := by
  induction bs generalizing visited with
  | nil => simp [look] at h
  | cons c cs ih =>
    unfold look at h
    split at h
    · exact ih h
    · rename_i hc
      split at h
      · simp at h
      · split at h
        · exact ih h
        · rcases List.mem_cons.1 h with rfl | h
          · exact hc
          · exact ih h

theorem nodup_look : (look clash node visited bs).2.Nodup := by
  induction bs generalizing visited with
  | nil => exact List.nodup_nil
  | cons c cs ih =>
    unfold look
    split
    · exact ih
    · split
      · exact List.nodup_nil
      · split
        · exact ih
        · exact List.nodup_cons.2 ⟨fun h => (mem_of_mem_look h).2 List.mem_cons_self, ih⟩

/-- Where the session looked for is not among the blockers, all of them are seen. -/
theorem mem_look (hl : (look clash node visited bs).1 = false) (hb : b ∈ bs) (hne : b ≠ node) :
    b ∈ visited ∨ b ∈ (look clash node visited bs).2 := by
  induction bs generalizing visited with
  | nil => cases hb
  | cons c cs ih =>
    unfold look at hl ⊢
    split at hl
    · rename_i hc
      rw [if_pos hc]
      exact ih hl ((List.mem_cons.1 hb).resolve_left fun h => hne (h.trans hc))
    · rename_i hc
      rw [if_neg hc]
      split at hl
      · cases hl
      · rename_i he
        rw [if_neg he]
        split at hl
        · rename_i hv
          rw [if_pos hv]
          rcases List.mem_cons.1 hb with rfl | hb
          · exact Or.inl hv
          · exact ih hl hb
        · rename_i hv
          rw [if_neg hv, List.mem_cons]
          rcases List.mem_cons.1 hb with rfl | hb
          · exact Or.inr (Or.inl rfl)
          · rcases ih hl hb with h | h
            · exact (List.mem_cons.1 h).elim (fun h => Or.inr (Or.inl h)) Or.inl
            · exact Or.inr (Or.inr h)

end Look

/-! ## The rounds of a search -/

section Search
variable {g : WaitGraph} {clash start node depth : Nat} {old visited path : List Nat}
  {stack : List (Nat × Nat)}

/-- What is known between the rounds of a search from `start`.  The stack is sorted by depth, so that
a session that is taken off it later finds its way still there. -/
structure Going (g : WaitGraph) (clash start : Nat) (old visited path : List Nat)
    (stack : List (Nat × Nat)) : Prop where
  seen : ∀ n ∈ path ++ stack.map (·.1), n ∈ visited
  once : (path ++ stack.map (·.1)).Nodup
  deeper : stack.Pairwise fun a b => b.2 ≤ a.2
  ways : ∀ e ∈ stack, e.2 ≤ path.length ∧ (path.take e.2 ++ [e.1]).head? = some start ∧
    (path.take e.2 ++ [e.1]).IsChain g.Waits
  done : ∀ n ∈ visited, n ∈ old ∨ n ∈ stack.map (·.1) ∨ ∀ b, g.Waits n b → b ≠ clash ∧ b ∈ visited

theorem going_start (g : WaitGraph) (clash start : Nat) (old : List Nat) :
    Going g clash start old (start :: old) [] [(start, 0)] where
  seen n h := (List.mem_singleton.1 h) ▸ List.mem_cons_self
  once := List.nodup_singleton start
  deeper := List.pairwise_singleton _ _
  ways e h := by
    cases List.mem_singleton.1 h
    exact ⟨le_rfl, rfl, List.isChain_singleton start⟩
  done n h := (List.mem_cons.1 h).elim
    (fun h => Or.inr (Or.inl (List.mem_singleton.2 h))) Or.inl

/-- The way to the session that is worked off next. -/
theorem Going.way (h : Going g clash start old visited path ((node, depth) :: stack)) :
    depth ≤ path.length ∧ (path.take depth ++ [node]).head? = some start ∧
      (path.take depth ++ [node]).IsChain g.Waits := h.ways _ List.mem_cons_self

/-- It meets no session twice, nor one of the stack. -/
theorem Going.once_popped (h : Going g clash start old visited path ((node, depth) :: stack)) :
    (path.take depth ++ [node] ++ stack.map (·.1)).Nodup := by
  rw [List.append_assoc]
  exact h.once.sublist ((List.take_sublist depth path).append (List.Sublist.refl _))

theorem Going.seen_popped (h : Going g clash start old visited path ((node, depth) :: stack))
    {n : Nat} (hn : n ∈ path.take depth ++ [node] ++ stack.map (·.1)) : n ∈ visited := by
  rw [List.append_assoc] at hn
  refine h.seen n (List.Sublist.subset ?_ hn)
  exact (List.take_sublist depth path).append (List.Sublist.refl _)

/-- A round that does not see the session looked for. -/
theorem Going.next (h : Going g clash start old visited path ((node, depth) :: stack))
    (hl : (look clash node visited (g.blockers node)).1 = false) :
    Going g clash start old ((look clash node visited (g.blockers node)).2.reverse ++ visited)
      (path.take depth ++ [node])
      ((look clash node visited (g.blockers node)).2.reverse.map (·, depth + 1) ++ stack) := by
  obtain ⟨hdepth, hhead, hchain⟩ := h.way
  obtain ⟨hshallow, hdeeper⟩ := List.pairwise_cons.1 h.deeper
  generalize hfresh : (look clash node visited (g.blockers node)).2.reverse = fresh
  have hmem : ∀ b ∈ fresh, g.Waits node b ∧ b ∉ visited := by
    intro b hb
    rw [← hfresh, List.mem_reverse] at hb
    exact ⟨⟨(mem_of_mem_look hb).1, ne_of_mem_look hb⟩, (mem_of_mem_look hb).2⟩
  have hnodes : (fresh.map (·, depth + 1) ++ stack).map (·.1) = fresh ++ stack.map (·.1) := by
    rw [List.map_append, List.map_map]
    exact congrArg (· ++ _) (List.map_id fresh)
  have hlength : (path.take depth ++ [node]).length = depth + 1 := by
    rw [List.length_append, List.length_take, Nat.min_eq_left hdepth, List.length_singleton]
  refine ⟨?_, ?_, ?_, ?_, ?_⟩
  · intro n hn
    rw [hnodes] at hn
    rcases List.mem_append.1 hn with hn | hn
    · exact List.mem_append_right _ (h.seen_popped (List.mem_append_left _ hn))
    · rcases List.mem_append.1 hn with hn | hn
      · exact List.mem_append_left _ hn
      · exact List.mem_append_right _ (h.seen_popped (List.mem_append_right _ hn))
  · -- The fresh sessions come in between; none of them was seen, and the others all were.
    have hfreshOnce : fresh.Nodup := hfresh ▸ List.nodup_reverse.2 nodup_look
    obtain ⟨hpath, hstack, hapart⟩ := List.nodup_append'.1 h.once_popped
    rw [hnodes]
    refine List.nodup_append'.2 ⟨hpath, List.nodup_append'.2 ⟨hfreshOnce, hstack, ?_⟩, ?_⟩
    · intro n hn hs
      exact (hmem n hn).2 (h.seen_popped (List.mem_append_right _ hs))
    · intro n hn hs
      rcases List.mem_append.1 hs with hs | hs
      · exact (hmem n hs).2 (h.seen_popped (List.mem_append_left _ hn))
      · exact hapart hn hs
  · refine List.pairwise_append.2 ⟨?_, hdeeper, ?_⟩
    · exact List.pairwise_map.2 (List.pairwise_of_forall fun _ _ => le_rfl)
    · intro e he f hf
      obtain ⟨b, -, rfl⟩ := List.mem_map.1 he
      exact (hshallow f hf).trans (Nat.le_succ depth)
  · intro e he
    rw [hlength]
    rcases List.mem_append.1 he with he | he
    · obtain ⟨b, hb, rfl⟩ := List.mem_map.1 he
      refine ⟨le_rfl, ?_⟩
      rw [List.take_of_length_le hlength.le]
      refine ⟨?_, List.isChain_append.2 ⟨hchain, List.isChain_singleton b, ?_⟩⟩
      · rw [List.head?_append, hhead]
        rfl
      · intro x hx y hy
        rw [List.getLast?_concat] at hx
        cases hx
        cases hy
        exact (hmem b hb).1
    · have hle := hshallow e he
      obtain ⟨-, hways⟩ := h.ways e (List.mem_cons_of_mem _ he)
      refine ⟨hle.trans (Nat.le_succ depth), ?_⟩
      rw [List.take_append_of_le_length (by rw [List.length_take]; exact le_min hle (hle.trans hdepth)),
        List.take_take, Nat.min_eq_left hle]
      exact hways
  · intro n hn
    rw [hnodes]
    rcases List.mem_append.1 hn with hn | hn
    · exact Or.inr (Or.inl (List.mem_append_left _ hn))
    · rcases h.done n hn with ho | hs | hd
      · exact Or.inl ho
      · rcases List.mem_cons.1 hs with rfl | hs
        · refine Or.inr (Or.inr fun b hb => ⟨?_, ?_⟩)
          · rintro rfl
            have hfound : (look b n visited (g.blockers n)).1 = true := look_fst.2 hb
            rw [hl] at hfound
            cases hfound
          · rcases mem_look hl hb.1 hb.2 with hv | hf
            · exact List.mem_append_right _ hv
            · exact List.mem_append_left _ (hfresh ▸ List.mem_reverse.2 hf)
        · exact Or.inr (Or.inl (List.mem_append_right _ hs))
      · exact Or.inr (Or.inr fun b hb => ⟨(hd b hb).1, List.mem_append_right _ (hd b hb).2⟩)

theorem search_cycle (h : Going g clash start old visited path stack) {found : List Nat}
    (hs : (g.search clash visited path stack).1 = .cycle found) : Way g.Waits start clash found := by
  induction visited, path, stack using search.induct g clash with
  | case1 visited path =>
    rw [search] at hs
    cases hs
  | case2 visited path node depth stack _ hfound =>
    rw [search, if_pos hfound] at hs
    cases hs
    obtain ⟨-, hhead, hchain⟩ := h.way
    refine ⟨hhead, (List.nodup_append'.1 h.once_popped).1, ?_⟩
    refine List.isChain_append.2 ⟨hchain, List.isChain_singleton clash, fun x hx y hy => ?_⟩
    rw [List.getLast?_concat] at hx
    cases hx
    cases hy
    exact look_fst.1 hfound
  | case3 visited path node depth stack _ _ hfound ih =>
    rw [search, if_neg hfound] at hs
    exact ih (h.next (Bool.eq_false_of_not_eq_true hfound)) hs

/-- At the end, what was seen is closed, but for what had been seen before. -/
theorem search_noCycle (h : Going g clash start old visited path stack)
    (hs : (g.search clash visited path stack).1 = .noCycle) :
    ∀ n ∈ (g.search clash visited path stack).2,
      n ∈ old ∨ ∀ b, g.Waits n b → b ≠ clash ∧ b ∈ (g.search clash visited path stack).2 := by
  induction visited, path, stack using search.induct g clash with
  | case1 visited path =>
    rw [search]
    exact fun n hn => (h.done n hn).imp_right fun hd => hd.resolve_left List.not_mem_nil
  | case2 visited path node depth stack _ hfound =>
    rw [search, if_pos hfound] at hs
    cases hs
  | case3 visited path node depth stack _ _ hfound ih =>
    rw [search, if_neg hfound] at hs ⊢
    exact ih (h.next (Bool.eq_false_of_not_eq_true hfound)) hs

theorem mem_search {n : Nat} (h : n ∈ visited) : n ∈ (g.search clash visited path stack).2 := by
  induction visited, path, stack using search.induct g clash with
  | case1 visited path =>
    rw [search]
    exact h
  | case2 visited path node depth stack _ hfound =>
    rw [search, if_pos hfound]
    exact List.mem_append_right _ h
  | case3 visited path node depth stack _ _ hfound ih =>
    rw [search, if_neg hfound]
    exact ih (List.mem_append_right _ h)

end Search

/-! ## Cycles -/

section Cycles
variable {g : WaitGraph} {session n : Nat} {clash : Option Nat} {old path : List Nat}

theorem findCycle_of_unseen (hne : clash ≠ some session) (hold : session ∉ old) :
    g.findCycle session clash old =
      g.search (clash.getD session) (session :: old) [] [(session, 0)] := by
  rw [findCycle, if_neg hne, if_neg hold]

theorem findCycle_of_seen (hne : clash ≠ some session) (hold : session ∈ old) :
    g.findCycle session clash old = (.noCycle, old) := by
  rw [findCycle, if_neg hne, if_pos hold]

/-- What is found is a way to the session looked for. -/
theorem way_of_findCycle (hne : clash ≠ some session)
    (h : (g.findCycle session clash old).1 = .cycle path) :
    session ∉ old ∧ Way g.Waits session (clash.getD session) path := by
  by_cases hold : session ∈ old
  · rw [findCycle_of_seen hne hold] at h
    cases h
  · rw [findCycle_of_unseen hne hold] at h
    exact ⟨hold, search_cycle (going_start g _ session old) h⟩

/-- Nothing is forgotten. -/
theorem mem_findCycle (h : n ∈ old) : n ∈ (g.findCycle session clash old).2 := by
  unfold findCycle
  split
  · exact h
  · split
    · exact h
    · exact mem_search (List.mem_cons_of_mem _ h)

theorem self_mem_findCycle (h : (g.findCycle session clash old).1 = .noCycle) :
    session ∈ (g.findCycle session clash old).2 := by
  unfold findCycle at h ⊢
  split at h
  · cases h
  · rename_i hne
    rw [if_neg hne]
    split
    · rename_i hold
      exact hold
    · exact mem_search List.mem_cons_self

/-- From sessions whose blockers are all among them, and none the target, no way leads to the target. -/
theorem not_transGen_of_closed {target : Nat} {seen : List Nat}
    (h : ∀ n ∈ seen, ¬ TransGen g.Waits n target ∨ ∀ b, g.Waits n b → b ≠ target ∧ b ∈ seen) :
    ∀ n ∈ seen, ¬ TransGen g.Waits n target := by
  intro n hn hway
  induction hway using TransGen.head_induction_on with
  | single hw => exact (h _ hn).elim (fun hno => hno (.single hw)) fun hc => (hc _ hw).1 rfl
  | head hw hrest ih =>
    rcases h _ hn with hno | hclosed
    · exact hno (.head hw hrest)
    · exact ih (hclosed _ hw).2

/-- Where nothing is found, no way leads to the session looked for from any session seen, if none does
from those that were seen before. -/
theorem not_transGen_of_findCycle
    (hold : ∀ n ∈ old, ¬ TransGen g.Waits n (clash.getD session))
    (h : (g.findCycle session clash old).1 = .noCycle) :
    ∀ n ∈ (g.findCycle session clash old).2, ¬ TransGen g.Waits n (clash.getD session) := by
  by_cases hne : clash = some session
  · rw [findCycle, if_pos hne] at h
    cases h
  by_cases hs : session ∈ old
  · rw [findCycle_of_seen hne hs]
    exact hold
  · rw [findCycle_of_unseen hne hs] at h ⊢
    refine not_transGen_of_closed fun n hn => ?_
    exact (search_noCycle (going_start g _ session old) h n hn).imp_left (hold n)

/-- A search that starts with nothing seen finds a cycle. -/
theorem findCycle_cycle (h : (g.findCycle session none []).1 = .cycle path) :
    Way g.Waits session session path :=
  (way_of_findCycle (Option.some_ne_none session).symm h).2

/-- Where it finds nothing there is no cycle. -/
theorem findCycle_noCycle (h : (g.findCycle session none []).1 = .noCycle) :
    ¬ TransGen g.Waits session session :=
  not_transGen_of_findCycle (fun _ hn => absurd hn List.not_mem_nil) h session (self_mem_findCycle h)

end Cycles

end WaitGraph

/-! ## Relations without cycles -/

/-- Nothing leads back to where it came from. -/
def Acyclic {α : Type} (R : α → α → Prop) : Prop := ∀ a, ¬ TransGen R a a

namespace Acyclic
variable {α : Type} {R R' : α → α → Prop} {s : α}

theorem mono (h : Acyclic R) (hsub : ∀ a b, R' a b → R a b) : Acyclic R' :=
  fun a ha => h a (TransGen.mono hsub _ _ ha)

/-- Edges into a place from which none leads on. -/
theorem of_sink (h : Acyclic R) (hs : ∀ b, ¬ R' s b) (hold : ∀ a b, R' a b → b ≠ s → R a b) :
    Acyclic R' := by
  have hpath : ∀ a b, TransGen R' a b → b ≠ s → TransGen R a b := by
    intro a b hab hb
    induction hab with
    | single hw => exact .single (hold _ _ hw hb)
    | tail _ hw ih => exact .tail (ih fun he => hs _ (he ▸ hw)) (hold _ _ hw hb)
  intro a ha
  refine h a (hpath a a ha ?_)
  rintro rfl
  obtain ⟨b, hb, -⟩ := TransGen.head'_iff.1 ha
  exact hs b hb

/-- Edges from a place that is on no cycle. -/
theorem of_source (h : Acyclic R) (hs : ¬ TransGen R' s s) (hold : ∀ a b, R' a b → a ≠ s → R a b) :
    Acyclic R' := by
  have hpath : ∀ a b, TransGen R' a b → TransGen R a b ∨ (ReflTransGen R' a s ∧ TransGen R' s b) := by
    intro a b hab
    induction hab with
    | single hw =>
      by_cases ha : a = s
      · exact Or.inr ⟨ha ▸ .refl, ha ▸ .single hw⟩
      · exact Or.inl (.single (hold _ _ hw ha))
    | @tail b c hpre hw ih =>
      by_cases hb : b = s
      · exact Or.inr ⟨hb ▸ hpre.to_reflTransGen, hb ▸ .single hw⟩
      · rcases ih with ih | ⟨hto, hfrom⟩
        · exact Or.inl (.tail ih (hold _ _ hw hb))
        · exact Or.inr ⟨hto, .tail hfrom hw⟩
  intro a ha
  rcases hpath a a ha with hc | ⟨hto, hfrom⟩
  · exact h a hc
  · exact hs (hfrom.trans_left hto)

end Acyclic

end RowStore
