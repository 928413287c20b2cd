import RowStore.Proofs.WaitGraph

/-!
# Searches that share a memory

* `Rounds` : the rounds of a search, one after the other up to its outcome;
* `exists_rounds` : a search comes to its end, and how soon;
* `reached_of_mem_search` : only sessions that can be reached are seen;
* `findCycle_eq_cycle_iff` : what is found, and when;
* `search_is_exact` : a search finds a way just where there is one, and leaves a memory with which the
  next search for the same session is exact as well.

A search skips the sessions that are in the memory.  That hides no way as long as none of them leads to
the session looked for, and a search that finds nothing adds only such sessions.
-/

namespace RowStore.WaitGraph
open Relation

section Rounds
variable {g : WaitGraph} {clash start : Nat} {old visited path : List Nat} {stack : List (Nat × Nat)}

/-- A search goes through so many rounds until it has an outcome.  A round takes a session off the stack
and looks through its blockers. -/
inductive Rounds (g : WaitGraph) (clash : Nat) :
    Nat → List Nat → List Nat → List (Nat × Nat) → Verdict × List Nat → Prop where
  | workedOff {visited path : List Nat} : Rounds g clash 0 visited path [] (.noCycle, visited)
  | found {visited path : List Nat} {node depth : Nat} {stack : List (Nat × Nat)}
      (h : (look clash node visited (g.blockers node)).1 = true) :
      Rounds g clash 1 visited path ((node, depth) :: stack)
        (.cycle (path.take depth ++ [node]),
          (look clash node visited (g.blockers node)).2.reverse ++ visited)
  | next {count : Nat} {visited path : List Nat} {node depth : Nat} {stack : List (Nat × Nat)}
      {outcome : Verdict × List Nat} (h : (look clash node visited (g.blockers node)).1 = false)
      (rest : Rounds g clash count ((look clash node visited (g.blockers node)).2.reverse ++ visited)
        (path.take depth ++ [node])
        ((look clash node visited (g.blockers node)).2.reverse.map (·, depth + 1) ++ stack) outcome) :
      Rounds g clash (count + 1) visited path ((node, depth) :: stack) outcome

/-! ## The search ends -/

theorem unseen_le_length (g : WaitGraph) (visited : List Nat) : g.unseen visited ≤ g.edges.length :=
  List.countP_le_length

/-- Each session seen for the first time has an edge to it, which then no longer leads to an unseen
one. -/
theorem unseen_append_add_length_le {fresh : List Nat} (hends : ∀ b ∈ fresh, b ∈ g.edges.map (·.2))
    (hnew : ∀ b ∈ fresh, b ∉ visited) (honce : fresh.Nodup) :
    g.unseen (fresh ++ visited) + fresh.length ≤ g.unseen visited := by
  induction fresh with
  | nil => simp
  | cons b fresh ih =>
    obtain ⟨hb, honce⟩ := List.nodup_cons.1 honce
    have hunseen : b ∉ fresh ++ visited := by
      simp only [List.mem_append, not_or]
      exact ⟨hb, hnew b List.mem_cons_self⟩
    have hlt := unseen_cons_lt (hends b List.mem_cons_self) hunseen
    have hrest := ih (fun c hc => hends c (List.mem_cons_of_mem _ hc))
      (fun c hc => hnew c (List.mem_cons_of_mem _ hc)) honce
    simp only [List.cons_append, List.length_cons]
    omega

/-- The blockers that a round puts on the stack are paid for by the edges to them. -/
theorem unseen_look_add_length_le (g : WaitGraph) (clash node : Nat) (visited : List Nat) :
    g.unseen ((look clash node visited (g.blockers node)).2.reverse ++ visited) +
      (look clash node visited (g.blockers node)).2.length ≤ g.unseen visited := by
  rw [← List.length_reverse]
  apply unseen_append_add_length_le
  · intro b hb
    exact g.blockers_subset node (mem_of_mem_look (List.mem_reverse.1 hb)).1
  · intro b hb
    exact (mem_of_mem_look (List.mem_reverse.1 hb)).2
  · exact List.nodup_reverse.2 nodup_look

/-- A search comes to its outcome after at most one round for each session on the stack and each edge to
an unseen one. -/
theorem exists_rounds (g : WaitGraph) (clash : Nat) (visited path : List Nat)
    (stack : List (Nat × Nat)) :
    ∃ count ≤ g.unseen visited + stack.length,
      Rounds g clash count visited path stack (g.search clash visited path stack) := by
  induction visited, path, stack using search.induct g clash with
  | case1 visited path =>
    rw [search]
    exact ⟨0, Nat.zero_le _, .workedOff⟩
  | case2 visited path node depth stack _ hfound =>
    rw [search, if_pos hfound]
    exact ⟨1, by simp only [List.length_cons]; omega, .found hfound⟩
  | case3 visited path node depth stack _ _ hfound ih =>
    obtain ⟨count, hcount, hrounds⟩ := ih
    rw [search, if_neg hfound]
    refine ⟨count + 1, ?_, .next (Bool.eq_false_of_not_eq_true hfound) hrounds⟩
    have hpaid := unseen_look_add_length_le g clash node visited
    change count ≤ g.unseen ((look clash node visited (g.blockers node)).2.reverse ++ visited) +
      ((look clash node visited (g.blockers node)).2.reverse.map (·, depth + 1) ++ stack).length
      at hcount
    simp only [List.length_append, List.length_map, List.length_reverse] at hcount
    simp only [List.length_cons]
    omega

/-! ## What is seen -/

/-- Only sessions that can be reached from the start are seen, besides those seen before. -/
theorem reached_of_mem_search (hseen : ∀ n ∈ visited, n ∈ old ∨ ReflTransGen g.Waits start n)
    (hstack : ∀ e ∈ stack, ReflTransGen g.Waits start e.1) :
    ∀ n ∈ (g.search clash visited path stack).2, n ∈ old ∨ ReflTransGen g.Waits start n := by
  -- a round sees blockers of a session that is reached
  have hround : ∀ (visited : List Nat) (node : Nat), ReflTransGen g.Waits start node →
      ∀ b ∈ (look clash node visited (g.blockers node)).2, ReflTransGen g.Waits start b := by
    intro visited node hnode b hb
    exact hnode.tail ⟨(mem_of_mem_look hb).1, ne_of_mem_look hb⟩
  have hgrown : ∀ (visited : List Nat) (node : Nat), ReflTransGen g.Waits start node →
      (∀ n ∈ visited, n ∈ old ∨ ReflTransGen g.Waits start n) →
      ∀ n ∈ (look clash node visited (g.blockers node)).2.reverse ++ visited,
        n ∈ old ∨ ReflTransGen g.Waits start n := by
    intro visited node hnode hseen n hn
    rcases List.mem_append.1 hn with hn | hn
    · exact Or.inr (hround visited node hnode n (List.mem_reverse.1 hn))
    · exact hseen n hn
  induction visited, path, stack using search.induct g clash with
  | case1 visited path =>
    rw [search]
    exact hseen
  | case2 visited path node depth stack _ hfound =>
    rw [search, if_pos hfound]
    exact hgrown visited node (hstack _ List.mem_cons_self) hseen
  | case3 visited path node depth stack _ _ hfound ih =>
    have hnode := hstack _ List.mem_cons_self
    rw [search, if_neg hfound]
    apply ih (hgrown visited node hnode hseen)
    intro e he
    rcases List.mem_append.1 he with he | he
    · obtain ⟨b, hb, rfl⟩ := List.mem_map.1 he
      exact hround visited node hnode b (List.mem_reverse.1 hb)
    · exact hstack e (List.mem_cons_of_mem _ he)

end Rounds

/-! ## One search after the other -/

section Exact
variable {g : WaitGraph} {session n : Nat} {clash : Option Nat} {old path : List Nat}

theorem reached_of_mem_findCycle (hn : n ∈ (g.findCycle session clash old).2) :
    n ∈ old ∨ ReflTransGen g.Waits session n := by
  unfold findCycle at hn
  split at hn
  · exact Or.inl hn
  · split at hn
    · exact Or.inl hn
    · refine reached_of_mem_search (fun m hm => ?_) (fun e he => ?_) n hn
      · rcases List.mem_cons.1 hm with rfl | hm
        · exact Or.inr .refl
        · exact Or.inl hm
      · rw [List.mem_singleton.1 he]

/-- A search that looks for its own start finds the empty way.  Any other finds ways that start where
it does. -/
theorem findCycle_eq_cycle (h : (g.findCycle session clash old).1 = .cycle path) :
    clash = some session ∧ path = [] ∨
      clash ≠ some session ∧ session ∉ old ∧ Way g.Waits session (clash.getD session) path := by
  by_cases hne : clash = some session
  · rw [findCycle, if_pos hne] at h
    cases h
    exact Or.inl ⟨hne, rfl⟩
  · exact Or.inr ⟨hne, way_of_findCycle hne h⟩

/-- Something is found just where there is a way, unless the start is seen already. -/
theorem exists_cycle_iff (hold : ∀ n ∈ old, ¬ TransGen g.Waits n (clash.getD session)) :
    (∃ path, (g.findCycle session clash old).1 = .cycle path) ↔
      clash = some session ∨ session ∉ old ∧ TransGen g.Waits session (clash.getD session) := by
  constructor
  · rintro ⟨path, h⟩
    rcases findCycle_eq_cycle h with ⟨hsome, -⟩ | ⟨-, hnew, hway⟩
    · exact Or.inl hsome
    · exact Or.inr ⟨hnew, hway.transGen⟩
  · intro h
    cases hv : (g.findCycle session clash old).1 with
    | cycle path => exact ⟨path, rfl⟩
    | noCycle =>
      rcases h with hsome | ⟨-, hway⟩
      · rw [findCycle, if_pos hsome] at hv
        cases hv
      · exact absurd hway (not_transGen_of_findCycle hold hv session (self_mem_findCycle hv))

/-- In a memory from which no way leads to the session looked for, a search ends after at most one round
for each edge and one more.  It finds a way just where there is one, and the way it finds leads there.
It adds only sessions that it reaches.  Where it finds nothing, no way leads from any of them to the
session looked for, so that the next search for that session is exact again. -/
theorem search_is_exact (hold : ∀ n ∈ old, ¬ TransGen g.Waits n (clash.getD session)) :
    let target := clash.getD session
    let outcome := g.findCycle session clash old
    (clash ≠ some session → session ∉ old → ∃ count ≤ g.edges.length + 1,
      Rounds g target count (session :: old) [] [(session, 0)] outcome) ∧
    ((∃ path, outcome.1 = .cycle path) ↔
      clash = some session ∨ session ∉ old ∧ TransGen g.Waits session target) ∧
    (∀ path, outcome.1 = .cycle path → (path = [] ↔ clash = some session) ∧
      (path ≠ [] → Way g.Waits session target path)) ∧
    (∀ n ∈ old, n ∈ outcome.2) ∧
    (∀ n ∈ outcome.2, n ∈ old ∨ ReflTransGen g.Waits session n) ∧
    (outcome.1 = .noCycle → (∀ n ∈ outcome.2, ¬ TransGen g.Waits n target) ∧
      ∀ next, (∃ path, (g.findCycle next (some target) outcome.2).1 = .cycle path) ↔
        target = next ∨ next ∉ outcome.2 ∧ TransGen g.Waits next target) := by
  intro target outcome
  refine ⟨fun hne hnew => ?_, exists_cycle_iff hold, fun path h => ?_, fun n hn => mem_findCycle hn,
    fun n hn => reached_of_mem_findCycle hn, fun h => ?_⟩
  · obtain ⟨count, hcount, hrounds⟩ := exists_rounds g target (session :: old) [] [(session, 0)]
    rw [← findCycle_of_unseen hne hnew] at hrounds
    have hedges := g.unseen_le_length (session :: old)
    simp only [List.length_singleton] at hcount
    exact ⟨count, by omega, hrounds⟩
  · rcases findCycle_eq_cycle h with ⟨hsome, rfl⟩ | ⟨hne, -, hway⟩
    · exact ⟨iff_of_true rfl hsome, fun hpath => absurd rfl hpath⟩
    · have hpath : path ≠ [] := by
        rintro rfl
        cases hway.starts
      exact ⟨iff_of_false hpath hne, fun _ => hway⟩
  · have hclear := not_transGen_of_findCycle hold h
    refine ⟨hclear, fun next => ?_⟩
    have hnext : (∃ path, (g.findCycle next (some target) outcome.2).1 = .cycle path) ↔
        some target = some next ∨ next ∉ outcome.2 ∧ TransGen g.Waits next target :=
      exists_cycle_iff hclear
    rwa [Option.some.injEq] at hnext

/-- A way past sessions that an earlier search has seen and that lead nowhere, among edges that lead
nowhere new. -/
theorem way_past_dead_end :
    let g : WaitGraph := ⟨[(2, 2), (2, 4), (2, 3), (2, 3), (3, 1), (4, 5), (4, 4)]⟩
    (∀ n ∈ [4, 5], ¬ TransGen g.Waits n 1) ∧ TransGen g.Waits 2 1 ∧
      ∃ path, (g.findCycle 2 (some 1) [4, 5]).1 = .cycle path ∧ Way g.Waits 2 1 path := by
  intro g
  have hold : ∀ n ∈ [4, 5], ¬ TransGen g.Waits n 1 := by
    apply not_transGen_of_closed
    intro n hn
    right
    simp only [List.mem_cons, List.not_mem_nil, or_false] at hn
    rcases hn with rfl | rfl <;> simp +decide [Waits, blockers, g]
  have hway : TransGen g.Waits 2 1 :=
    .head (b := 3) ⟨by decide, by decide⟩ (.single ⟨by decide, by decide⟩)
  have hsought : ∀ n ∈ [4, 5], ¬ TransGen g.Waits n ((some 1).getD 2) := hold
  obtain ⟨-, hiff, hcycle, -⟩ := search_is_exact hsought
  obtain ⟨path, hpath⟩ := hiff.2 (Or.inr ⟨by decide, hway⟩)
  obtain ⟨hempty, hleads⟩ := hcycle path hpath
  exact ⟨hold, hway, path, hpath, hleads fun h => absurd (hempty.1 h) (by decide)⟩

end Exact

end RowStore.WaitGraph
