/-!
# Who waits for whom

* `WaitGraph` : a list of edges from a waiting session to a session that blocks it;
* `WaitGraph.findCycle` : a depth-first search from a session for a way back to another.

A search remembers the sessions it has seen and never looks at one twice, also across several
searches that share the memory.  It ends because every round either shortens the stack or sees a
session that no round saw before, and only ends of edges can be seen.
-/

namespace RowStore

/-- Edges from a waiting session to a session that blocks it. -/
structure WaitGraph where
  edges : List (Nat × Nat)

namespace WaitGraph

/-- The outcome of a search. -/
inductive Verdict where
  /-- No way leads to the session looked for. -/
  | noCycle
  /-- The sessions on the way, from the start on. -/
  | cycle (path : List Nat)
deriving DecidableEq

def blockers (g : WaitGraph) (session : Nat) : List Nat :=
  (g.edges.filter (·.1 = session)).map (·.2)

/-- Looks through the blockers of `node`.  Yields whether `clash` is among them, and the others that
were seen for the first time before it. -/
def look (clash node : Nat) (visited : List Nat) : List Nat → Bool × List Nat
  | [] => (false, [])
  | b :: bs =>
    if b = node then look clash node visited bs
    else if b = clash then (true, [])
    else if b ∈ visited then look clash node visited bs
    else
      let rest := look clash node (b :: visited) bs
      (rest.1, b :: rest.2)

/-- The number of edges that end in a session not seen yet. -/
def unseen (g : WaitGraph) (visited : List Nat) : Nat :=
  g.edges.countP fun e => e.2 ∉ visited

/-! ## The search ends -/

theorem mem_of_mem_look {clash node b : Nat} {bs visited : List Nat}
    (h : b ∈ (look clash node visited bs).2) : b ∈ bs ∧ b ∉ visited := by
  induction bs generalizing visited with
  | nil => simp [look] at h
  | cons c cs ih =>
    unfold look at h
    split at h
    · exact ⟨List.mem_cons_of_mem _ (ih h).1, (ih h).2⟩
    · split at h
      · simp at h
      · split at h
        · exact ⟨List.mem_cons_of_mem _ (ih h).1, (ih h).2⟩
        · rename_i hc
          rcases List.mem_cons.1 h with rfl | h
          · exact ⟨List.mem_cons_self, hc⟩
          · exact ⟨List.mem_cons_of_mem _ (ih h).1,
              fun hv => (ih h).2 (List.mem_cons_of_mem _ hv)⟩

theorem unseen_append_le (g : WaitGraph) (fresh visited : List Nat) :
    g.unseen (fresh ++ visited) ≤ g.unseen visited := by
  refine List.countP_mono_left fun e _ h => ?_
  simp only [List.mem_append, not_or, decide_eq_true_eq] at h ⊢
  exact h.2

theorem unseen_cons_lt {g : WaitGraph} {b : Nat} {visited : List Nat}
    (hb : b ∈ g.edges.map (·.2)) (hv : b ∉ visited) :
    g.unseen (b :: visited) < g.unseen visited := by
  obtain ⟨e, he, rfl⟩ := List.mem_map.1 hb
  obtain ⟨l, r, hlr⟩ := List.append_of_mem he
  have key (part : List (Nat × Nat)) :
      part.countP (fun d => d.2 ∉ e.2 :: visited) ≤ part.countP (fun d => d.2 ∉ visited) :=
    List.countP_mono_left fun d _ h => by
      simp only [List.mem_cons, not_or, decide_eq_true_eq] at h ⊢
      exact h.2
  have hl := key l
  have hr := key r
  simp only [unseen, hlr, List.countP_append, List.countP_cons]
  simp only [List.mem_cons, true_or, not_true_eq_false, decide_false, Bool.false_eq_true,
    ite_false, hv, not_false_eq_true, decide_true, ite_true] at hl hr ⊢
  omega

theorem blockers_subset (g : WaitGraph) (session : Nat) :
    g.blockers session ⊆ g.edges.map (·.2) := fun b h => by
  obtain ⟨e, he, rfl⟩ := List.mem_map.1 h
  exact List.mem_map.2 ⟨e, (List.mem_filter.1 he).1, rfl⟩

/-- Seeing a fresh blocker leaves fewer edges to unseen sessions. -/
theorem unseen_look_lt {g : WaitGraph} {clash node : Nat} {visited : List Nat}
    (h : (look clash node visited (g.blockers node)).2 ≠ []) :
    g.unseen ((look clash node visited (g.blockers node)).2.reverse ++ visited) <
      g.unseen visited := by
  generalize hf : (look clash node visited (g.blockers node)).2 = fresh at h
  have hmem (b : Nat) (hb : b ∈ fresh) : b ∈ g.blockers node ∧ b ∉ visited :=
    mem_of_mem_look (hf ▸ hb)
  cases fresh with
  | nil => exact absurd rfl h
  | cons b bs =>
    have hb := hmem b List.mem_cons_self
    have h1 := unseen_append_le g bs.reverse (b :: visited)
    have h2 := unseen_cons_lt (g.blockers_subset node hb.1) hb.2
    have h3 : (b :: bs).reverse ++ visited = bs.reverse ++ (b :: visited) := by simp
    rw [h3]
    omega

/-! ## The search -/

/-- Works off a stack of sessions, each with the length of the way to it.  `path` is the way to the
session that was worked off last. -/
def search (g : WaitGraph) (clash : Nat) (visited path : List Nat) :
    List (Nat × Nat) → Verdict × List Nat
  | [] => (.noCycle, visited)
  | (node, depth) :: stack =>
    let path := path.take depth ++ [node]
    let seen := look clash node visited (g.blockers node)
    if seen.1 then (.cycle path, seen.2.reverse ++ visited)
    else
      g.search clash (seen.2.reverse ++ visited) path
        (seen.2.reverse.map (·, depth + 1) ++ stack)
termination_by stack => (g.unseen visited, stack.length)
decreasing_by
  by_cases h : (look clash node visited (g.blockers node)).2 = []
  · rw [h]
    exact Prod.Lex.right _ (by simp)
  · exact Prod.Lex.left _ _ (unseen_look_lt h)

/-- Searches for a way from `session` back to `clash`, or to itself without a `clash`.  Yields the
outcome and the sessions seen so far, those in `visited` among them. -/
def findCycle (g : WaitGraph) (session : Nat) (clash : Option Nat) (visited : List Nat) :
    Verdict × List Nat :=
  if clash = some session then (.cycle [], visited)
  else if session ∈ visited then (.noCycle, visited)
  else g.search (clash.getD session) (session :: visited) [] [(session, 0)]

end WaitGraph

end RowStore
