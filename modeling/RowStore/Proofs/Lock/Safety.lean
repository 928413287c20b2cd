import RowStore.Proofs.Lock.Steps

/-!
# Locks are safe whatever the sessions do

* `LockTable.Ends` : how the test of a request ends, in every way that it may;
* `request_ends`, `expire_ends` : the two kinds of tests;
* `Reached.safe` : in all that is reached, even by sessions with several calls, locks that are held
  alone are held by nobody else;
* `locks_are_safe` : that, with what each step grants, refuses and gives back.
-/

namespace RowStore

namespace LockTable
variable {t t' : LockTable} {r : LockRequest} {outcome : LockOutcome}

/-- The test of a request has ended.  A grant lets its session in as it asked, and changes no other
lock; nothing else changes any; and only a request that is to wait leaves its session waiting. -/
structure Ends (t : LockTable) (r : LockRequest) (outcome : LockOutcome) (t' : LockTable) : Prop where
  granted : outcome = .granted → (t'.holdersOf r.table).Holds r.session r.exclusive
  others : ∀ table, table ≠ r.table → t'.holders.find? table = t.holders.find? table
  refused : outcome ≠ .granted → t'.holders = t.holders
  withdrawn : outcome ≠ .parked → t'.waiting.find? r.session = none

theorem Acquired.ends (h : Acquired t r t') : Ends t r .granted t' where
  granted _ := LockHolders.holds_acquire? h.holders
  others := h.others
  refused hne := absurd rfl hne
  withdrawn _ := h.waiting ▸ OrderedMap.find?_erase_self _ _

theorem ends_withdraw (h : outcome ≠ .granted) : Ends t r outcome (t.withdraw r.session) where
  granted he := absurd he h
  others _ _ := rfl
  refused _ := rfl
  withdrawn _ := OrderedMap.find?_erase_self _ _

theorem ends_park : Ends t r .parked (t.park r) where
  granted he := by cases he
  others _ _ := rfl
  refused _ := rfl
  withdrawn hne := absurd rfl hne

theorem request_ends (t : LockTable) (r : LockRequest) :
    Ends t r (t.request r).1 (t.request r).2 := by
  rcases request_cases t r with ⟨t', ha, hr⟩ | ⟨-, path, -, hr⟩ | ⟨-, -, hr⟩ <;> rw [hr]
  · exact (acquired ha).ends
  · exact ends_withdraw (by simp)
  · exact ends_park

theorem expire_ends (t : LockTable) (r : LockRequest) :
    Ends t r (t.expire r).1 (t.expire r).2 := by
  rcases expire_cases t r with ⟨t', ha, hr⟩ | ⟨-, hr⟩ <;> rw [hr]
  · exact (acquired ha).ends
  · exact ends_withdraw (by simp)

end LockTable

namespace LockCalls
open LockTable

variable {multiVersion : Bool} {may : LockCalls → Nat → Prop} {c c' : LockCalls}

theorem safe_begin (h : c.table.Safe) (r : LockRequest) : (c.begin r).2.table.Safe := by
  rw [begin_eq]
  exact h.request r

theorem Step.safe (hs : Step multiVersion may c c') (h : c.table.Safe) : c'.table.Safe := by
  cases hs with
  | ask table session exclusive force _ =>
    cases hm : effectiveMode multiVersion force exclusive with
    | none =>
      rw [ask_of_none hm]
      exact h
    | some mode =>
      rw [ask_of_some hm]
      exact safe_begin h _
  | retry t before call after =>
    unfold LockCall.retry
    split
    · exact Safe.request h call.request
    · exact h
  | expire t before call after =>
    unfold LockCall.expire
    split
    · exact Safe.expire h call.request
    · exact h
  | forget => exact h
  | release _ table session =>
    unfold LockCalls.release
    split
    · exact h.unlock table session
    · exact h

theorem Reached.safe (h : Reached multiVersion may c) : c.table.Safe := by
  induction h with
  | start => exact safe_empty
  | step _ hs ih => exact hs.safe ih

/-- The mode in which a lock is asked for, if it is asked for at all. -/
theorem effectiveMode_eq_some {force exclusive : Bool}
    (h : ¬ (multiVersion = true ∧ force = false ∧ exclusive = false)) :
    effectiveMode multiVersion force exclusive = some (exclusive && (force || !multiVersion)) := by
  cases multiVersion <;> cases force <;> cases exclusive <;>
    first | rfl | exact absurd ⟨rfl, rfl, rfl⟩ h

theorem table_release (c : LockCalls) (table session : Nat) :
    (c.release table session).table = c.table.unlock table session := by
  unfold release
  split
  · rfl
  · rename_i h
    have hn : c.table.holders.find? table = none :=
      Option.not_isSome_iff_eq_none.1 h
    unfold LockTable.unlock
    rw [hn]

/-- Whatever sessions do in whatever order, a lock that one of them holds alone is shared by no other,
and no entry is kept of a lock that nobody holds.  Every test ends as it should.  With several versions
of rows, a request that is not forced takes no lock if it is a shared one, and else a shared lock.
Giving a lock back takes its session out, and nobody else. -/
theorem locks_are_safe (h : Reached multiVersion Anyone c) :
    ((∀ table session, (c.table.holdersOf table).exclusive = some session →
        ∀ other ∈ (c.table.holdersOf table).shared.toList, other = session) ∧
      ∀ e ∈ c.table.holders.entries, ∃ session, session ∈ e.2.all) ∧
    (∀ table session exclusive force,
      let asked := c.ask multiVersion table session exclusive force
      if multiVersion = true ∧ force = false ∧ exclusive = false then asked = (.granted, c)
      else Ends c.table ⟨table, session, exclusive && (force || !multiVersion)⟩ asked.1 asked.2.table) ∧
    (∀ call ∈ c.calls, call.outcome = .parked →
      (call.woken = true → Ends c.table call.request (call.retry c.table).1.outcome
        (call.retry c.table).2) ∧
      Ends c.table call.request (call.expire c.table).1.outcome (call.expire c.table).2) ∧
    ∀ table session,
      (∀ table', table' ≠ table → (c.release table session).table.holders.find? table' =
        c.table.holders.find? table') ∧
      ∀ other exclusive, ((c.release table session).table.holdersOf table).Holds other exclusive ↔
        other ≠ session ∧ (c.table.holdersOf table).Holds other exclusive := by
  have hsafe := h.safe
  refine ⟨⟨hsafe.sole, ?_⟩, ?_, ?_, ?_⟩
  · rintro ⟨table, holders⟩ he
    exact LockHolders.isFree_eq_false.1
      (hsafe.held table holders ((OrderedMap.mem_entries hsafe.sorted).1 he))
  · intro table session exclusive force
    dsimp only
    split
    · rename_i hm
      obtain ⟨rfl, rfl, rfl⟩ := hm
      rfl
    · rename_i hm
      rw [ask_of_some (effectiveMode_eq_some hm), begin_eq]
      exact request_ends _ _
  · intro call _ hp
    constructor
    · intro hw
      unfold LockCall.retry
      rw [if_pos ⟨hp, hw⟩]
      exact request_ends _ _
    · unfold LockCall.expire
      rw [if_pos hp]
      exact expire_ends _ _
  · intro table session
    rw [table_release]
    exact ⟨fun table' hne => find?_unlock_of_ne hne, fun other exclusive => holds_unlock⟩

def upgraded : LockCalls := (ask false (ask false {} 1 1 false false).2 1 1 true false).2

/-- Another waits for it, and is not let in when its time is up. -/
theorem safe_upgraded :
    let c := (ask false upgraded 1 2 false false).2
    (c.table.holdersOf 1).exclusive = some 1 ∧
      (∀ other ∈ (c.table.holdersOf 1).shared.toList, other = 1) ∧
      ∃ call ∈ c.calls, Ends c.table ⟨1, 2, false⟩ .timedOut (call.expire c.table).2 := by
  intro c
  have hreached : Reached false Anyone c :=
    ((Reached.start.step (.ask 1 1 false false trivial)).step
      (.ask 1 1 true false trivial)).step (.ask 1 2 false false trivial)
  have hc : c = ⟨upgraded.table.park ⟨1, 2, false⟩, [⟨⟨1, 2, false⟩, .parked, false⟩]⟩ := by
    change (ask false upgraded 1 2 false false).2 = _
    rw [ask_of_some rfl, begin_eq, request_of_none rfl rfl]
    rfl
  obtain ⟨⟨hsole, -⟩, -, hcalls, -⟩ := locks_are_safe hreached
  rw [hc] at hsole hcalls ⊢
  have hends := (hcalls _ (List.mem_singleton_self _) rfl).2
  exact ⟨rfl, hsole 1 1 rfl, _, List.mem_singleton_self _, hends⟩

end LockCalls

end RowStore
