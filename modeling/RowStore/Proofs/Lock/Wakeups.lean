import RowStore.Proofs.Lock.Safety

/-!
# Nobody sleeps through a lock that is given back

* `LockHolders.Excludes` : another session holds the lock in a way that keeps a request out;
  `acquire?_eq_none_iff` : that is when a request is refused;
* `LockTable.Refuses` : the same of a table's lock; `Refuses.request`, `Refuses.expire` : no test of
  anybody's request ends it;
* `LockCall.Asleep` : a call waits, and no lock was given back since it last tested its own;
* `Attended` : all calls that sleep are still refused; `Attended.step` : every step keeps it;
* `no_wakeup_is_lost` : so it is in all that is reached.

Only a lock that is given back lets in a request that was refused, and that wakes everybody.
-/

namespace RowStore

namespace LockHolders
variable {h : LockHolders} {session : Nat} {exclusive : Bool}

/-- Another session holds the lock, alone if the request would share it. -/
def Excludes (h : LockHolders) (session : Nat) (exclusive : Bool) : Prop :=
  ∃ other, other ≠ session ∧ h.Holds other (!exclusive)

/-- A request is refused just if another session keeps it out. -/
theorem acquire?_eq_none_iff (hs : h.Sole) :
    h.acquire? session exclusive = none ↔ h.Excludes session exclusive := by
  unfold acquire? Excludes Holds
  cases he : h.exclusive with
  | some holder =>
    dsimp only
    by_cases hh : holder = session
    · subst hh
      rw [if_pos rfl]
      refine iff_of_false nofun ?_
      rintro ⟨other, hne, ho | ⟨-, hshared⟩⟩
      · exact hne (Option.some.inj ho).symm
      · exact hne (hs holder he other hshared)
    · rw [if_neg hh]
      exact iff_of_true rfl ⟨holder, hh, Or.inl rfl⟩
  | none =>
    cases exclusive with
    | false =>
      refine iff_of_false nofun ?_
      rintro ⟨other, -, ho | ⟨hmode, -⟩⟩
      · cases ho
      · cases hmode
    | true =>
      dsimp only
      rw [if_pos rfl]
      by_cases hall : h.shared.toList.all (· == session) = true
      · rw [if_pos hall]
        refine iff_of_false nofun ?_
        rintro ⟨other, hne, ho | ⟨-, hshared⟩⟩
        · cases ho
        · exact hne (beq_iff_eq.1 (List.all_eq_true.1 hall other hshared))
      · rw [if_neg hall]
        obtain ⟨other, hshared, hne⟩ : ∃ x ∈ h.shared.toList, ¬(x == session) = true := by
          simpa only [List.all_eq_true, not_forall, exists_prop] using hall
        exact iff_of_true rfl ⟨other, fun ho => hne (beq_iff_eq.2 ho), Or.inr ⟨rfl, hshared⟩⟩

end LockHolders

namespace LockTable
variable {t t' : LockTable} {r : LockRequest}

/-- The holders of a lock keep a request out. -/
def Refuses (t : LockTable) (r : LockRequest) : Prop :=
  (t.holdersOf r.table).Excludes r.session r.exclusive

theorem Safe.acquire?_eq_none_iff (h : Safe t) : t.acquire? r = none ↔ t.Refuses r := by
  unfold acquire? Refuses
  rw [Option.map_eq_none_iff]
  exact LockHolders.acquire?_eq_none_iff (h.sole r.table)

/-- Whoever is let in, nobody loses a lock, so that what was refused still is. -/
theorem Refuses.lasts (hr : t.Refuses r) {q : LockRequest} (h : Acquired t q t') :
    t'.Refuses r := by
  obtain ⟨other, hne, hother⟩ := hr
  exact ⟨other, hne, h.holds hother⟩

theorem Refuses.request (hr : t.Refuses r) (q : LockRequest) : (t.request q).2.Refuses r := by
  rcases request_cases t q with ⟨t', ha, he⟩ | ⟨-, path, -, he⟩ | ⟨-, -, he⟩ <;> rw [he]
  · exact hr.lasts (acquired ha)
  · exact hr
  · exact hr

theorem Refuses.expire (hr : t.Refuses r) (q : LockRequest) : (t.expire q).2.Refuses r := by
  rcases expire_cases t q with ⟨t', ha, he⟩ | ⟨-, he⟩ <;> rw [he]
  · exact hr.lasts (acquired ha)
  · exact hr

/-- Only what is refused has to wait. -/
theorem Safe.refuses_of_parked (h : Safe t) (hp : (t.request r).1 = .parked) : t.Refuses r := by
  rcases request_cases t r with ⟨t', -, he⟩ | ⟨-, path, -, he⟩ | ⟨ha, -, -⟩
  · rw [he] at hp
    cases hp
  · rw [he] at hp
    cases hp
  · exact h.acquire?_eq_none_iff.1 ha

end LockTable

/-- The call waits, and no lock was given back since it last tested its own. -/
def LockCall.Asleep (call : LockCall) : Prop := call.outcome = .parked ∧ call.woken = false

namespace LockCalls
open LockTable

/-- Whoever sleeps is still refused. -/
def Attended (c : LockCalls) : Prop :=
  ∀ call ∈ c.calls, call.Asleep → c.table.Refuses call.request

variable {multiVersion : Bool} {may : LockCalls → Nat → Prop} {c c' : LockCalls}

/-! ## One step -/

/-- A call that begins to wait was just refused, and the others are not let in by its test. -/
theorem Attended.begin (h : c.Attended) (hs : c.table.Safe) (r : LockRequest) :
    (c.begin r).2.Attended := by
  rw [begin_eq]
  intro call hcall hsleeps
  dsimp only at hcall ⊢
  split at hcall
  · rename_i hp
    rcases List.mem_cons.1 hcall with rfl | hcall
    · exact (hs.refuses_of_parked hp).request r
    · exact (h call hcall hsleeps).request r
  · exact (h call hcall hsleeps).request r

section Call
variable {t t' : LockTable} {before after : List LockCall} {call call' : LockCall}

/-- A step of one call that lets nobody else in. -/
theorem Attended.replace (h : Attended ⟨t, before ++ call :: after⟩)
    (hothers : ∀ r, t.Refuses r → t'.Refuses r)
    (hown : call'.Asleep → t'.Refuses call'.request) :
    Attended ⟨t', before ++ call' :: after⟩ := by
  intro other hother hsleeps
  have hrest (hm : other ∈ before ++ call :: after) : t'.Refuses other.request :=
    hothers _ (h other hm hsleeps)
  rcases List.mem_append.1 hother with hm | hm
  · exact hrest (List.mem_append_left _ hm)
  · rcases List.mem_cons.1 hm with rfl | hm
    · exact hown hsleeps
    · exact hrest (List.mem_append_right _ (List.mem_cons_of_mem _ hm))

theorem Attended.retry (h : Attended ⟨t, before ++ call :: after⟩) (hs : t.Safe) :
    Attended ⟨(call.retry t).2, before ++ (call.retry t).1 :: after⟩ := by
  unfold LockCall.retry
  split
  · refine h.replace (fun r hr => hr.request call.request) ?_
    rintro ⟨hp, -⟩
    exact (hs.refuses_of_parked hp).request call.request
  · exact h

theorem Attended.expire (h : Attended ⟨t, before ++ call :: after⟩) :
    Attended ⟨(call.expire t).2, before ++ (call.expire t).1 :: after⟩ := by
  unfold LockCall.expire
  split
  · refine h.replace (fun r hr => hr.expire call.request) ?_
    rintro ⟨hp, -⟩
    exact absurd hp (expire_ne_parked t call.request)
  · exact h

end Call

/-- Giving a lock back may end a refusal, but then nobody sleeps on. -/
theorem Attended.release (h : c.Attended) (table session : Nat) :
    (c.release table session).Attended := by
  unfold LockCalls.release
  split
  · intro call hcall hsleeps
    obtain ⟨old, -, rfl⟩ := List.mem_map.1 hcall
    cases hsleeps.2
  · exact h

theorem Attended.step (h : c.Attended) (hsafe : c.table.Safe) (hs : Step multiVersion may c c') :
    c'.Attended := by
  cases hs with
  | ask table session exclusive force _ =>
    cases hm : effectiveMode multiVersion force exclusive with
    | none =>
      rw [ask_of_none hm]
      exact h
    | some mode =>
      rw [ask_of_some hm]
      exact h.begin hsafe _
  | retry t before call after => exact h.retry hsafe
  | expire t before call after => exact h.expire
  | forget t before call after _ =>
    intro other hother
    refine h other ?_
    rcases List.mem_append.1 hother with hm | hm
    · exact List.mem_append_left _ hm
    · exact List.mem_append_right _ (List.mem_cons_of_mem _ hm)
  | release _ table session => exact h.release table session

/-! ## All that is reached -/

theorem Reached.attended (h : Reached multiVersion may c) : c.Attended := by
  induction h with
  | start => exact fun _ hcall => absurd hcall List.not_mem_nil
  | step hc hs ih => exact ih.step hc.safe hs

/-- Whatever sessions do in whatever order, a call that waits and was not woken since it last tested its
lock would not be let in: another session still holds the lock, alone if the call would share it.  That
is so of sessions with one call each, and of sessions with several. -/
theorem no_wakeup_is_lost (h : Reached multiVersion may c) {call : LockCall} (hc : call ∈ c.calls)
    (waits : call.outcome = .parked) (asleep : call.woken = false) :
    c.table.acquire? call.request = none ∧
      ∃ other, other ≠ call.request.session ∧
        (c.table.holdersOf call.request.table).Holds other (!call.request.exclusive) := by
  have hrefused := h.attended call hc ⟨waits, asleep⟩
  exact ⟨h.safe.acquire?_eq_none_iff.2 hrefused, hrefused⟩

def sharedByTwo : LockCalls :=
  (ask false (ask false {} 1 1 false false).2 1 2 false false).2

/-- Session 3 waited to hold it alone, was woken when session 2 gave its share back, and waits again. -/
def wokenInVain : LockCalls := (ask false sharedByTwo 1 3 true false).2.unlock 1 2

theorem reached_wokenInVain : Reached false Idle wokenInVain :=
  (((Reached.start.step (.ask 1 1 false false (by decide))).step
    (.ask 1 2 false false (by decide))).step (.ask 1 3 true false (by decide))).unlock 1 2

theorem calls_wokenInVain : wokenInVain.calls = [⟨⟨1, 3, true⟩, .parked, false⟩] := by
  have hasked : (ask false sharedByTwo 1 3 true false).2 =
      ⟨sharedByTwo.table.park ⟨1, 3, true⟩, [⟨⟨1, 3, true⟩, .parked, false⟩]⟩ := by
    rw [ask_of_some rfl, begin_eq, request_of_none rfl rfl]
    rfl
  have hagain : ((sharedByTwo.table.park ⟨1, 3, true⟩).unlock 1 2).request ⟨1, 3, true⟩ =
      (.parked, ((sharedByTwo.table.park ⟨1, 3, true⟩).unlock 1 2).park ⟨1, 3, true⟩) :=
    request_of_alone (OrderedMap.sorted_empty.insert 3 1)
      (fun a ha => OrderedMap.find?_insert_of_ne _ ha _) rfl
  unfold wokenInVain
  rw [hasked]
  change [(LockCall.retry ⟨⟨1, 3, true⟩, .parked, true⟩
    ((sharedByTwo.table.park ⟨1, 3, true⟩).unlock 1 2)).1] = _
  unfold LockCall.retry
  rw [if_pos ⟨rfl, rfl⟩, hagain]

/-- It sleeps, and session 1 keeps it out. -/
theorem woken_in_vain_is_refused :
    wokenInVain.calls = [⟨⟨1, 3, true⟩, .parked, false⟩] ∧
      wokenInVain.table.acquire? ⟨1, 3, true⟩ = none ∧
        ∃ other, other ≠ 3 ∧ (wokenInVain.table.holdersOf 1).Holds other false := by
  have hcall : ⟨⟨1, 3, true⟩, .parked, false⟩ ∈ wokenInVain.calls := by
    rw [calls_wokenInVain]
    exact List.mem_singleton_self _
  exact ⟨calls_wokenInVain, no_wakeup_is_lost reached_wokenInVain hcall rfl rfl⟩

end LockCalls

end RowStore
