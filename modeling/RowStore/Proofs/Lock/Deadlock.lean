import Mathlib.Data.List.Permutation
import RowStore.Proofs.Lock.Steps

/-!
# Sessions that wait in a circle

* `LockCalls.waiting`, `LockCalls.WaitsFor` : the requests that wait, and who waits for whom;
* `Registered` : the locks know of each session that waits, and of the one lock it waits for;
* `Orderly` : that, and no cycle, in all that is reached while every session has one call at most;
* `Tested` : a test of a lock that may come next, and how it ends;
* `deadlock_iff_cycle` : a request that is refused is told of a deadlock exactly if waiting closes a
  cycle, and of which.

That a lock is granted to a session may make others wait for it, and none of them looks for a cycle
again.  There is none, since a session that was just let in waits for nobody.
-/

namespace RowStore

namespace LockTable
variable {t t' : LockTable} {r : LockRequest} {rs before after : List LockRequest}

/-- Requests wait, one of a session at most, and the locks know of each of them. -/
structure Registered (t : LockTable) (rs : List LockRequest) : Prop where
  once : (rs.map (·.session)).Nodup
  known : ∀ session table, t.waiting.find? session = some table ↔
    ∃ r ∈ rs, r.session = session ∧ r.table = table

theorem registered_empty : Registered {} [] where
  once := List.nodup_nil
  known session table := by
    constructor
    · intro h
      cases h
    · rintro ⟨r, hr, -⟩
      cases hr

theorem Registered.congr (h : Registered t rs) (hw : t'.waiting = t.waiting) : Registered t' rs :=
  ⟨h.once, hw ▸ h.known⟩

/-- A session waits with one request. -/
theorem Registered.eq_of_session (h : Registered t rs) {r r' : LockRequest} (hr : r ∈ rs)
    (hr' : r' ∈ rs) (hs : r.session = r'.session) : r = r' :=
  List.inj_on_of_nodup_map h.once hr hr' hs

theorem Registered.find?_eq_none (h : Registered t rs) {session : Nat}
    (hs : ∀ r ∈ rs, r.session ≠ session) : t.waiting.find? session = none := by
  cases hf : t.waiting.find? session with
  | none => rfl
  | some table =>
    obtain ⟨r, hr, he, -⟩ := (h.known session table).1 hf
    exact absurd he (hs r hr)

/-- A session that does not wait is not registered either after a test that it passes or fails. -/
theorem Registered.erase_idle (h : Registered t rs) (hs : ∀ q ∈ rs, q.session ≠ r.session)
    (hw : t'.waiting = t.waiting.erase r.session) : Registered t' rs := by
  refine ⟨h.once, fun session table => ?_⟩
  rw [hw]
  by_cases he : session = r.session
  · subst he
    rw [OrderedMap.find?_erase_self, ← h.known, h.find?_eq_none hs]
  · rw [OrderedMap.find?_erase_of_ne _ he]
    exact h.known session table

/-- A request that waits no longer. -/
theorem Registered.erase (h : Registered t (before ++ r :: after))
    (hw : t'.waiting = t.waiting.erase r.session) : Registered t' (before ++ after) := by
  have hperm : (before ++ r :: after).Perm (r :: (before ++ after)) := List.perm_middle
  obtain ⟨hnew, honce⟩ := List.nodup_cons.1 ((hperm.map (·.session)).nodup_iff.1 h.once)
  refine ⟨honce, fun session table => ?_⟩
  rw [hw]
  by_cases he : session = r.session
  · subst he
    rw [OrderedMap.find?_erase_self]
    refine iff_of_false (fun h => by cases h) ?_
    rintro ⟨q, hq, hs, -⟩
    exact hnew (List.mem_map.2 ⟨q, hq, hs⟩)
  · rw [OrderedMap.find?_erase_of_ne _ he, h.known]
    constructor
    · rintro ⟨q, hq, hs, ht⟩
      rcases List.mem_cons.1 (hperm.mem_iff.1 hq) with rfl | hq
      · exact absurd hs.symm he
      · exact ⟨q, hq, hs, ht⟩
    · rintro ⟨q, hq, hs, ht⟩
      exact ⟨q, hperm.mem_iff.2 (List.mem_cons_of_mem _ hq), hs, ht⟩

/-- What is known of the requests that wait, where another of them waits as well. -/
theorem Registered.known_park (h : Registered t rs) (hr : ∀ q ∈ rs, q.session = r.session → q = r)
    (session table : Nat) : (t.park r).waiting.find? session = some table ↔
      ∃ q ∈ r :: rs, q.session = session ∧ q.table = table := by
  simp only [park, List.exists_mem_cons_iff]
  by_cases he : session = r.session
  · subst he
    rw [OrderedMap.find?_insert_self, Option.some.injEq]
    constructor
    · exact fun ht => Or.inl ⟨rfl, ht⟩
    · rintro (⟨-, ht⟩ | ⟨q, hq, hs, ht⟩)
      · exact ht
      · exact hr q hq hs ▸ ht
  · rw [OrderedMap.find?_insert_of_ne _ he, h.known]
    exact (or_iff_right fun hs => he hs.1.symm).symm

/-- A request that begins to wait. -/
theorem Registered.park (h : Registered t rs) (hs : ∀ q ∈ rs, q.session ≠ r.session) :
    Registered (t.park r) (r :: rs) where
  once := List.nodup_cons.2 ⟨fun hm => by
    obtain ⟨q, hq, he⟩ := List.mem_map.1 hm
    exact hs q hq he, h.once⟩
  known := h.known_park fun q hq he => absurd he (hs q hq)

/-- A request that waits on. -/
theorem Registered.park_again (h : Registered t rs) (hr : r ∈ rs) : Registered (t.park r) rs := by
  refine ⟨h.once, fun session table => ?_⟩
  rw [h.known_park fun q hq he => h.eq_of_session hq hr he, List.exists_mem_cons_iff]
  exact or_iff_right_of_imp fun he => ⟨r, hr, he⟩

end LockTable

namespace LockCalls
open LockTable

def waiting (calls : List LockCall) : List LockRequest :=
  (calls.filter (·.outcome = .parked)).map (·.request)

section Waiting
variable {before after calls : List LockCall} {call : LockCall} {r : LockRequest}

theorem waiting_append : waiting (before ++ after) = waiting before ++ waiting after := by
  rw [waiting, List.filter_append, List.map_append]
  rfl

theorem waiting_cons_of_parked (h : call.outcome = .parked) :
    waiting (call :: calls) = call.request :: waiting calls := by
  rw [waiting, List.filter_cons_of_pos (by simpa using h)]
  rfl

theorem waiting_cons_of_ended (h : call.outcome ≠ .parked) :
    waiting (call :: calls) = waiting calls := by
  rw [waiting, List.filter_cons_of_neg (by simpa using h)]
  rfl

theorem waiting_wake (calls : List LockCall) : waiting (calls.map LockCall.wake) = waiting calls := by
  induction calls with
  | nil => rfl
  | cons call calls ih =>
    rw [List.map_cons]
    by_cases h : call.outcome = .parked
    · have hw : call.wake.outcome = .parked := h
      rw [waiting_cons_of_parked h, waiting_cons_of_parked hw, ih]
      rfl
    · have hw : call.wake.outcome ≠ .parked := h
      rw [waiting_cons_of_ended h, waiting_cons_of_ended hw, ih]

theorem mem_waiting : r ∈ waiting calls ↔
    ∃ call ∈ calls, call.outcome = .parked ∧ call.request = r := by
  simp only [waiting, List.mem_map, List.mem_filter, decide_eq_true_eq, and_assoc]

theorem idle_iff {c : LockCalls} {session : Nat} :
    c.Idle session ↔ ∀ q ∈ waiting c.calls, q.session ≠ session := by
  constructor
  · intro h q hq
    obtain ⟨call, hc, hp, rfl⟩ := mem_waiting.1 hq
    exact h call hc hp
  · intro h call hc hp
    exact h _ (mem_waiting.2 ⟨call, hc, hp, rfl⟩)

end Waiting

/-- A session waits, and another holds the lock that it waits for. -/
def WaitsFor (c : LockCalls) (a b : Nat) : Prop :=
  ∃ r ∈ waiting c.calls, r.session = a ∧ b ∈ (c.table.holdersOf r.table).all ∧ b ≠ a

def withWaiting (c : LockCalls) (r : LockRequest) : LockCalls :=
  { c with calls := ⟨r, .parked, false⟩ :: c.calls }

/-- The locks know who waits, and nobody waits for itself through others. -/
structure Orderly (c : LockCalls) : Prop where
  calm : c.table.Calm
  registered : c.table.Registered (waiting c.calls)

variable {multiVersion : Bool} {c c' : LockCalls} {r : LockRequest}

/-- Who waits for whom is what the search for a cycle works on. -/
theorem waitsFor_eq (h : ∀ session table, c.table.waiting.find? session = some table ↔
    ∃ r ∈ waiting c.calls, r.session = session ∧ r.table = table) : c.WaitsFor = c.table.Waits := by
  funext a b
  refine propext ⟨?_, ?_⟩
  · rintro ⟨r, hr, hs, hb⟩
    exact ⟨r.table, (h a r.table).2 ⟨r, hr, hs, rfl⟩, hb⟩
  · rintro ⟨table, hf, hb⟩
    obtain ⟨r, hr, hs, rfl⟩ := (h a table).1 hf
    exact ⟨r, hr, hs, hb⟩

theorem Orderly.waitsFor_withWaiting (h : Orderly c)
    (hr : ∀ q ∈ waiting c.calls, q.session = r.session → q = r) :
    (c.withWaiting r).WaitsFor = (c.table.park r).Waits := by
  refine (waitsFor_eq (c := ⟨c.table.park r, ⟨r, .parked, false⟩ :: c.calls⟩) ?_).trans rfl
  intro session table
  have hmore : waiting (⟨r, .parked, false⟩ :: c.calls) = r :: waiting c.calls :=
    waiting_cons_of_parked rfl
  rw [hmore]
  exact h.registered.known_park hr session table

/-! ## Every step keeps order -/

/-- A session that has no other call asks for a lock. -/
theorem Orderly.begin (h : Orderly c) (hi : c.Idle r.session) : Orderly (c.begin r).2 := by
  rw [begin_eq]
  refine ⟨h.calm.request r, ?_⟩
  have hs := idle_iff.1 hi
  rcases request_cases c.table r with ⟨t', ha, hr⟩ | ⟨-, path, -, hr⟩ | ⟨-, -, hr⟩ <;> rw [hr]
  · exact h.registered.erase_idle hs (acquired ha).waiting
  · exact h.registered.erase_idle hs rfl
  · rw [if_pos rfl, waiting_cons_of_parked rfl]
    exact h.registered.park hs

section Call
variable {t : LockTable} {before after : List LockCall} {call : LockCall}

theorem Orderly.retry (h : Orderly ⟨t, before ++ call :: after⟩) :
    Orderly ⟨(call.retry t).2, before ++ (call.retry t).1 :: after⟩ := by
  unfold LockCall.retry
  split
  · rename_i hp
    refine ⟨h.calm.request call.request, ?_⟩
    have hreg := h.registered
    rw [waiting_append, waiting_cons_of_parked hp.1] at hreg
    rcases request_cases t call.request with ⟨t', ha, hr⟩ | ⟨-, path, -, hr⟩ | ⟨-, -, hr⟩ <;>
      rw [hr, waiting_append]
    · rw [waiting_cons_of_ended (by simp)]
      exact hreg.erase (acquired ha).waiting
    · rw [waiting_cons_of_ended (by simp)]
      exact hreg.erase rfl
    · rw [waiting_cons_of_parked rfl]
      exact hreg.park_again (List.mem_append_right _ List.mem_cons_self)
  · exact h

theorem Orderly.expire (h : Orderly ⟨t, before ++ call :: after⟩) :
    Orderly ⟨(call.expire t).2, before ++ (call.expire t).1 :: after⟩ := by
  unfold LockCall.expire
  split
  · rename_i hp
    refine ⟨h.calm.expire call.request, ?_⟩
    have hreg := h.registered
    rw [waiting_append, waiting_cons_of_parked hp] at hreg
    rw [waiting_append, waiting_cons_of_ended (expire_ne_parked t call.request)]
    rcases expire_cases t call.request with ⟨t', ha, hr⟩ | ⟨-, hr⟩ <;> rw [hr]
    · exact hreg.erase (acquired ha).waiting
    · exact hreg.erase rfl
  · exact h

end Call

theorem Orderly.step (h : Orderly c) (hs : Step multiVersion Idle c c') : Orderly c' := by
  cases hs with
  | ask table session exclusive force hi =>
    cases hm : effectiveMode multiVersion force exclusive with
    | none =>
      rw [ask_of_none hm]
      exact h
    | some mode =>
      rw [ask_of_some hm]
      exact h.begin hi
  | retry t before call after => exact h.retry
  | expire t before call after => exact h.expire
  | forget t before call after ended =>
    refine ⟨h.calm, ?_⟩
    have hreg := h.registered
    rwa [waiting_append, waiting_cons_of_ended ended, ← waiting_append] at hreg
  | release _ table session =>
    unfold release
    split
    · refine ⟨h.calm.unlock table session, ?_⟩
      rw [waiting_wake]
      exact h.registered.congr waiting_unlock
    · exact h

theorem Reached.orderly (h : Reached multiVersion Idle c) : Orderly c := by
  induction h with
  | start => exact ⟨calm_empty, registered_empty⟩
  | step _ hs ih => exact ih.step hs

/-! ## What a test finds -/

/-- A test of a lock that may come next, and how it ends: the first of a session that does not wait,
another of a call that waits, or its last. -/
inductive Tested (multiVersion : Bool) (c : LockCalls) : LockRequest → LockOutcome → Prop where
  | ask {table session : Nat} {exclusive force mode : Bool} (idle : c.Idle session)
    (hm : effectiveMode multiVersion force exclusive = some mode) :
    Tested multiVersion c ⟨table, session, mode⟩
      (c.ask multiVersion table session exclusive force).1
  | retry {call : LockCall} (h : call ∈ c.calls) (waits : call.outcome = .parked)
    (woken : call.woken = true) :
    Tested multiVersion c call.request (call.retry c.table).1.outcome
  | expire {call : LockCall} (h : call ∈ c.calls) (waits : call.outcome = .parked) :
    Tested multiVersion c call.request (call.expire c.table).1.outcome

/-- A test is of the one request with which its session may wait.  One that comes in time ends as
`LockTable.request` says; one that does not is of a request that waits, and finds no deadlock. -/
theorem Tested.spec {outcome : LockOutcome} (ht : Tested multiVersion c r outcome) (h : Orderly c) :
    (∀ q ∈ waiting c.calls, q.session = r.session → q = r) ∧
      (outcome = (c.table.request r).1 ∨
        r ∈ waiting c.calls ∧ ∀ path, outcome ≠ .deadlock path) := by
  cases ht with
  | ask idle hm =>
    refine ⟨fun q hq hs => absurd hs (idle_iff.1 idle q hq), Or.inl ?_⟩
    rw [ask_of_some hm, begin_eq]
  | @retry call hc waits woken =>
    have hmem := mem_waiting.2 ⟨call, hc, waits, rfl⟩
    refine ⟨fun q hq hs => h.registered.eq_of_session hq hmem hs, Or.inl ?_⟩
    unfold LockCall.retry
    rw [if_pos ⟨waits, woken⟩]
  | @expire call hc waits =>
    have hmem := mem_waiting.2 ⟨call, hc, waits, rfl⟩
    refine ⟨fun q hq hs => h.registered.eq_of_session hq hmem hs, Or.inr ⟨hmem, fun path => ?_⟩⟩
    unfold LockCall.expire
    rw [if_pos waits]
    rcases expire_cases c.table call.request with ⟨t', -, hr⟩ | ⟨-, hr⟩ <;> rw [hr] <;>
      exact fun he => by cases he

/-- With one more request of a session that waits with it already, the same sessions wait. -/
theorem waitsFor_withWaiting_of_mem (hr : r ∈ waiting c.calls) :
    (c.withWaiting r).WaitsFor = c.WaitsFor := by
  funext a b
  unfold WaitsFor withWaiting
  rw [waiting_cons_of_parked rfl]
  rw [List.exists_mem_cons_iff]
  exact propext (or_iff_right_of_imp fun h => ⟨r, hr, h⟩)

/-- Among sessions that have one call each there is never a cycle.  A request that cannot be granted
ends in a deadlock just if there would be one if it waited; what is reported then is such a cycle, from
the session that asked. -/
theorem deadlock_iff_cycle (h : Reached multiVersion Idle c) :
    Acyclic c.WaitsFor ∧
    ∀ r outcome, Tested multiVersion c r outcome → c.table.acquire? r = none →
      ((∃ path, outcome = .deadlock path) ↔ ¬ Acyclic (c.withWaiting r).WaitsFor) ∧
      ∀ path, outcome = .deadlock path →
        Way (c.withWaiting r).WaitsFor r.session r.session path := by
  have ho := h.orderly
  have hacyclic : Acyclic c.WaitsFor := waitsFor_eq ho.registered.known ▸ ho.calm.acyclic
  refine ⟨hacyclic, fun r outcome ht ha => ?_⟩
  obtain ⟨honly, rfl | ⟨hmem, hnone⟩⟩ := ht.spec ho
  · rw [ho.waitsFor_withWaiting honly, ← waits_waitGraph_park ho.calm.sorted]
    rcases request_cases c.table r with ⟨t', hs, -⟩ | ⟨-, path, hc, hr⟩ | ⟨-, hc, hr⟩
    · cases ha.symm.trans hs
    · have hway := WaitGraph.findCycle_cycle hc
      rw [hr]
      refine ⟨iff_of_true ⟨path, rfl⟩ fun hno => hno _ hway.transGen, fun path' he => ?_⟩
      cases he
      exact hway
    · have hno := WaitGraph.findCycle_noCycle hc
      rw [hr]
      refine ⟨iff_of_false (fun ⟨path, he⟩ => by cases he) (not_not_intro ?_), fun path he => by cases he⟩
      rw [waits_waitGraph_park ho.calm.sorted] at hno ⊢
      exact ho.calm.acyclic_park hno
  · -- The time is up of a request that waits; where there is no cycle, none would be closed.
    rw [waitsFor_withWaiting_of_mem hmem]
    exact ⟨iff_of_false (fun ⟨path, he⟩ => hnone path he) (not_not_intro hacyclic),
      fun path he => absurd he (hnone path)⟩

/-- Two sessions hold a lock each, and the first waits for that of the second. -/
def crossed : LockCalls :=
  let c := (ask false {} 1 1 true false).2
  let c := (ask false c 2 2 true false).2
  (ask false c 2 1 true false).2

theorem reached_crossed : Reached false Idle crossed :=
  ((Reached.start.step (.ask 1 1 true false (by decide))).step
    (.ask 2 2 true false (by decide))).step (.ask 2 1 true false (by decide))

/-- The second cannot wait for the lock of the first. -/
theorem deadlock_crossed : (crossed.ask false 1 2 true false).1 = .deadlock [2, 1] ∧
    Way (crossed.withWaiting ⟨1, 2, true⟩).WaitsFor 2 2 [2, 1] := by
  have hd : (crossed.ask false 1 2 true false).1 = .deadlock [2, 1] := by cbv
  have ht : Tested false crossed ⟨1, 2, true⟩ (crossed.ask false 1 2 true false).1 :=
    .ask (of_decide_eq_true (by cbv)) rfl
  exact ⟨hd, ((deadlock_iff_cycle reached_crossed).2 _ _ ht (by cbv)).2 _ hd⟩

end LockCalls

end RowStore
