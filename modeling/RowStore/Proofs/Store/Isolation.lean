import RowStore.Proofs.Store.Cautious

/-!
# Writers are isolated by the lock of their table

* `LockTable.HeldOnlyBy` : a session holds a lock alone;
* `Test.exclusive`, `unlock_exclusive` : nobody else takes that from it;
* `Kept` : where a session is in its call: it has no lock yet and does nothing, or it has the lock and
  keeps to its table;
* `Guarded`, `Guarded.move` : that goes for all sessions, whatever one of them does next;
* `Guarded.changing` : who changes anything holds the lock of the table;
* `Barred` : a call that does not get its lock changes nothing, and ends in a refusal;
* `writers_are_isolated` : so are the calls of all others, until the lock is given back.
-/

namespace RowStore
open RowStore.Action RowStore.Store

/-! ## Locks that are held alone -/

namespace LockTable
variable {t t' : LockTable} {r : LockRequest} {outcome : LockOutcome} {table session u : Nat}

/-- The session holds the lock alone, and no other holds it in any way. -/
def HeldOnlyBy (t : LockTable) (table session : Nat) : Prop :=
  (t.holdersOf table).exclusive = some session ∧ ∀ other ∈ (t.holdersOf table).all, other = session

theorem Safe.heldOnlyBy (h : t.Safe) (he : (t.holdersOf table).exclusive = some session) :
    t.HeldOnlyBy table session := by
  refine ⟨he, fun other ho => ?_⟩
  rcases LockHolders.mem_all.1 ho with ho | ho
  · exact h.sole table session he other ho
  · exact Option.some.inj (ho.symm.trans he)

theorem Acquired.exclusive (h : Acquired t r t') (he : (t.holdersOf table).exclusive = some u) :
    (t'.holdersOf table).exclusive = some u := by
  by_cases ht : table = r.table
  · subst ht
    rcases LockHolders.acquire?_cases h.holders with ⟨-, hsame⟩ | ⟨hnone, -⟩ | ⟨hnone, -⟩
    · exact hsame ▸ he
    · cases hnone.symm.trans he
    · cases hnone.symm.trans he
  · exact h.holdersOf_of_ne ht ▸ he

/-- A test lets its session in, or changes no holder of any lock. -/
theorem Test.cases (h : t.Test r outcome t') :
    outcome = .granted ∧ Acquired t r t' ∨ outcome ≠ .granted ∧ t'.holders = t.holders := by
  cases h with
  | request h =>
    rcases request_cases t r with ⟨t', ha, hr⟩ | ⟨-, path, -, hr⟩ | ⟨-, -, hr⟩ <;> cases h.symm.trans hr
    · exact Or.inl ⟨rfl, acquired ha⟩
    · exact Or.inr ⟨LockOutcome.noConfusion, rfl⟩
    · exact Or.inr ⟨LockOutcome.noConfusion, rfl⟩
  | expire _ h =>
    rcases expire_cases t r with ⟨t', ha, hr⟩ | ⟨-, hr⟩ <;> cases h.symm.trans hr
    · exact Or.inl ⟨rfl, acquired ha⟩
    · exact Or.inr ⟨LockOutcome.noConfusion, rfl⟩

theorem Test.safe (h : t.Test r outcome t') (hs : t.Safe) : t'.Safe := by
  cases h with
  | request h =>
    have hafter := hs.request r
    rw [h] at hafter
    exact hafter
  | expire _ h =>
    have hafter := hs.expire r
    rw [h] at hafter
    exact hafter

/-- No test takes a lock from the session that holds it alone. -/
theorem Test.exclusive (h : t.Test r outcome t') (he : (t.holdersOf table).exclusive = some u) :
    (t'.holdersOf table).exclusive = some u := by
  rcases h.cases with ⟨-, ha⟩ | ⟨-, hsame⟩
  · exact ha.exclusive he
  · rw [holdersOf, hsame]
    exact he

/-- No test takes a lock from anybody, and it gets one for its own session only. -/
theorem Test.holds_iff {b : Bool} (h : t.Test r outcome t') (hne : u ≠ r.session) :
    (t'.holdersOf table).Holds u b ↔ (t.holdersOf table).Holds u b := by
  rcases h.cases with ⟨-, ha⟩ | ⟨-, hsame⟩
  · exact ⟨ha.holds_of_ne hne, ha.holds⟩
  · rw [holdersOf, hsame]
    rfl

theorem Test.holds {b : Bool} (h : t.Test r outcome t') (hh : (t.holdersOf table).Holds u b) :
    (t'.holdersOf table).Holds u b := by
  rcases h.cases with ⟨-, ha⟩ | ⟨-, hsame⟩
  · exact ha.holds hh
  · rw [holdersOf, hsame]
    exact hh

theorem Test.holds_of_granted (h : t.Test r .granted t') :
    (t'.holdersOf r.table).Holds r.session r.exclusive := by
  rcases h.cases with ⟨-, ha⟩ | ⟨hne, -⟩
  · exact LockHolders.holds_acquire? ha.holders
  · exact absurd rfl hne

/-- A session that is to hold a lock alone does so once it is let in. -/
theorem Test.exclusive_of_granted (h : t.Test ⟨table, session, true⟩ .granted t') :
    (t'.holdersOf table).exclusive = some session := by
  rcases h.holds_of_granted with he | ⟨hx, -⟩
  · exact he
  · cases hx

/-- Who gives a lock back takes no other from anybody, and this one from nobody else. -/
theorem unlock_exclusive {table' : Nat} (he : (t.holdersOf table).exclusive = some u)
    (hne : ¬ (session = u ∧ table' = table)) :
    ((t.unlock table' session).holdersOf table).exclusive = some u := by
  by_cases ht : table = table'
  · subst ht
    rw [exclusive_unlock, he, if_neg fun hu => hne ⟨(Option.some.inj hu).symm, rfl⟩]
  · rw [holdersOf_unlock_of_ne ht]
    exact he

end LockTable

/-! ## What a session is told -/

/-- Only the trace changes when a session is told. -/
theorem final_tellLock (name : String) (u : Nat) (mode : Bool) (outcome : LockOutcome) (s : Store) :
    ∃ trace, final (tellLock name u mode outcome) s = { s with trace := trace } := by
  cases outcome <;> exact ⟨_, rfl⟩

/-- A session that is not let in is refused for want of the lock. -/
theorem result_tellLock (name : String) (u : Nat) (mode : Bool) {outcome : LockOutcome}
    (h : outcome ≠ .granted) (s : Store) :
    ∃ fault, result (tellLock name u mode outcome) s = .error fault ∧ Refusal fault := by
  cases outcome with
  | granted => exact absurd rfl h
  | deadlock path => exact ⟨_, rfl, .deadlock _ _⟩
  | timedOut | parked => exact ⟨_, rfl, .lockTimeout _⟩

/-! ## Where a session is in its call -/

/-- A script takes locks only. -/
def Script.Lone {α : Type} : Script α → Prop
  | .done _ => True
  | .fail _ => True
  | .act .. => False
  | .lock _ _ _ next => ∀ r, (next r).Lone

/-- A call that has no lock yet does nothing before it has one.  Else the session holds the lock of its
table alone, and keeps to that table.  Calls that are to change no rows take their lock and no more. -/
def Kept (s : Store) (u : Nat) (call : Call) (rest : Script Unit) : Prop :=
  match call.target? with
  | none => rest.Lone
  | some t => rest.Cautious t u ∨
    (s.locks.holdersOf t).exclusive = some u ∧ rest.Meek t u Script.Anything (s.undoLog u)

section Kept
variable {s s' : Store} {t u : Nat} {call : Call} {rest : Script Unit}

theorem kept_of_target (h : call.target? = some t) : Kept s u call rest ↔ rest.Cautious t u ∨
    (s.locks.holdersOf t).exclusive = some u ∧ rest.Meek t u Script.Anything (s.undoLog u) := by
  unfold Kept
  rw [h]

theorem kept_of_none (h : call.target? = none) : Kept s u call rest ↔ rest.Lone := by
  unfold Kept
  rw [h]

theorem kept_script (call : Call) : Kept s u call (call.script u) := by
  cases h : call.target? with
  | none =>
    rw [kept_of_none h]
    cases call with
    | lock t exclusive force =>
      intro r
      cases r <;> trivial
    | insert | delete | update => cases h
  | some t => exact (kept_of_target h).2 (Or.inl (Script.cautious_script h))

/-- What others do does not matter to a session that keeps its locks and its log. -/
theorem Kept.frame (h : Kept s u call rest) (hlog : s'.undoLog u = s.undoLog u)
    (hlocks : ∀ t, (s.locks.holdersOf t).exclusive = some u →
      (s'.locks.holdersOf t).exclusive = some u) : Kept s' u call rest := by
  cases ht : call.target? with
  | none => exact (kept_of_none ht).2 ((kept_of_none ht).1 h)
  | some t =>
    rw [kept_of_target ht] at h ⊢
    rw [hlog]
    exact h.imp_right fun ⟨he, hm⟩ => ⟨hlocks t he, hm⟩

end Kept

namespace Scene
variable {s₀ : Store} {c c' d : Scene} {t u v w : Nat} {e : Event} {call : Call} {rest : Script Unit}

/-- The session does not give back the lock of the table. -/
def KeepsLock (t u v : Nat) (e : Event) : Prop := ¬ (v = u ∧ e = .unlocks t)

def StaysIn (u v : Nat) (e : Event) : Prop := v = u → e = .works

theorem StaysIn.keepsLock (h : StaysIn u v e) : KeepsLock t u v e := by
  rintro ⟨hv, rfl⟩
  cases h hv

theorem Works.keepsLock (h : Works v u e) : KeepsLock t w u e := by
  rintro ⟨-, rfl⟩
  cases h.2

/-! ## One move -/

/-- The other sessions are where they were in their calls. -/
theorem Move.calls_of_ne (h : Move v c e c') (hne : u ≠ v) : c'.calls u = c.calls u := by
  cases h <;> exact calls_put_of_ne c hne _ _

/-- A session that goes on with its call is in the same call. -/
theorem Move.calls_self (h : Move v c .works c') :
    ∃ call rest rest', c.calls v = some (call, rest) ∧ c'.calls v = some (call, rest') := by
  cases h with
  | act h | pass h | wait h | told h => exact ⟨_, _, _, h, calls_put_self c v _ _⟩

/-- The locks are in order, there is one version of each row, and all calls are as they should be. -/
structure Guarded (c : Scene) : Prop where
  safe : c.store.locks.Safe
  single : c.store.options.multiVersion = false
  kept : ∀ u call rest, c.calls u = some (call, rest) → Kept c.store u call rest

/-- A move leaves the locks in order, and the logs and exclusive locks of other sessions as they are; so
it does those of its own session, unless that gives a lock back.  The session is in its call where it
should be. -/
structure Careful (v : Nat) (e : Event) (c c' : Scene) : Prop where
  safe : c'.store.locks.Safe
  options : c'.store.options = c.store.options
  logs : ∀ u, u ≠ v → c'.store.undoLog u = c.store.undoLog u
  holds : ∀ t u, (c.store.locks.holdersOf t).exclusive = some u → KeepsLock t u v e →
    (c'.store.locks.holdersOf t).exclusive = some u
  own : ∀ call rest, c'.calls v = some (call, rest) → Kept c'.store v call rest

/-- Where the store is as it was, there is only the call to look at. -/
theorem careful_put_self (h : Guarded c) {work : Option (Call × Script Unit)}
    (hw : ∀ call rest, work = some (call, rest) → Kept c.store v call rest) :
    Careful v e c (c.put v c.store work) where
  safe := h.safe
  options := rfl
  logs _ _ := rfl
  holds _ _ he _ := he
  own call rest hc := hw call rest ((calls_put_self c v c.store work).symm.trans hc)

/-- What a test of a lock does to the store. -/
theorem careful_put_locks (h : Guarded c) {r : LockRequest} {outcome : LockOutcome}
    {locks : LockTable} {trace : List TraceRecord} (test : c.store.locks.Test r outcome locks)
    (hk : Kept { c.store with locks := locks, trace := trace } v call rest) :
    Careful v e c (c.put v { c.store with locks := locks, trace := trace } (some (call, rest))) where
  safe := test.safe h.safe
  options := rfl
  logs _ _ := rfl
  holds _ _ he _ := test.exclusive he
  own call' rest' hc := by
    cases (calls_put_self c v _ (some (call, rest))).symm.trans hc
    exact hk

theorem careful_act {β : Type} {a : Action Store β} {next : Except Fault β → Script Unit}
    (h : Guarded c) (hc : c.calls v = some (call, .act a next)) :
    Careful v e c (c.put v (final a c.store) (some (call, next (result a c.store)))) := by
  have hk := h.kept v call _ hc
  cases ht : call.target? with
  | none => exact ((kept_of_none ht).1 hk).elim
  | some t =>
    rcases (kept_of_target ht).1 hk with hcautious | ⟨he, hmeek⟩
    -- without the lock, nothing is done
    · obtain ⟨hsame, hnext⟩ := hcautious c.store
      rw [hsame]
      refine careful_put_self h fun call' rest' hw => ?_
      cases hw
      exact (kept_of_target ht).2 (Or.inl hnext)
    -- with the lock, neither the locks nor the logs of others are touched
    · obtain ⟨hout, hnext⟩ := hmeek c.store rfl
      have hlocks : (final a c.store).locks = c.store.locks := congrArg (·.1) hout
      refine ⟨?_, congrArg (·.2.1) hout, ?_, ?_, ?_⟩
      · exact hlocks.symm ▸ h.safe
      · exact fun u hne => congrFun (congrArg (·.2.2.2) hout) ⟨u, hne⟩
      · intro t' u' he' _
        change ((final a c.store).locks.holdersOf t').exclusive = some u'
        rw [hlocks]
        exact he'
      · intro call' rest' hw
        cases (calls_put_self c v (final a c.store) _).symm.trans hw
        refine (kept_of_target ht).2 (Or.inr ⟨?_, hnext⟩)
        change ((final a c.store).locks.holdersOf t).exclusive = some v
        rw [hlocks]
        exact he

/-- A session that has been told goes on with the lock of its table, or is refused. -/
theorem kept_told {exclusive force : Bool} {next : Except Fault Unit → Script Unit}
    {outcome : LockOutcome} {s : Store} {name : String}
    (h : Kept c.store v call (.lock t exclusive force next))
    (test : c.store.locks.Test ⟨t, v, exclusive⟩ outcome s.locks) (s' : Store) :
    Kept s v call (next (result (tellLock name v exclusive outcome) s')) := by
  cases ht : call.target? with
  | none => exact (kept_of_none ht).2 ((kept_of_none ht).1 h _)
  | some t' =>
    rcases (kept_of_target ht).1 h with ⟨rfl, rfl, hbody, hrefused⟩ | ⟨-, hmeek⟩
    · refine (kept_of_target ht).2 ?_
      by_cases ho : outcome = .granted
      · subst ho
        exact Or.inr ⟨test.exclusive_of_granted, hbody _ trivial⟩
      · obtain ⟨fault, hfault, hr⟩ := result_tellLock name v true ho s'
        rw [hfault]
        exact Or.inl (hrefused fault hr)
    · exact hmeek.elim

/-- A request for a lock, where there is one version of each row, is taken as it is. -/
theorem Guarded.mode_eq (h : Guarded c) {exclusive force : Bool} {mode : Option Bool}
    (hm : effectiveMode c.store.options.multiVersion force exclusive = mode) :
    mode = some exclusive := by
  rw [h.single] at hm
  exact hm.symm

/-- Every move of a session is careful. -/
theorem Guarded.careful (h : Guarded c) (hm : Move v c e c') : Careful v e c c' := by
  cases hm with
  | begin call idle =>
    refine careful_put_self h fun call' rest hw => ?_
    cases hw
    exact kept_script call
  | act hc => exact careful_act h hc
  | pass hc hnone => cases h.mode_eq hnone -- only with several versions is a request relaxed to nothing
  | @wait call t exclusive force mode next locks hc hmode test =>
    refine careful_put_locks h test ?_
    cases ht : call.target? with
    | none => exact (kept_of_none ht).2 ((kept_of_none ht).1 (h.kept v _ _ hc))
    | some t' =>
      refine (kept_of_target ht).2 (Or.inl ?_)
      exact ((kept_of_target ht).1 (h.kept v _ _ hc)).resolve_right fun hmeek => hmeek.2
  | @told call t exclusive force mode next outcome locks hc hmode test ended =>
    obtain rfl := Option.some.inj (h.mode_eq hmode)
    obtain ⟨trace, htrace⟩ := final_tellLock (c.store.table t).engine.name v mode outcome
      { c.store with locks := locks }
    rw [htrace]
    exact careful_put_locks h test (kept_told (h.kept v _ _ hc) test _)
  | done hc => exact careful_put_self h fun call' rest hw => by cases hw
  | fail hc => exact careful_put_self h fun call' rest hw => by cases hw
  | unlock t idle =>
    refine ⟨h.safe.unlock t v, rfl, fun _ _ => rfl, ?_, ?_⟩
    · intro t' u he hkeeps
      exact LockTable.unlock_exclusive he fun ⟨hv, ht⟩ => hkeeps ⟨hv, congrArg Event.unlocks ht⟩
    · intro call rest hc
      cases (calls_put_self c v _ none).symm.trans hc

/-- Whatever a session does next, all is in order after that. -/
theorem Guarded.move (h : Guarded c) (hm : Move v c e c') : Guarded c' := by
  have hcare := h.careful hm
  refine ⟨hcare.safe, hcare.options ▸ h.single, fun u call rest hc => ?_⟩
  by_cases hu : u = v
  · subst hu
    exact hcare.own call rest hc
  · rw [hm.calls_of_ne hu] at hc
    exact (h.kept u call rest hc).frame (hcare.logs u hu) fun t he =>
      hcare.holds t u he fun hkeeps => hu hkeeps.1.symm

/-- A change of rows that changes what can be seen has its lock, and keeps to its table. -/
theorem Guarded.changing (h : Guarded c) (hc : c.calls u = some (call, rest))
    (ht : call.target? = some t) (hm : Move u c .works c')
    (hne : c'.store.visible ≠ c.store.visible) :
    (c.store.locks.holdersOf t).exclusive = some u ∧ c'.store.outside t u = c.store.outside t u := by
  have hk := (kept_of_target ht).1 (h.kept u call rest hc)
  cases hm with
  | @act _ _ a next hact =>
    cases hc.symm.trans hact
    rcases hk with hcautious | ⟨he, hmeek⟩
    · exact absurd (congrArg visible (hcautious c.store).1) hne
    · exact ⟨he, (hmeek c.store rfl).1⟩
  | pass => exact absurd rfl hne
  | wait => exact absurd rfl hne
  | @told _ t' _ _ mode _ outcome locks =>
    obtain ⟨trace, htrace⟩ := final_tellLock (c.store.table t').engine.name u mode outcome
      { c.store with locks := locks }
    exact absurd (congrArg visible htrace) hne

/-! ## Many moves -/

section Path
variable {allowed : Nat → Event → Prop}

theorem Guarded.path (h : Guarded c) (hp : Path allowed c d) : Guarded d := by
  induction hp with
  | refl => exact h
  | move _ _ hm ih => exact ih.move hm

theorem Reached.guarded (h : Reached s₀ c) (fresh : s₀.locks = {})
    (single : s₀.options.multiVersion = false) : Guarded c := by
  refine Guarded.path ⟨?_, single, fun u call rest hc => ?_⟩ h
  · change s₀.locks.Safe
    rw [fresh]
    exact LockTable.safe_empty
  · cases hc

/-- A session that holds a lock alone does so until it gives it back. -/
theorem Guarded.holds_path (h : Guarded c) (he : (c.store.locks.holdersOf t).exclusive = some u)
    (hp : Path (KeepsLock t u) c d) : (d.store.locks.holdersOf t).exclusive = some u := by
  induction hp with
  | refl => exact he
  | move hp ha hm ih => exact ((h.path hp).careful hm).holds t u ih ha

/-- A session that does nothing but go on with its call is in the same call. -/
theorem calls_path (hc : c.calls u = some (call, rest)) (hp : Path (StaysIn u) c d) :
    ∃ rest', d.calls u = some (call, rest') := by
  induction hp with
  | refl => exact ⟨rest, hc⟩
  | @move _ _ v e _ ha hm ih =>
    obtain ⟨rest', hc'⟩ := ih
    by_cases hv : v = u
    · subst hv
      cases ha rfl
      obtain ⟨call', _, rest'', hbefore, hafter⟩ := hm.calls_self
      cases hc'.symm.trans hbefore
      exact ⟨rest'', hafter⟩
    · exact ⟨rest', (hm.calls_of_ne (Ne.symm hv)).trans hc'⟩

end Path

/-! ## Isolation -/

/-- The call of a session does not get the lock of its table.  `rest` is what is left of it in a
scene `d`. -/
structure Barred (s₀ : Store) (v : Nat) (call : Call) (rest : Script Unit) (d : Scene) : Prop where
  /-- No step of the call has changed anything that can be seen. -/
  unseen : ∀ e e', Reached s₀ e → Move v e .works e' → Path (StaysIn v) e' d →
    e'.store.visible = e.store.visible
  /-- If something has come of it, it was refused for want of the lock or because writes are not
  taken. -/
  refused : ∀ came, rest = .ofResult came → ∃ fault, came = .error fault ∧ Refusal fault
  /-- It comes to that without the others. -/
  ends : ∃ d' fault, Path (Works v) d d' ∧ d'.calls v = some (call, .fail fault) ∧ Refusal fault

/-- While another session holds the lock of its table, a call waits for it. -/
theorem Guarded.cautious (h : Guarded d) (he : (d.store.locks.holdersOf t).exclusive = some u)
    (hne : v ≠ u) (hc : d.calls v = some (call, rest)) (ht : call.target? = some t) :
    rest.Cautious t v := by
  refine ((kept_of_target ht).1 (h.kept v call rest hc)).resolve_right fun hkept => hne ?_
  exact Option.some.inj (hkept.1.symm.trans he)

theorem refused_of_cautious {came : Except Fault Unit}
    (h : (Script.ofResult came).Cautious t v) : ∃ fault, came = .error fault ∧ Refusal fault := by
  cases came with
  | ok a => exact h.elim
  | error fault => exact ⟨fault, rfl, h⟩

/-- A call that waits for a lock now has changed nothing before. -/
theorem Guarded.unseen (h : Guarded c) (he : (d.store.locks.holdersOf t).exclusive = some u)
    (hne : v ≠ u) (hc : d.calls v = some (call, rest)) (ht : call.target? = some t)
    (hm : Move v c .works c') (hp : Path (StaysIn v) c' d) :
    c'.store.visible = c.store.visible := by
  by_contra hchanged
  obtain ⟨call', before, after, hbefore, hafter⟩ := hm.calls_self
  obtain ⟨rest', hend⟩ := calls_path hafter hp
  cases hc.symm.trans hend
  -- the session would have had the lock then, and could not have lost it within the call
  obtain ⟨hx, hout⟩ := h.changing hbefore ht hm hchanged
  have hlocks : c'.store.locks = c.store.locks := congrArg (·.1) hout
  have hv := (h.move hm).holds_path (hlocks.symm ▸ hx) (hp.mono fun _ _ hs => hs.keepsLock)
  exact hne (Option.some.inj (hv.symm.trans he))

/-- It is refused at its next test at the latest, if that is its last. -/
theorem Guarded.ends (h : Guarded d) (he : (d.store.locks.holdersOf t).exclusive = some u)
    (hne : v ≠ u) (hc : d.calls v = some (call, rest)) (ht : call.target? = some t) :
    ∃ d' fault, Path (Works v) d d' ∧ d'.calls v = some (call, .fail fault) ∧ Refusal fault := by
  have hrun := moves_run hc
  have hcalls := calls_put_self d v (final (rest.run v) d.store)
    (some (call, Script.ofResult (result (rest.run v) d.store)))
  have he' := h.holds_path he (hrun.mono fun _ _ hw => hw.keepsLock)
  obtain ⟨fault, hfault, hr⟩ := refused_of_cautious ((h.path hrun).cautious he' hne hcalls ht)
  rw [hfault] at hrun hcalls
  exact ⟨_, fault, hrun, hcalls, hr⟩

/-- Writers are isolated by the lock of their table.  A session that changes, in a change of rows, what
can be seen holds the lock of the table alone, and changes no other table and no other log.  It holds the
lock until it gives it back.  Whatever the sessions do until then, calls of the others that are to change
rows of the table change nothing, and are refused. -/
theorem writers_are_isolated (fresh : s₀.locks = {}) (single : s₀.options.multiVersion = false)
    (reached : Reached s₀ c) (working : c.calls u = some (call, rest))
    (target : call.target? = some t) (move : Move u c .works c')
    (changed : c'.store.visible ≠ c.store.visible) :
    c.store.locks.HeldOnlyBy t u ∧ c'.store.outside t u = c.store.outside t u ∧
      ∀ d, Path (KeepsLock t u) c' d →
        d.store.locks.HeldOnlyBy t u ∧
        ∀ v call' rest', v ≠ u → d.calls v = some (call', rest') → call'.target? = some t →
          Barred s₀ v call' rest' d := by
  have hguarded := reached.guarded fresh single
  obtain ⟨he, hout⟩ := hguarded.changing working target move changed
  refine ⟨hguarded.safe.heldOnlyBy he, hout, fun d hp => ?_⟩
  have hlocks : c'.store.locks = c.store.locks := congrArg (·.1) hout
  have he' : (d.store.locks.holdersOf t).exclusive = some u :=
    (hguarded.move move).holds_path (hlocks.symm ▸ he) hp
  have hd := (hguarded.move move).path hp
  refine ⟨hd.safe.heldOnlyBy he', fun v call' rest' hne hc ht => ?_⟩
  refine ⟨fun e e' hreached hm hstays => ?_, ?_, hd.ends he' hne hc ht⟩
  · exact (hreached.guarded fresh single).unseen he' hne hc ht hm hstays
  · rintro came rfl
    exact refused_of_cautious (hd.cautious he' hne hc ht)

/-- A row that one session deletes and another is to update. -/
def disputed : Row := ⟨some 0, [some (.int 1)]⟩

def overtaken : Call := .update 7 (fun _ => false) [(disputed, ⟨some 0, [some (.int 3)]⟩)]

/-- A session deletes a row that another is to update.  The other waits for the lock until its time is
up, and is refused though the first is done with its call. -/
theorem isolated_delete :
    ∃ c c', (Reached (storeOf twoRows none) c ∧ Move 1 c .works c' ∧
        (c.store.table 7).engine.row? 0 = some disputed ∧ (c'.store.table 7).engine.row? 0 = none ∧
        c.store.locks.HeldOnlyBy 7 1) ∧
      ∃ d, Path (KeepsLock 7 1) c' d ∧ d.calls 1 = none ∧ d.store.locks.HeldOnlyBy 7 1 ∧
        d.calls 2 = some (overtaken, .fail (.error (.lockTimeout "T"))) ∧
        Barred (storeOf twoRows none) 2 overtaken (.fail (.error (.lockTimeout "T"))) d := by
  have h : Reached (storeOf twoRows none) _ := .refl
  -- session 1 gets the lock and is about to delete the row
  have h := h.move trivial (.begin (u := 1) (.delete 7 disputed) rfl)
  have h := h.move trivial (.act (u := 1) rfl)
  have h := h.move trivial (.told (u := 1) rfl rfl (.request rfl) LockOutcome.noConfusion)
  have h := h.move trivial (.act (u := 1) rfl)
  have h := h.move trivial (.act (u := 1) rfl)
  have h := h.move trivial (.act (u := 1) rfl)
  -- session 2 waits for the lock
  have h := h.move trivial (.begin (u := 2) overtaken rfl)
  have h := h.move trivial (.act (u := 2) rfl)
  have h := h.move trivial (.wait (u := 2) rfl rfl (.request (LockTable.request_of_none rfl rfl)))
  obtain ⟨hheld, -, hlater⟩ := writers_are_isolated (u := 1) (t := 7) rfl rfl h rfl rfl
    (.act (u := 1) rfl) fun he => nomatch congrArg (fun v => (v.1 7).row? 0) he
  refine ⟨_, _, ⟨h, .act (u := 1) rfl, rfl, rfl, hheld⟩, ?_⟩
  suffices hd : ∃ d, Path (KeepsLock 7 1) _ d ∧ d.calls 1 = none ∧
      d.calls 2 = some (overtaken, .fail (.error (.lockTimeout "T"))) by
    obtain ⟨d, hp, hidle, hfail⟩ := hd
    obtain ⟨hheld', hbarred⟩ := hlater d hp
    exact ⟨d, hp, hidle, hheld', hfail, hbarred 2 overtaken _ (by decide) hfail rfl⟩
  -- the deletion is logged and done, and the time of session 2 is up
  have hwork (v : Nat) : KeepsLock 7 1 v .works := fun hu => nomatch hu.2
  have hreturn (v : Nat) : KeepsLock 7 1 v .returns := fun hu => nomatch hu.2
  exact ⟨_, (((Path.refl.move (hwork 1) (.act rfl)).move (hreturn 1) (.done rfl)).move (hwork 2)
    (.told rfl rfl (.expire rfl rfl) LockOutcome.noConfusion)), rfl, rfl⟩

end Scene

end RowStore
