import RowStore.Proofs.Store.Orderly

/-!
# What each kind of turn does

* `fair_quiet` : a turn that changes no rows; `fair_begin`, `fair_told`, `fair_wait`, `fair_pass`, `fair_return`,
  `fair_unlock` are such turns;
* `fair_act` : a step of a call, that changes rows if the session has the lock;
* `Orderly.goesBack` : a session that is between its calls can go back to every savepoint since the start;
  `fair_back`;
* `Orderly.fair` : so every turn is fair that gives no row the last key and runs past no end.
-/

namespace RowStore
open RowStore.Action RowStore.Store

namespace Scene
variable {s₀ : Store} {history : List Moment} {c c' : Scene} {t u v : Nat} {call : Call} {rest : Script Unit}
  {d : Deed} {owed : Nat → Nat → List UndoRecord}

theorem Orderly.attached (h : Orderly s₀ history c owed) (u : Nat) : c.store.detached.contains u = false := by
  rw [h.registered]
  rfl

theorem Orderly.settled_of_idle (h : Orderly s₀ history c owed) (idle : c.calls u = none) (t : Nat) :
    Settled s₀ c.store u t (owed u t) := by
  have hstands := h.stands u
  rw [idle] at hstands
  obtain ⟨settled⟩ := hstands
  exact settled t

/-! ## Turns that change no rows -/

section Quiet
variable {work : Option (Call × Script Unit)}

/-- A turn that changes no rows and no log, and not which locks the others have. -/
theorem fair_quiet (h : Orderly s₀ history c owed) (locks : LockTable) (trace : List TraceRecord)
    (safe : locks.Safe)
    (has : ∀ t v, v ≠ u → (Has { c.store with locks := locks, trace := trace } t v ↔ c.store.Has t v))
    (held : ∀ r ∈ s₀.since c.store u, Has { c.store with locks := locks, trace := trace } r.table u)
    (hs : Stands s₀
      (moment u d c (c.put u { c.store with locks := locks, trace := trace } work) :: history)
      { c.store with locks := locks, trace := trace } u (owed u) work) :
    Fair s₀ history u c (owed u) d (c.put u { c.store with locks := locks, trace := trace } work)
      (owed u) where
  safe := safe
  options := rfl
  registered := h.registered
  tables _ ht := ht
  follows t := .refl (h.full t)
  engines _ _ := rfl
  logs _ _ := rfl
  has := has
  started := h.started u
  held r hr := ⟨held r hr, (h.held u r hr).2⟩
  recalls := h.recalls u
  changes _ _ hne := absurd rfl hne
  puts _ _ _ _ hne := absurd rfl hne
  does _ _ hq := Or.inl hq
  stands := by
    rw [calls_put_self]
    exact hs

theorem fair_put_self (h : Orderly s₀ history c owed)
    (hs : Stands s₀ (moment u d c (c.put u c.store work) :: history) c.store u (owed u) work) :
    Fair s₀ history u c (owed u) d (c.put u c.store work) (owed u) :=
  fair_quiet h c.store.locks c.store.trace h.safe (fun _ _ _ => Iff.rfl) (fun r hr => (h.held u r hr).1) hs

theorem fair_put_locks (h : Orderly s₀ history c owed) {table : Nat} {mode : Bool} {outcome : LockOutcome}
    {locks : LockTable} {trace : List TraceRecord}
    (test : c.store.locks.Test ⟨table, u, mode⟩ outcome locks)
    (hs : Stands s₀
      (moment u d c (c.put u { c.store with locks := locks, trace := trace } work) :: history)
      { c.store with locks := locks, trace := trace } u (owed u) work) :
    Fair s₀ history u c (owed u) d (c.put u { c.store with locks := locks, trace := trace } work)
      (owed u) :=
  fair_quiet h locks trace (test.safe h.safe) (fun _ _ hv => test.holds_iff hv)
    (fun r hr => test.holds (h.held u r hr).1) hs

theorem fair_begin (h : Orderly s₀ history c owed) (idle : c.calls u = none)
    (htable : ∀ t, call.target? = some t → c.store.tables.contains t = true) :
    Fair s₀ history u c (owed u) d (c.put u c.store (some (call, call.script u))) (owed u) := by
  refine fair_put_self h (.waits (h.settled_of_idle idle) ?_)
  cases ht : call.target? with
  | none => exact (waits_of_none ht).2 ((kept_of_none (s := c.store) ht).1 (kept_script call))
  | some t =>
    exact (waits_of_target ht).2
      ⟨htable t ht, Script.cautious_script ht, Script.faithful_script ht⟩

theorem has_of_granted {force mode : Bool} {s s' : Store}
    (hm : effectiveMode s.options.multiVersion force true = some mode)
    (ho : s'.options = s.options) (hh : (s'.locks.holdersOf t).Holds u mode) : s'.Has t u := by
  unfold Has
  rw [ho]
  have hmode : mode = true ∨ mode = !s.options.multiVersion := by
    revert hm
    cases s.options.multiVersion <;> cases force <;> simp [effectiveMode]
  rcases hmode with rfl | rfl
  · exact Or.inl (hh.resolve_right fun hshared => Bool.noConfusion hshared.1)
  · exact hh

theorem fair_told (h : Orderly s₀ history c owed) {exclusive force mode : Bool} {table : Nat}
    {next : Except Fault Unit → Script Unit} {outcome : LockOutcome} {locks : LockTable}
    (hc : c.calls u = some (call, .lock table exclusive force next))
    (hm : effectiveMode c.store.options.multiVersion force exclusive = some mode)
    (test : c.store.locks.Test ⟨table, u, mode⟩ outcome locks) (name : String) (s' : Store)
    (trace : List TraceRecord) :
    Fair s₀ history u c (owed u) d (c.put u { c.store with locks := locks, trace := trace }
      (some (call, next (result (tellLock name u mode outcome) s')))) (owed u) := by
  have hstands := h.stands u
  rw [hc] at hstands
  refine fair_put_locks h test ?_
  cases hstands with
  | works _ _ _ _ _ meek => exact meek.elim
  | waits settled waits =>
    cases ht : call.target? with
    | none =>
      exact .waits (fun t => (settled t).of_log rfl) ((waits_of_none ht).2 ((waits_of_none ht).1 waits _))
    | some t =>
      obtain ⟨htable, ⟨rfl, rfl, hbody, hrefused⟩, hgranted, hfaithful⟩ := (waits_of_target ht).1 waits
      by_cases ho : outcome = .granted
      · -- it has the lock, and owes what it owed
        subst ho
        refine .works ht htable (has_of_granted hm rfl test.holds_of_granted)
          (fun t' _ => (settled t').of_log rfl) ?_ (hbody _ trivial)
        exact ⟨c.store.undoLog u, [], h.started u, grown_self _, settled table,
          fun _ hq => absurd hq List.not_mem_nil, hgranted _⟩
      · obtain ⟨fault, hfault, hr⟩ := result_tellLock name u mode ho s'
        rw [hfault]
        exact .waits (fun t => (settled t).of_log rfl)
          ((waits_of_target ht).2 ⟨htable, hrefused fault hr, hfaithful fault⟩)

theorem fair_wait (h : Orderly s₀ history c owed) {exclusive force mode : Bool} {table : Nat}
    {next : Except Fault Unit → Script Unit} {locks : LockTable}
    (hc : c.calls u = some (call, .lock table exclusive force next))
    (test : c.store.locks.Test ⟨table, u, mode⟩ .parked locks) :
    Fair s₀ history u c (owed u) d
      (c.put u { c.store with locks := locks } (some (call, .lock table exclusive force next))) (owed u) := by
  have hstands := h.stands u
  rw [hc] at hstands
  refine fair_put_locks h test ?_
  cases hstands with
  | works _ _ _ _ _ meek => exact meek.elim
  | waits settled waits => exact .waits (fun t => (settled t).of_log rfl) (waits.frame fun _ ht => ht)

theorem fair_pass (h : Orderly s₀ history c owed) {exclusive force : Bool} {table : Nat}
    {next : Except Fault Unit → Script Unit}
    (hc : c.calls u = some (call, .lock table exclusive force next))
    (relaxed : effectiveMode c.store.options.multiVersion force exclusive = none) :
    Fair s₀ history u c (owed u) d (c.put u c.store (some (call, next (.ok ())))) (owed u) := by
  have hstands := h.stands u
  rw [hc] at hstands
  cases hstands with
  | works _ _ _ _ _ meek => exact meek.elim
  | waits settled waits =>
    refine fair_put_self h (.waits settled ?_)
    cases ht : call.target? with
    | none => exact (waits_of_none ht).2 ((waits_of_none ht).1 waits _)
    | some t =>
      -- a request for a lock that changes of rows ask for is never relaxed to nothing
      obtain ⟨-, ⟨-, rfl, -, -⟩, -⟩ := (waits_of_target ht).1 waits
      revert relaxed
      cases c.store.options.multiVersion <;> cases force <;> exact fun hnone => nomatch hnone

theorem fair_return (h : Orderly s₀ history c owed) (came : Except Fault Unit)
    (hc : c.calls u = some (call, .ofResult came)) :
    Fair s₀ history u c (owed u) d (c.put u c.store none) (owed u) := by
  have hstands := h.stands u
  rw [hc] at hstands
  refine fair_put_self h (.idle fun t => ?_)
  cases hstands with
  | waits settled waits => exact settled t
  | @works _ _ t' target present has settled busy meek =>
    by_cases ht : t = t'
    · subst ht
      obtain ⟨log₀, mine, hstart, -, howes, -, hends⟩ := busy
      have htold : Told t log₀ (c.store.undoLog u) mine := by
        cases came <;> exact hends
      exact howes.trans (htold.records hstart).symm
    · exact settled t ht

theorem fair_unlock (h : Orderly s₀ history c owed) (idle : c.calls u = none)
    (hfree : ∀ r ∈ s₀.since c.store u, r.table ≠ t) :
    Fair s₀ history u c (owed u) d (c.put u (final (Store.unlock t u) c.store) none) (owed u) := by
  have hothers : ∀ t' v, t' ≠ t →
      ((final (Store.unlock t u) c.store).Has t' v ↔ c.store.Has t' v) := by
    intro t' v ht
    change ((c.store.locks.unlock t u).holdersOf t').Holds v _ ↔ _
    rw [LockTable.holdersOf_unlock_of_ne ht]
    rfl
  refine fair_quiet h (c.store.locks.unlock t u) c.store.trace (h.safe.unlock t u) (fun t' v hv => ?_)
    (fun r hr => (hothers r.table u (hfree r hr)).2 (h.held u r hr).1)
    (.idle fun t' => (h.settled_of_idle idle t').of_log rfl)
  by_cases ht : t' = t
  · subst ht
    exact LockTable.holds_unlock.trans (and_iff_right hv)
  · exact hothers t' v ht

end Quiet

/-! ## Changes at work -/

theorem has_of_outside {s s' : Store} (h : s'.outside t u = s.outside t u) (t' v : Nat) :
    s'.Has t' v ↔ s.Has t' v := by
  have hlocks : s'.locks = s.locks := congrArg (·.1) h
  have hoptions : s'.options = s.options := congrArg (·.2.1) h
  unfold Has
  rw [hlocks, hoptions]

section Work
variable {β : Type} {a : Action Store β} {next : Except Fault β → Script Unit}
  {log₀ mine mine' before : List UndoRecord} {plain : Prop} {s s' : Store} {q : UndoRecord}

theorem Settled.advances (h : s.Advances t u plain log₀ mine mine' s')
    (hstart : (s₀.session u).position ≤ log₀.length) (hgrown : Grown (·.table = t) log₀ (s.undoLog u))
    {t' : Nat} (ht : t' ≠ t) {records : List UndoRecord} (hs : Settled s₀ s u t' records) :
    Settled s₀ s' u t' records := by
  refine hs.trans (congrArg List.reverse ?_)
  exact (recordsOf_of_grown hgrown hstart ht).trans (recordsOf_of_grown h.grown hstart ht).symm

/-- What was logged before a call is still there, and the rest is of the table of the call. -/
theorem held_of_advances (h : s.Advances t u plain log₀ mine mine' s')
    (hstart : (s₀.session u).position ≤ log₀.length) (hgrown : Grown (·.table = t) log₀ (s.undoLog u))
    (hiff : ∀ t' v, s'.Has t' v ↔ s.Has t' v) (has : s.Has t u) (present : s.tables.contains t = true)
    (held : ∀ r ∈ s₀.since s u, s.Has r.table u ∧ s.tables.contains r.table = true) :
    ∀ r ∈ s₀.since s' u, s'.Has r.table u ∧ s'.tables.contains r.table = true := by
  intro r hr
  rw [hiff]
  rcases mem_or_of_grown h.grown hstart hr with hold | ht
  · obtain ⟨hhas, htable⟩ := held r (mem_drop_of_grown hgrown hstart hold)
    exact ⟨hhas, h.tables _ htable⟩
  · rw [ht]
    exact ⟨has, h.tables t present⟩

/-- What a session does in a step of its call, it has made in that call. -/
theorem made_of_does {c' : Scene} (h : (c.store.table t).engine.Does (c'.store.table t).engine q)
    (hs : (c.store.table t).engine.Sound) (hs' : (c'.store.table t).engine.Sound) :
    Made t (ongoing u (moment u (.moves .works) c c' :: history)) q := by
  rw [ongoing_works]
  refine ⟨_, List.mem_cons_self, ?_⟩
  have hchanged : ∀ key, q.row.key = some key → (c'.store.table t).engine.row? key ≠
      (c.store.table t).engine.row? key := fun _ hkey => h.changes hkey
  obtain ⟨key, hkey, ⟨hop, hold, -⟩ | ⟨hop, -, hnew⟩⟩ := h
  · exact Or.inr ⟨hop, mem_gone hs hs' hold (hchanged key hkey)⟩
  · exact Or.inl ⟨hop, mem_gone hs' hs hnew (Ne.symm (hchanged key hkey))⟩

theorem Made.works {c' : Scene} (h : Made t (ongoing u history) q) :
    Made t (ongoing u (moment u (.moves .works) c c' :: history)) q := by
  rw [ongoing_works]
  obtain ⟨m, hm, hmade⟩ := h
  exact ⟨m, List.mem_cons_of_mem _ hm, hmade⟩

theorem fair_work (h : Orderly s₀ history c owed) (hc : c.calls u = some (call, .act a next))
    (target : call.target? = some t) (present : c.store.tables.contains t = true) (has : c.store.Has t u)
    (settled : ∀ t', t' ≠ t → Settled s₀ c.store u t' (owed u t'))
    (busy : Busy s₀ history c.store u t (owed u t) call (.act a next))
    (meek : (Script.act a next).Meek t u Script.Anything (c.store.undoLog u))
    (copies : (Script.act a next).RemovesCopies t call.oldRows c.store)
    (spared : (c.store.table t).engine.Spares ((final a c.store).table t).engine)
    (calm : (next (result a c.store)).panics = false) :
    ∃ owes', Fair s₀ history u c (owed u) (.moves .works)
      (c.put u (final a c.store) (some (call, next (result a c.store)))) owes' := by
  obtain ⟨log₀, mine, hstart, hgrown, howes, hmade, hends⟩ := busy
  have hrecalls := h.recalls u t
  rw [howes] at hrecalls
  obtain ⟨hout, hmeek⟩ := meek c.store rfl
  obtain ⟨mine', hstep, hnext⟩ := hends c.store
    ⟨rfl, h.attached u, present, h.full t, hrecalls.split⟩ copies spared calm
  have hiff := has_of_outside hout
  have hengines : ∀ t', t' ≠ t → ((final a c.store).table t').engine = (c.store.table t').engine :=
    fun t' hne => congrFun (congrArg (·.2.2.1) hout) ⟨t', hne⟩
  have hfollows : ∀ t', (c.store.table t').engine.Follows ((final a c.store).table t').engine := by
    intro t'
    by_cases ht : t' = t
    · exact ht ▸ hstep.follows
    · rw [hengines t' ht]
      exact .refl (h.full t')
  refine ⟨Function.update (owed u) t
    (mine' ++ (recordsOf t (log₀.drop (s₀.session u).position)).reverse), ?_⟩
  exact {
    safe := (congrArg (·.1) hout : (final a c.store).locks = c.store.locks).symm ▸ h.safe
    options := congrArg (·.2.1) hout
    registered := hstep.detached.trans h.registered
    tables := hstep.tables
    follows := hfollows
    engines := fun t' hn => hengines t' fun ht => hn (ht ▸ has)
    logs := fun v hv => congrFun (congrArg (·.2.2.2) hout) ⟨v, hv⟩
    has := fun t' v _ => hiff t' v
    started := length_le_of_grown hstep.grown hstart
    held := held_of_advances hstep hstart hgrown hiff has present (h.held u)
    recalls := by
      intro t'
      by_cases ht : t' = t
      · subst ht
        rw [Function.update_self]
        exact Engine.Owes.step (h.full t') hrecalls hstep.step hstep.follows
      · rw [Function.update_of_ne ht]
        change Engine.Owes ((final a c.store).table t').engine _ _
        rw [hengines t' ht]
        exact h.recalls u t'
    changes := by
      intro t' key hne
      obtain rfl : t' = t := by
        by_contra ht
        exact hne (congrArg (Engine.row? · key) (hengines t' ht))
      rcases hstep.step.changes hne with hown | hstored | hfresh
      · rw [howes, Engine.touched_append]
        exact Or.inl (Or.inl hown)
      · exact Or.inr ⟨⟨_, rfl⟩, Or.inl hstored⟩
      · exact Or.inr ⟨⟨_, rfl⟩, Or.inr fun hplain => hfresh (hplain call _ hc)⟩
    puts := fun _ _ _ _ _ => Or.inl ⟨_, rfl⟩
    does := by
      intro t' q hq
      by_cases ht : t' = t
      · subst ht
        rw [Function.update_self] at hq
        rw [howes, List.mem_append]
        rcases List.mem_append.1 hq with hq | hq
        · exact (hstep.step.does hq).imp_left Or.inl
        · exact Or.inl (Or.inr hq)
      · rw [Function.update_of_ne ht] at hq
        exact Or.inl hq
    stands := by
      rw [calls_put_self]
      refine .works target (hstep.tables t present) ((hiff t u).2 has) (fun t' ht => ?_) ?_ hmeek
      · rw [Function.update_of_ne ht]
        exact (settled t' ht).advances hstep hstart hgrown ht
      · rw [Function.update_self]
        refine ⟨log₀, mine', hstart, hstep.grown, rfl, fun q hq => ?_, hnext⟩
        rcases hstep.step.does hq with hq | hdoes
        · exact (hmade q hq).works
        · exact made_of_does hdoes (h.full t).sound hstep.follows.full.sound }

theorem fair_act (h : Orderly s₀ history c owed) (hc : c.calls u = some (call, .act a next))
    (copies : ∀ t, call.target? = some t → (Script.act a next).RemovesCopies t call.oldRows c.store)
    (spared : ∀ t, (c.store.table t).engine.Spares ((final a c.store).table t).engine)
    (calm : (next (result a c.store)).panics = false) :
    ∃ owes', Fair s₀ history u c (owed u) (.moves .works)
      (c.put u (final a c.store) (some (call, next (result a c.store)))) owes' := by
  have hstands := h.stands u
  rw [hc] at hstands
  cases hstands with
  | works target present has settled busy meek =>
    exact fair_work h hc target present has settled busy meek (copies _ target) (spared _) calm
  | waits settled waits =>
    cases ht : call.target? with
    | none => exact ((waits_of_none ht).1 waits).elim
    | some t =>
      obtain ⟨htable, hcautious, hfaithful⟩ := (waits_of_target ht).1 waits
      obtain ⟨hsame, hnext⟩ := hcautious c.store
      rw [hsame]
      refine ⟨_, fair_put_self h (.waits settled ?_)⟩
      exact (waits_of_target ht).2 ⟨htable, hnext, hfaithful c.store⟩

end Work

/-! ## Ways back -/

/-- A session has gone back to a savepoint.  It has taken back what it did later, and still is to take back what
it did earlier. -/
structure WentBack (s₀ : Store) (history : List Moment) (c : Scene) (u savepoint : Nat)
    (owes later earlier : Nat → List UndoRecord) (b : Store) : Prop where
  ok : rollbackTo u savepoint c.store = .ok () b
  went : Went ((c.store.undoLog u).drop savepoint).reverse (c.store.cutLog u savepoint) b
  log : b.undoLog u = (c.store.undoLog u).take savepoint
  owes : ∀ t, owes t = later t ++ earlier t
  settled : ∀ t, Settled s₀ b u t (earlier t)
  follows : ∀ t, (c.store.table t).engine.Follows (b.table t).engine
  undoes : ∀ t, (c.store.table t).engine.Undoes (later t) (c.store.table t).engine.row? (b.table t).engine.row?
  rest : ∀ t, (c.store.table t).engine.Undoes (earlier t) (b.table t).engine.row? (found history c.store u t)

section Back
variable {savepoint : Nat}

/-- Between its calls, a session can go back to every savepoint since the start. -/
theorem Orderly.goesBack (h : Orderly s₀ history c owed) (idle : c.calls u = none)
    (hs : (s₀.session u).position ≤ savepoint) :
    ∃ later earlier b, WentBack s₀ history c u savepoint (owed u) later earlier b := by
  have hsplit := since_split (h.started u) hs
  have howes : ∀ t, owed u t = (recordsOf t ((c.store.undoLog u).drop savepoint)).reverse ++
      (recordsOf t (((c.store.undoLog u).take savepoint).drop (s₀.session u).position)).reverse := by
    intro t
    rw [h.settled_of_idle idle t, hsplit, recordsOf_append, List.reverse_append]
  have htables : ∀ r ∈ (c.store.session u).undoLog.drop savepoint,
      c.store.tables.contains r.table = true := by
    intro r hr
    refine (h.held u r ?_).2
    rw [hsplit]
    exact List.mem_append_right _ hr
  have hundoes : ∀ t, ∃ mid, (c.store.table t).engine.Undoes
      (recordsOf t ((c.store.undoLog u).drop savepoint)).reverse (c.store.table t).engine.row? mid ∧
        (c.store.table t).engine.Undoes
          (recordsOf t (((c.store.undoLog u).take savepoint).drop (s₀.session u).position)).reverse mid
          (found history c.store u t) := by
    intro t
    have hrecalls := (h.recalls u t).undoes
    rw [howes] at hrecalls
    exact hrecalls.split
  choose mid hlater hearlier using hundoes
  have hbelow : ∀ t, (c.store.table t).engine.Owes
      (recordsOf t ((c.store.undoLog u).drop savepoint)).reverse (mid t) := by
    refine fun t => ⟨hlater t, fun key ht => (h.recalls u t).below key ?_⟩
    rw [howes, Engine.touched_append]
    exact Or.inl ht
  obtain ⟨b, hok, hwent, hrest⟩ := rollbackTo_of_owes (h.attached u) htables h.full hbelow
  have hlog : b.undoLog u = (c.store.undoLog u).take savepoint := by
    rw [← final_of_ok hok]
    exact undoLog_rollbackTo savepoint c.store
  refine ⟨_, _, b, hok, hwent, hlog, howes, fun t => ?_, fun t => (hrest t).1, fun t => ?_, fun t => ?_⟩
  · unfold Settled since
    rw [hlog]
  · rw [(hrest t).2]
    exact hlater t
  · rw [(hrest t).2]
    exact hearlier t

variable {owes later earlier : Nat → List UndoRecord} {b : Store}

theorem WentBack.has_iff (w : WentBack s₀ history c u savepoint owes later earlier b) (t v : Nat) :
    b.Has t v ↔ c.store.Has t v := by
  unfold Has
  rw [w.went.locks, w.went.options]
  rfl

theorem WentBack.touched (w : WentBack s₀ history c u savepoint owes later earlier b) {key : RowKey} :
    Engine.Touched (owes t) key ↔ Engine.Touched (later t) key ∨ Engine.Touched (earlier t) key := by
  rw [w.owes, Engine.touched_append]

theorem fair_back (h : Orderly s₀ history c owed) (idle : c.calls u = none)
    (hs : (s₀.session u).position ≤ savepoint) :
    ∃ owes', Fair s₀ history u c (owed u) d (c.put u (final (Store.rollbackTo u savepoint) c.store) none)
      owes' := by
  obtain ⟨later, earlier, b, w⟩ := h.goesBack idle hs
  rw [final_of_ok w.ok]
  have hengines : ∀ t, ¬ c.store.Has t u → (b.table t).engine = (c.store.table t).engine := by
    intro t hn
    refine congrArg Table.engine (w.went.others t (recordsOf_eq_nil fun r hr ht => hn ?_))
    have hlater : r ∈ s₀.since c.store u := by
      rw [since_split (h.started u) hs]
      exact List.mem_append_right _ (List.mem_reverse.1 hr)
    exact ht ▸ (h.held u r hlater).1
  refine ⟨earlier, ?_⟩
  exact {
    safe := w.went.locks.symm ▸ h.safe
    options := w.went.options
    registered := w.went.detached.trans h.registered
    tables := w.went.tables
    follows := w.follows
    engines := hengines
    logs := fun v hv =>
      congrArg Session.undoLog ((w.went.session v).trans (session_setSession_of_ne c.store hv _))
    has := fun t v _ => w.has_iff t v
    started := by
      change _ ≤ (b.undoLog u).length
      rw [w.log, List.length_take]
      exact le_min hs (h.started u)
    held := by
      intro r hr
      obtain ⟨hhas, htable⟩ := h.held u r (mem_since_of_cut w.log hr)
      exact ⟨(w.has_iff _ _).2 hhas, w.went.tables _ htable⟩
    recalls := fun t => ⟨(w.rest t).of_specs (w.follows t).specs, fun key ht =>
      UInt64.lt_of_lt_of_le ((h.recalls u t).below key (w.touched.2 (Or.inr ht))) (w.follows t).forth⟩
    changes := by
      intro t key hne
      refine Or.inl (w.touched.2 (Or.inl ?_))
      by_contra ht
      exact hne ((w.undoes t).elsewhere ht)
    puts := by
      intro t key r hr hne
      rcases (w.undoes t).put_back hr with hold | ⟨q, hq, hop, hrow⟩
      · exact absurd (hr.trans hold.symm) hne
      · refine Or.inr ⟨q, ?_, hop, hrow⟩
        rw [w.owes]
        exact List.mem_append_left _ hq
    does := by
      intro t q hq
      rw [w.owes]
      exact Or.inl (List.mem_append_right _ hq)
    stands := by
      rw [calls_put_self]
      exact .idle w.settled }

end Back

/-! ## Any turn -/

theorem Orderly.fair (h : Orderly s₀ history c owed) (ht : Turn u c d c') (ho : Observes s₀ u c d)
    (spared : ∀ t, (c.store.table t).engine.Spares (c'.store.table t).engine)
    (calm : c'.panicked u = false) : ∃ owes', Fair s₀ history u c (owed u) d c' owes' := by
  cases ht with
  | back savepoint idle => exact fair_back h idle (ho.savepoint savepoint rfl)
  | move hm =>
    cases hm with
    | begin call idle => exact ⟨_, fair_begin h idle fun t ht => ho.tables call t rfl ht⟩
    | @act call β a next hc =>
      rw [panicked_put] at calm
      exact fair_act h hc (fun t ht => ho.copies call _ t hc ht) spared calm
    | pass hc relaxed => exact ⟨_, fair_pass h hc relaxed⟩
    | wait hc hmode test => exact ⟨_, fair_wait h hc test⟩
    | @told call t exclusive force mode next outcome locks hc hmode test ended =>
      obtain ⟨trace, htrace⟩ := final_tellLock (c.store.table t).engine.name u mode outcome
        { c.store with locks := locks }
      rw [htrace]
      exact ⟨_, fair_told h hc hmode test _ _ trace⟩
    | done hc => exact ⟨_, fair_return h (.ok ()) hc⟩
    | fail hc => exact ⟨_, fair_return h (.error _) hc⟩
    | unlock t idle => exact ⟨_, fair_unlock h idle (ho.locks t rfl)⟩

end Scene
end RowStore
