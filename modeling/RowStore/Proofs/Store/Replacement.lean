import RowStore.Proofs.Outcome
import RowStore.Proofs.Store.Logged

/-!
# Replacements of rows can be taken back

* `Engine.IsCopy` : a row agrees with the row stored under its key, if there is one;
* `Store.updateUpTo` : a replacement up to the point at which it adds a certain row;
* `SparesLast` : no row of a replacement is given the last key;
* `removeOld_tells`, `addAllNew_tells`, `updateRows_tells` : whatever becomes of a replacement, the log
  tells what was done;
* `updateRows_of_contested` : a replacement that meets a concurrent change fails with it and leaves
  contents and log as they were.
-/

namespace RowStore

/-- The row agrees with the row stored under its key, if there is one. -/
def Engine.IsCopy (e : Engine) (r : Row) : Prop :=
  ∀ key stored, r.key = some key → e.row? key = some stored → r = stored

namespace Store
open RowStore.Action

variable {among : Nat → Prop} {t u savepoint : Nat} {canceled : Nat → Bool}

/-! ## Steps of a batch -/

section Steps
variable {α : Type} {act : Action Store α} {b b' : Batch} {x : α} {s : Store} {fault : Fault}

theorem onStore_of_ok (h : act b.store = .ok x s) :
    Batch.onStore act b = .ok x { b with store := s } := within_of_ok h

theorem onStore_of_error (h : act b.store = .error fault s) :
    Batch.onStore act b = .error fault { b with store := s } := within_of_error h

variable {r stored : Row} {s s' : Store}

theorem addNew_of_ok (h : onTable t (Table.addRow r) s = .ok stored s') :
    addNew t u savepoint r s = .ok stored s' := by
  unfold addNew
  change EStateM.tryCatch _ _ s = _
  unfold EStateM.tryCatch
  rw [h]

theorem addNew_of_error (h : onTable t (Table.addRow r) s = .error fault s') :
    addNew t u savepoint r s = (do retreat t u savepoint fault; throw fault) s' := by
  unfold addNew
  change EStateM.tryCatch _ _ s = _
  unfold EStateM.tryCatch
  rw [h]
  rfl

end Steps

/-- From the first store to the second the session has logged some records that lead back. -/
def Tells (among : Nat → Prop) (u : Nat) (s s' : Store) : Prop :=
  ∃ records, Logged among u s s' records

theorem Ready.tells {s : Store} (h : Ready among u s) : Tells among u s s :=
  ⟨[], .of_core h rfl⟩

theorem Tells.trans {s s' s'' : Store} (h : Tells among u s s') (h' : Tells among u s' s'') :
    Tells among u s s'' := by
  obtain ⟨records, h⟩ := h
  obtain ⟨records', h'⟩ := h'
  exact ⟨records ++ records', h.trans h'⟩

theorem Tells.ready {s s' : Store} (h : Tells among u s s') : Ready among u s' := by
  obtain ⟨_, h⟩ := h
  exact h.ready

/-! ## Removing old rows -/

section Old
variable {b b' : Batch} {r : Row} {old : List Row} {step : Nat}

/-- A row that is removed from a table was there, and the others stay. -/
theorem row?_of_removed {s s' : Store} (h : onTable t (Table.removeRow r) s = .ok () s')
    {key : RowKey} {stored : Row} (hr : (s'.table t).engine.row? key = some stored) :
    (s.table t).engine.row? key = some stored := by
  rw [onTable_removeRow] at h
  cases hrem : Engine.removeRow r (s.table t).engine with
  | error fault e => cases (onEngine_of_error hrem).symm.trans h
  | ok _ e =>
    cases (onEngine_of_ok hrem).symm.trans h
    obtain ⟨_, _, _, -, -, -, rfl⟩ := Engine.removeRow_eq_ok.1 hrem
    rw [engine_setEngine] at hr
    exact (Engine.row?_of_withoutRow hr).2

theorem removeOld_of_ok {b₁ : Batch} {s : Store} (hp : Batch.poll canceled (step + 1) b = .ok () b₁)
    (hr : onTable t (Table.removeRow r) b₁.store = .ok () s) :
    removeOld t u canceled step (r :: old) b =
      removeOld t u canceled (step + 1) old { b₁ with store := s.recorded u ⟨t, .deleted, r⟩ } := by
  rw [removeOld, bind_of_ok hp]
  exact bind_of_ok (onStore_of_ok (bind_of_ok hr))

theorem removeOld_of_error {b₁ : Batch} {s : Store} {fault : Fault}
    (hp : Batch.poll canceled (step + 1) b = .ok () b₁)
    (hr : onTable t (Table.removeRow r) b₁.store = .error fault s) :
    removeOld t u canceled step (r :: old) b = .error fault { b₁ with store := s } := by
  rw [removeOld, bind_of_ok hp]
  exact bind_of_error (onStore_of_error (bind_of_error hr))

theorem removeOld_tells (ht : among t) (h : Ready among u b.store)
    (hc : ∀ r ∈ old, (b.store.table t).engine.IsCopy r) :
    Tells among u b.store (final (removeOld t u canceled step old) b).store := by
  induction old generalizing b step with
  | nil => exact h.tells
  | cons r old ih =>
    cases hp : Batch.poll canceled (step + 1) b with
    | error fault b₁ =>
      rw [removeOld, final_bind_of_error hp, (keeps_poll _ _).of_error hp]
      exact h.tells
    | ok _ b₁ =>
      rw [← (keeps_poll _ _).of_ok hp] at h hc ⊢
      cases hr : onTable t (Table.removeRow r) b₁.store with
      | error fault s =>
        rw [final_of_error (removeOld_of_error hp hr)]
        exact ⟨_, logged_remove_refused h ht hr⟩
      | ok _ s =>
        have hstep := logged_remove h ht (hc r List.mem_cons_self) hr
        have hrest : ∀ r' ∈ old, (s.table t).engine.IsCopy r' :=
          fun r' hr' key stored hk hs =>
            hc r' (List.mem_cons_of_mem _ hr') key stored hk (row?_of_removed hr hs)
        rw [final_congr (removeOld_of_ok hp hr)]
        refine Tells.trans ⟨_, hstep⟩ ?_
        exact ih (b := { b₁ with store := s.recorded u ⟨t, .deleted, r⟩ }) hstep.ready hrest

end Old

/-! ## Adding new rows -/

section New
variable {b b₁ b' : Batch} {r stored : Row} {rows : List Row} {step place : Nat} {s s₀ s' : Store}
  {fault : Fault} {records : List UndoRecord}

theorem addAllNew_of_ok (hp : Batch.poll canceled (step + 1) b = .ok () b₁)
    (hr : onTable t (Table.addRow r) b₁.store = .ok stored s) :
    addAllNew t u savepoint canceled step place (r :: rows) b =
      addAllNew t u savepoint canceled (step + 1) (place + 1) rows
        { b₁ with store := s.recorded u ⟨t, .inserted, stored⟩, rows := b₁.rows.set place stored } := by
  rw [addAllNew, bind_of_ok hp, bind_of_ok (onStore_of_ok (addNew_of_ok hr)), modify_bind]
  exact bind_of_ok (onStore_of_ok (log_eq _ t u .inserted stored))

theorem addAllNew_of_error (hp : Batch.poll canceled (step + 1) b = .ok () b₁)
    (hr : onTable t (Table.addRow r) b₁.store = .error fault s)
    (hb : retreat t u savepoint fault s = .ok () s') :
    addAllNew t u savepoint canceled step place (r :: rows) b =
      .error fault { b₁ with store := s' } := by
  have hadd : addNew t u savepoint r b₁.store = .error fault s' :=
    (addNew_of_error hr).trans (bind_of_ok hb)
  rw [addAllNew, bind_of_ok hp, bind_of_error (onStore_of_error hadd)]

/-- A concurrent change takes everything back; other faults nothing. -/
theorem retreat_tells (h₀ : Ready among u s₀) (h : Logged among u s₀ s records) (fault : Fault) :
    ∃ s' records', retreat t u (s₀.session u).position fault s = .ok () s' ∧
      Logged among u s₀ s' records' ∧
      ∀ name, fault = .error (.concurrentUpdate name) → records' = [] := by
  unfold retreat
  split
  · rename_i name
    have hnote : Logged among u s { s with trace := s.trace ++ [.updateUndone (s.table t).name
        (s₀.session u).position (.concurrentUpdate name)] } [] := .of_core h.ready rfl
    obtain ⟨b, hb, ha, hlog⟩ := (h.trans hnote).rollback
    exact ⟨b, [], hb, .of_alike h₀ ha hlog, fun _ _ => rfl⟩
  · rename_i hne
    exact ⟨s, records, rfl, h, fun name hn => absurd hn (hne name)⟩

theorem addAllNew_tells (ht : among t) (h₀ : Ready among u s₀) (h : Logged among u s₀ b.store records)
    (hl : ∀ k r b₂ b', rows[k]? = some r →
      addAllNew t u (s₀.session u).position canceled step place (rows.take k) b = .ok () b₂ →
      Batch.poll canceled (step + k + 1) b₂ = .ok () b' →
      (b'.store.table t).assigned? r ≠ some lastKey)
    (hrange : (addAllNew t u (s₀.session u).position canceled step place rows).InRangeFrom b) :
    Tells among u s₀
      (final (addAllNew t u (s₀.session u).position canceled step place rows) b).store := by
  induction rows generalizing b step place records with
  | nil => exact ⟨_, h⟩
  | cons r rows ih =>
    cases hp : Batch.poll canceled (step + 1) b with
    | error fault b₁ =>
      rw [addAllNew, final_bind_of_error hp, (keeps_poll _ _).of_error hp]
      exact ⟨_, h⟩
    | ok _ b₁ =>
      rw [← (keeps_poll _ _).of_ok hp] at h
      have hfirst := hl 0 r b b₁ rfl rfl hp
      cases hr : onTable t (Table.addRow r) b₁.store with
      | error fault s =>
        cases fault with
        | outOfRange => exact absurd (addAllNew_of_error hp hr rfl) (hrange _)
        | error cause =>
          obtain ⟨s', records', hb, hs', -⟩ :=
            retreat_tells h₀ (h.trans (logged_add_refused h.ready ht hfirst hr)) (.error cause)
          rw [final_of_error (addAllNew_of_error hp hr hb)]
          exact ⟨_, hs'⟩
      | ok stored s =>
        rw [final_congr (addAllNew_of_ok hp hr)]
        refine ih (h.trans (logged_add h.ready ht hfirst hr)) ?_
          (hrange.congr fun b' hb' => ⟨b', (addAllNew_of_ok hp hr).trans hb'⟩)
        intro k r' b₂ b' hk hpre hpoll
        refine hl (k + 1) r' b₂ b' hk ((addAllNew_of_ok hp hr).trans hpre) ?_
        rwa [Nat.add_right_comm step 1 k] at hpoll

theorem addAllNew_append (step place : Nat) (xs ys : List Row) :
    addAllNew t u savepoint canceled step place (xs ++ ys) = (do
      addAllNew t u savepoint canceled step place xs
      addAllNew t u savepoint canceled (step + xs.length) (place + xs.length) ys) := by
  induction xs generalizing step place with
  | nil => rfl
  | cons x xs ih =>
    have hstep : ∀ n : Nat, n + (xs.length + 1) = n + 1 + xs.length := by
      intro n
      omega
    simp only [List.cons_append, addAllNew, ih, bind_assoc, List.length_cons, hstep]

end New

/-! ## Whole replacements -/

/-- A replacement up to the point at which it adds the new row at a place. -/
def updateUpTo (t u : Nat) (canceled : Nat → Bool) (old : List Row) (k : Nat) :
    Action Batch Unit := do
  let b ← get
  let savepoint := (b.store.session u).position
  removeOld t u canceled 0 old
  addAllNew t u savepoint canceled old.length 0 (b.rows.take k)
  Batch.poll canceled (old.length + k + 1)

/-- No new row that a replacement comes to is given the last key. -/
def SparesLast (t u : Nat) (canceled : Nat → Bool) (old : List Row) (b : Batch) : Prop :=
  ∀ k r b', b.rows[k]? = some r → updateUpTo t u canceled old k b = .ok () b' →
    (b'.store.table t).assigned? r ≠ some lastKey

section Whole
variable {b b' : Batch} {old : List Row}

theorem updateUpTo_eq_ok {k : Nat} : updateUpTo t u canceled old k b = .ok () b' ↔
    ∃ b₁ b₂, removeOld t u canceled 0 old b = .ok () b₁ ∧
      addAllNew t u (b.store.session u).position canceled old.length 0 (b.rows.take k) b₁
        = .ok () b₂ ∧
      Batch.poll canceled (old.length + k + 1) b₂ = .ok () b' := by
  unfold updateUpTo
  rw [get_bind, bind_eq_ok]
  simp only [bind_eq_ok]
  constructor
  · rintro ⟨_, b₁, hrem, _, b₂, hpre, hpoll⟩
    exact ⟨b₁, b₂, hrem, hpre, hpoll⟩
  · rintro ⟨b₁, b₂, hrem, hpre, hpoll⟩
    exact ⟨(), b₁, hrem, (), b₂, hpre, hpoll⟩

theorem updateRows_of_removed {b₁ : Batch} (hrem : removeOld t u canceled 0 old b = .ok () b₁) :
    updateRows t u canceled old b =
      addAllNew t u (b.store.session u).position canceled old.length 0 b.rows b₁ := by
  unfold updateRows
  rw [get_bind]
  exact bind_of_ok hrem

/-- Whatever becomes of a replacement, the log tells what was done. -/
theorem updateRows_tells (ht : among t) (h : Ready among u b.store)
    (hc : ∀ r ∈ old, (b.store.table t).engine.IsCopy r) (hl : SparesLast t u canceled old b)
    (hrange : (updateRows t u canceled old).InRangeFrom b) :
    Tells among u b.store (final (updateRows t u canceled old) b).store := by
  have hold : Tells among u b.store (final (removeOld t u canceled 0 old) b).store :=
    removeOld_tells ht h hc
  cases hrem : removeOld t u canceled 0 old b with
  | error fault b₁ =>
    have hfail : updateRows t u canceled old b = .error fault b₁ := by
      unfold updateRows
      rw [get_bind]
      exact bind_of_error hrem
    rw [final_of_error hfail]
    rwa [final_of_error hrem] at hold
  | ok _ b₁ =>
    rw [final_of_ok hrem] at hold
    obtain ⟨records, hold⟩ := hold
    rw [final_congr (updateRows_of_removed hrem)]
    refine addAllNew_tells ht h hold ?_
      (hrange.congr fun b' hb' => ⟨b', (updateRows_of_removed hrem).trans hb'⟩)
    intro k r b₂ b' hk hpre hpoll
    exact hl k r b' hk (updateUpTo_eq_ok.2 ⟨b₁, b₂, hrem, hpre, hpoll⟩)

/-- From there on, a replacement adds the row at the place and those after it. -/
theorem updateRows_of_upTo {k : Nat} {r : Row} (hk : b.rows[k]? = some r)
    (hup : updateUpTo t u canceled old k b = .ok () b') :
    updateRows t u canceled old b = (do
      let stored ← Batch.onStore (addNew t u (b.store.session u).position r)
      modify fun b => { b with rows := b.rows.set k stored }
      Batch.onStore (log t u .inserted stored)
      addAllNew t u (b.store.session u).position canceled (old.length + k + 1) (k + 1)
        (b.rows.drop (k + 1)) : Action Batch Unit) b' := by
  obtain ⟨b₁, b₂, hrem, hpre, hpoll⟩ := updateUpTo_eq_ok.1 hup
  obtain ⟨hlt, hget⟩ := List.getElem?_eq_some_iff.1 hk
  have hrows : b.rows = b.rows.take k ++ r :: b.rows.drop (k + 1) := by
    rw [← hget, ← List.drop_eq_getElem_cons hlt, List.take_append_drop]
  have hlen : (b.rows.take k).length = k := List.length_take_of_le (Nat.le_of_lt hlt)
  rw [updateRows_of_removed hrem]
  conv_lhs => rw [hrows]
  rw [addAllNew_append, bind_of_ok hpre, hlen, Nat.zero_add, addAllNew, bind_of_ok hpoll]

/-- Up to there, the log tells what a replacement has done. -/
theorem updateUpTo_tells (ht : among t) (h : Ready among u b.store)
    (hc : ∀ r ∈ old, (b.store.table t).engine.IsCopy r) (hl : SparesLast t u canceled old b)
    {k : Nat} (hup : updateUpTo t u canceled old k b = .ok () b') :
    Tells among u b.store b'.store := by
  obtain ⟨b₁, b₂, hrem, hpre, hpoll⟩ := updateUpTo_eq_ok.1 hup
  have hold : Tells among u b.store (final (removeOld t u canceled 0 old) b).store :=
    removeOld_tells ht h hc
  rw [final_of_ok hrem] at hold
  obtain ⟨records, hold⟩ := hold
  have hnew : Tells among u b.store (final (addAllNew t u (b.store.session u).position canceled
      old.length 0 (b.rows.take k)) b₁).store := by
    refine addAllNew_tells ht h hold ?_ (inRangeFrom_of_ok hpre)
    intro i r c c' hi hpre' hpoll'
    rw [List.getElem?_take] at hi
    split at hi
    · rename_i hlt
      rw [List.take_take, Nat.min_eq_left (Nat.le_of_lt hlt)] at hpre'
      exact hl i r c' hi (updateUpTo_eq_ok.2 ⟨b₁, c, hrem, hpre', hpoll'⟩)
    · cases hi
  rwa [final_of_ok hpre, ← (keeps_poll _ _).of_ok hpoll] at hnew

/-- A replacement that meets a concurrent change fails with it, as if it had never begun. -/
theorem updateRows_of_contested (ht : among t) (h : Ready among u b.store)
    (hc : ∀ r ∈ old, (b.store.table t).engine.IsCopy r) (hl : SparesLast t u canceled old b)
    {k : Nat} {r : Row} {name : String} {s : Store} (hk : b.rows[k]? = some r)
    (hup : updateUpTo t u canceled old k b = .ok () b')
    (hr : onTable t (Table.addRow r) b'.store = .error (.error (.concurrentUpdate name)) s) :
    ∃ b'', updateRows t u canceled old b = .error (.error (.concurrentUpdate name)) b'' ∧
      Logged among u b.store b''.store [] := by
  obtain ⟨records, hdone⟩ := updateUpTo_tells ht h hc hl hup
  have hrefused := logged_add_refused hdone.ready ht (hl k r b' hk hup) hr
  obtain ⟨s', _, hback, hs', hnil⟩ :=
    retreat_tells h (hdone.trans hrefused) (.error (.concurrentUpdate name))
  cases hnil name rfl
  have hadd : addNew t u (b.store.session u).position r b'.store =
      .error (.error (.concurrentUpdate name)) s' := (addNew_of_error hr).trans (bind_of_ok hback)
  refine ⟨{ b' with store := s' }, ?_, hs'⟩
  rw [updateRows_of_upTo hk hup, bind_of_error (onStore_of_error hadd)]

end Whole

end Store
end RowStore
