import RowStore.Proofs.Store.Script
import RowStore.Proofs.Store.Undo

/-!
# Changes of rows, step by step

* `Script.insert`, `Script.delete`, `Script.update` : the changes of rows as scripts, made of the same
  parts as the changes themselves;
* `run_insert`, `run_delete`, `run_update` : while no other session acts, they are the changes of
  `Store.insert`, `Store.delete` and `Store.update`.

A step is what is done at once: a lock is tested, a row is fitted, a trigger is fired, a constraint is
checked, a row is stored or removed, a change is logged or taken back.
-/

namespace RowStore
open RowStore.Action RowStore.Store

/-! ## Rows that are being written -/

section Draft
variable {α β : Type} {r : Row}

@[simp] theorem draftRun_bind (x : Action (Draft Store) α) (f : α → Action (Draft Store) β) :
    Draft.run (x >>= f) r = Draft.run x r >>= fun p => Draft.run (f p.1) p.2 := by
  funext s
  cases h : x ⟨s, r⟩ with
  | ok a d =>
    have hx : Draft.run x r s = .ok (a, d.row) d.state := by
      unfold Draft.run
      rw [h]
    rw [bind_of_ok hx]
    unfold Draft.run
    rw [bind_of_ok h]
  | error fault d =>
    have hx : Draft.run x r s = .error fault d.state := by
      unfold Draft.run
      rw [h]
    rw [bind_of_error hx]
    unfold Draft.run
    rw [bind_of_error h]

@[simp] theorem draftRun_pure (a : α) : Draft.run (pure a) r = (pure (a, r) : Action Store _) := rfl

@[simp] theorem draftRun_get :
    Draft.run get r = (do return (⟨← get, r⟩, r) : Action Store (Draft Store × Row)) := rfl

@[simp] theorem draftRun_modifyRow (f : Row → Row) :
    Draft.run (Draft.modifyRow f) r = (pure ((), f r) : Action Store _) := rfl

@[simp] theorem draftRun_onState (act : Action Store α) :
    Draft.run (Draft.onState act) r = act >>= fun a => pure (a, r) := by
  funext s
  cases h : act s with
  | ok a s' =>
    rw [bind_of_ok h]
    unfold Draft.run Draft.onState
    rw [within_of_ok h]
    rfl
  | error fault s' =>
    rw [bind_of_error h]
    unfold Draft.run Draft.onState
    rw [within_of_error h]

@[simp] theorem draftRun_ite {p : Prop} [Decidable p] (x y : Action (Draft Store) α) :
    Draft.run (if p then x else y) r = if p then Draft.run x r else Draft.run y r :=
  apply_ite (Draft.run · r) p x y

end Draft

/-! ## Batches -/

/-- Runs an action on a batch; where it succeeds, yields what the batch has become. -/
def Batch.run {α : Type} (act : Action Batch α) (rows : List Row) (polls : Nat) :
    Action Store (α × List Row × Nat) := fun s =>
  match act ⟨s, rows, polls⟩ with
  | .ok a b => .ok (a, b.rows, b.polls) b.store
  | .error fault b => .error fault b.store

section Batch
variable {α β : Type} {rows : List Row} {polls : Nat}

theorem batchRun_eq (act : Action Batch α) (rows : List Row) :
    batchRun act rows = do return (← Batch.run act rows 0).1 := by
  funext s
  unfold batchRun
  cases h : act ⟨s, rows, 0⟩ with
  | ok a b =>
    have hx : Batch.run act rows 0 s = .ok (a, b.rows, b.polls) b.store := by
      unfold Batch.run
      rw [h]
    rw [bind_of_ok hx]
    rfl
  | error fault b =>
    have hx : Batch.run act rows 0 s = .error fault b.store := by
      unfold Batch.run
      rw [h]
    rw [bind_of_error hx]

@[simp] theorem batchRun_bind (x : Action Batch α) (f : α → Action Batch β) :
    Batch.run (x >>= f) rows polls =
      Batch.run x rows polls >>= fun p => Batch.run (f p.1) p.2.1 p.2.2 := by
  funext s
  cases h : x ⟨s, rows, polls⟩ with
  | ok a b =>
    have hx : Batch.run x rows polls s = .ok (a, b.rows, b.polls) b.store := by
      unfold Batch.run
      rw [h]
    rw [bind_of_ok hx]
    unfold Batch.run
    rw [bind_of_ok h]
  | error fault b =>
    have hx : Batch.run x rows polls s = .error fault b.store := by
      unfold Batch.run
      rw [h]
    rw [bind_of_error hx]
    unfold Batch.run
    rw [bind_of_error h]

@[simp] theorem batchRun_pure (a : α) :
    Batch.run (pure a) rows polls = (pure (a, rows, polls) : Action Store _) := rfl

@[simp] theorem batchRun_get :
    Batch.run get rows polls = do return (⟨← get, rows, polls⟩, rows, polls) := rfl

@[simp] theorem batchRun_modify (f : Batch → List Row) :
    Batch.run (modify fun b => { b with rows := f b }) rows polls = do
      return (⟨⟩, f ⟨← get, rows, polls⟩, polls) := rfl

@[simp] theorem batchRun_polls (n : Nat) :
    Batch.run (modify ({ · with polls := n })) rows polls = pure (⟨⟩, rows, n) := rfl

@[simp] theorem batchRun_refuse (cause : StoreError) :
    Batch.run (refuse cause : Action Batch α) rows polls = throw (.error cause) := rfl

@[simp] theorem batchRun_onStore (act : Action Store α) :
    Batch.run (Batch.onStore act) rows polls = act >>= fun a => pure (a, rows, polls) := by
  funext s
  cases h : act s with
  | ok a s' =>
    rw [bind_of_ok h]
    unfold Batch.run
    rw [onStore_of_ok h]
    rfl
  | error fault s' =>
    rw [bind_of_error h]
    unfold Batch.run
    rw [onStore_of_error h]

@[simp] theorem batchRun_ite {p : Prop} [Decidable p] (x y : Action Batch α) :
    Batch.run (if p then x else y) rows polls =
      if p then Batch.run x rows polls else Batch.run y rows polls :=
  apply_ite (Batch.run · rows polls) p x y

end Batch

namespace Script

variable {α β : Type}

/-! ## Triggers and constraints -/

/-- Fires triggers until one has handled the change, one after the other. -/
def fireUntilHandled (old new : Option Row) (rollback : Bool) : List Trigger → Script Bool
  | [] => pure false
  | trigger :: rest => do
    if ← step (onFired (trigger.fireRow old new rollback)) then pure true
    else fireUntilHandled old new rollback rest

def fireTriggers (t : Nat) (before : Bool) (old new : Option Row) (rollback : Bool) :
    Script Bool := do
  let table ← table t
  fireUntilHandled old new rollback
    (table.triggers.filter (·.firesOnRow (RowChange.of old new) before))

/-- Checks the constraints of a phase, one after the other. -/
def checkConstraints (t u : Nat) (before : Bool) (old new : Option Row) : Script Unit := do
  let table ← table t
  (table.constraints.filter (·.before == before)).forM fun c =>
    step (onChecks u (c.checkRow table.engine.rowCount old new))

def fireBeforeRow (t u : Nat) (old new : Option Row) : Script Bool := do
  let handled ← fireTriggers t true old new false
  if !handled then
    checkConstraints t u true old new
  pure handled

def fireAfterRow (t u : Nat) (old new : Option Row) : Script Unit := do
  let _ ← fireTriggers t false old new false
  checkConstraints t u false old new

section Firing
variable {t u : Nat} {before rollback : Bool} {old new : Option Row}

theorem onFired_bind (x : Action FireLog α) (f : α → Action FireLog β) :
    onFired (x >>= f) = onFired x >>= fun a => onFired (f a) := by
  refine within_bind _ _ ?_ ?_ x f
  · exact fun _ _ => rfl
  · exact fun _ _ _ => rfl

theorem run_fireUntilHandled (triggers : List Trigger) :
    (fireUntilHandled old new rollback triggers).run u =
      onFired (Store.fireUntilHandled old new rollback triggers) := by
  induction triggers with
  | nil => rfl
  | cons trigger rest ih =>
    rw [fireUntilHandled, Store.fireUntilHandled, onFired_bind, run_bind, run_step]
    refine congrArg _ (funext fun handled => ?_)
    cases handled with
    | true => rfl
    | false => exact ih

@[simp] theorem run_fireTriggers : (fireTriggers t before old new rollback).run u =
    Store.fireTriggers t before old new rollback := by
  simp only [fireTriggers, Store.fireTriggers, run_bind, run_table, run_fireUntilHandled, bind_assoc,
    pure_bind]

@[simp] theorem run_checkConstraints : (checkConstraints t u before old new).run u =
    Store.checkConstraints t u before old new := by
  simp only [checkConstraints, Store.checkConstraints, run_bind, run_table, run_forM, run_step,
    bind_assoc, pure_bind]

@[simp] theorem run_fireBeforeRow :
    (fireBeforeRow t u old new).run u = Store.fireBeforeRow t u old new := by
  simp only [fireBeforeRow, Store.fireBeforeRow, run_bind, run_fireTriggers]
  refine congrArg _ (funext fun handled => ?_)
  cases handled <;> simp

@[simp] theorem run_fireAfterRow :
    (fireAfterRow t u old new).run u = Store.fireAfterRow t u old new false := by
  simp [fireAfterRow, Store.fireAfterRow, discard_eq]

end Firing

/-! ## Whole changes -/

def beginChange (t : Nat) : Script Unit := do
  step checkWriting
  takeLock t true false

/-- Inserts a row.  Yields false if a trigger has handled the insert, and the row as it was written. -/
def insert (t u : Nat) (r : Row) : Script (Bool × Row) := do
  beginChange t
  let fitted ← step (Draft.run (fitRow t u) r)
  let table ← table t
  let handled ← fireBeforeRow t u none (some fitted.2)
  if table.firesOnRows && handled then
    pure (false, fitted.2)
  else
    let stored ← step (onTable t (Table.addRow fitted.2))
    step (log t u .inserted stored)
    if table.firesOnRows then
      fireAfterRow t u none (some stored)
    pure (true, stored)

/-- Deletes the row stored under a row's key.  Yields false if a trigger has handled the delete. -/
def delete (t u : Nat) (r : Row) : Script Bool := do
  beginChange t
  let table ← table t
  let handled ← fireBeforeRow t u (some r) none
  if table.firesOnRows && handled then
    pure false
  else
    step (onTable t (Table.removeRow r))
    step (log t u .deleted r)
    if table.firesOnRows then
      fireAfterRow t u (some r) none
    pure true

/-! ## Replacing rows -/

/-- Takes back what a session has done since a savepoint: the log is cut, then one change after the
other is taken back. -/
def rollbackTo (u savepoint : Nat) : Script Unit := do
  let undone ← step do
    let s ← get
    let (undone, session) := (s.session u).split savepoint
    set (s.setSession u session)
    pure undone
  undone.reverse.forM fun r => step (undo u r)

/-- Takes a replacement back to where it began, if a concurrent change was met. -/
def retreat (t u savepoint : Nat) (fault : Fault) : Script Unit :=
  match fault with
  | .error (.concurrentUpdate table) => do
    step do note (.updateUndone ((← get).table t).name savepoint (.concurrentUpdate table))
    rollbackTo u savepoint
  | _ => pure ()

/-- Adds a new row, and takes the replacement back if that meets a concurrent change. -/
def addNew (t u savepoint : Nat) (r : Row) : Script Row :=
  act (onTable t (Table.addRow r)) fun
    | .ok stored => pure stored
    | .error fault => do
      retreat t u savepoint fault
      fail fault

/-- Counts a step of a replacement, and yields the number of looks at its cancellation so far. -/
def poll (canceled : Nat → Bool) (step polls : Nat) : Script Nat :=
  if step % cancelInterval = 0 then
    if canceled (polls + 1) then fail (.error .statementCanceled) else pure (polls + 1)
  else pure polls

/-- Removes old rows.  Yields the number of looks at the cancellation. -/
def removeOld (t u : Nat) (canceled : Nat → Bool) (steps polls : Nat) : List Row → Script Nat
  | [] => pure polls
  | r :: rest => do
    let polls ← poll canceled (steps + 1) polls
    step (onTable t (Table.removeRow r))
    step (log t u .deleted r)
    removeOld t u canceled (steps + 1) polls rest

/-- Adds new rows.  Yields all new rows with their keys, and the number of looks at the cancellation. -/
def addAllNew (t u savepoint : Nat) (canceled : Nat → Bool) (steps place : Nat) (rows : List Row)
    (polls : Nat) : List Row → Script (List Row × Nat)
  | [] => pure (rows, polls)
  | r :: rest => do
    let polls ← poll canceled (steps + 1) polls
    let stored ← addNew t u savepoint r
    step (log t u .inserted stored)
    addAllNew t u savepoint canceled (steps + 1) (place + 1) (rows.set place stored) polls rest

/-- Replaces old rows by new ones. -/
def updateRows (t u : Nat) (canceled : Nat → Bool) (old rows : List Row) (polls : Nat) :
    Script (List Row × Nat) := do
  let savepoint ← step do return ((← get).session u).position
  let polls ← removeOld t u canceled 0 polls old
  addAllNew t u savepoint canceled old.length 0 rows polls rows

/-- Fits the new rows of pairs, and lets triggers handle them. -/
def prepare (t u : Nat) (fires : Bool) : List (Row × Row) → Script (List (Row × Row))
  | [] => pure []
  | (old, new) :: rest => do
    let fitted ← step (Draft.run (fitRow t u) { new with key := old.key })
    let handled ← if fires then fireBeforeRow t u (some old) (some fitted.2) else pure false
    let left ← prepare t u fires rest
    pure (if handled then left else (old, fitted.2) :: left)

/-- Replaces the old row of each pair by its new one. -/
def update (t u : Nat) (canceled : Nat → Bool) (pairs : List (Row × Row)) : Script Nat := do
  beginChange t
  let table ← table t
  let pending ← prepare t u table.firesOnRows pairs
  let old := pending.map (·.1)
  let done ← updateRows t u canceled old (pending.map (·.2)) 0
  if table.firesOnRows then
    (old.zip done.1).forM fun p => fireAfterRow t u (some p.1) (some p.2)
  pure pending.length

section Changes
variable {t u : Nat}

@[simp] theorem run_beginChange : (beginChange t).run u = Store.beginChange t u := by
  simp only [beginChange, Store.beginChange, run_bind, run_step, run_takeLock]

theorem run_insert (r : Row) : (insert t u r).run u = Draft.run (Store.insert t u) r := by
  simp only [insert, Store.insert, run_bind, run_beginChange, run_step, run_table, run_fireBeforeRow,
    run_fireAfterRow, run_ite, run_pure, draftRun_bind, draftRun_onState, draftRun_get, draftRun_ite,
    draftRun_pure, draftRun_modifyRow, bind_assoc, pure_bind]

theorem run_delete (r : Row) : (delete t u r).run u = Store.delete t u r := by
  simp [delete, Store.delete]

theorem run_rollbackTo (savepoint : Nat) :
    (rollbackTo u savepoint).run u = Store.rollbackTo u savepoint := by
  simp only [rollbackTo, Store.rollbackTo, run_bind, run_step, run_forM, bind_assoc, pure_bind]

/-- Only a concurrent change takes a replacement back. -/
theorem retreat_of_ne {fault : Fault} (savepoint : Nat)
    (h : ∀ name, fault ≠ .error (.concurrentUpdate name)) :
    retreat t u savepoint fault = pure () ∧ Store.retreat t u savepoint fault = pure () := by
  constructor
  · unfold retreat
    split
    · rename_i name
      exact absurd rfl (h name)
    · rfl
  · unfold Store.retreat
    split
    · rename_i name
      exact absurd rfl (h name)
    · rfl

theorem run_retreat (savepoint : Nat) (fault : Fault) :
    (retreat t u savepoint fault).run u = Store.retreat t u savepoint fault := by
  by_cases h : ∃ name, fault = .error (.concurrentUpdate name)
  · obtain ⟨name, rfl⟩ := h
    simp only [retreat, Store.retreat, run_bind, run_step, run_rollbackTo, bind_assoc]
  · have hne := retreat_of_ne (t := t) (u := u) savepoint fun name he => h ⟨name, he⟩
    rw [hne.1, hne.2, run_pure]

theorem run_addNew (savepoint : Nat) (r : Row) :
    (addNew t u savepoint r).run u = Store.addNew t u savepoint r := by
  funext s
  unfold addNew run result final
  cases h : onTable t (Table.addRow r) s with
  | ok stored s' => exact (addNew_of_ok h).symm
  | error fault s' =>
    rw [addNew_of_error h]
    dsimp only
    rw [run_bind, run_retreat]
    rfl

theorem run_poll (canceled : Nat → Bool) (steps : Nat) (rows : List Row) (polls : Nat) :
    Batch.run (Batch.poll canceled steps) rows polls =
      (poll canceled steps polls).run u >>= fun n => pure ((), rows, n) := by
  unfold Batch.poll poll
  simp only [batchRun_bind, batchRun_get, batchRun_polls, batchRun_refuse, batchRun_ite, batchRun_pure,
    run_ite, run_fail, run_pure, ite_bind, bind_assoc, pure_bind, get_bind_const]
  rfl

theorem run_removeOld (canceled : Nat → Bool) (old rows : List Row) (steps polls : Nat) :
    Batch.run (Store.removeOld t u canceled steps old) rows polls =
      (removeOld t u canceled steps polls old).run u >>= fun n => pure ((), rows, n) := by
  induction old generalizing steps polls with
  | nil => rfl
  | cons r old ih =>
    simp only [removeOld, Store.removeOld, run_bind, run_step, batchRun_bind, batchRun_onStore,
      run_poll (u := u), ih, bind_assoc, pure_bind]

theorem run_addAllNew (savepoint : Nat) (canceled : Nat → Bool) (new rows : List Row)
    (steps place polls : Nat) :
    Batch.run (Store.addAllNew t u savepoint canceled steps place new) rows polls =
      (addAllNew t u savepoint canceled steps place rows polls new).run u >>=
        fun p => pure ((), p.1, p.2) := by
  induction new generalizing steps place rows polls with
  | nil => rfl
  | cons r new ih =>
    simp only [addAllNew, Store.addAllNew, run_bind, run_step, batchRun_bind, batchRun_onStore,
      run_poll (u := u), run_addNew, batchRun_modify, ih, bind_assoc, pure_bind, get_bind_const]

theorem run_updateRows (canceled : Nat → Bool) (old rows : List Row) (polls : Nat) :
    Batch.run (Store.updateRows t u canceled old) rows polls =
      (updateRows t u canceled old rows polls).run u >>= fun p => pure ((), p.1, p.2) := by
  simp only [updateRows, Store.updateRows, run_bind, run_step, batchRun_bind, batchRun_get,
    run_removeOld, run_addAllNew, bind_assoc, pure_bind]

theorem run_prepare (fires : Bool) (pairs : List (Row × Row)) :
    (prepare t u fires pairs).run u = Store.prepare t u fires pairs := by
  induction pairs with
  | nil => rfl
  | cons pair rest ih =>
    obtain ⟨old, new⟩ := pair
    simp only [prepare, prepare_cons, run_bind, run_step, run_ite, run_fireBeforeRow, run_pure, ih,
      ite_bind]

theorem run_update (canceled : Nat → Bool) (pairs : List (Row × Row)) :
    (update t u canceled pairs).run u = batchRun (Store.update t u canceled pairs) [] := by
  rw [batchRun_eq]
  simp only [update, Store.update, run_bind, run_beginChange, run_table, run_prepare, run_ite,
    run_forM, run_fireAfterRow, run_pure, batchRun_bind, batchRun_onStore, batchRun_get,
    batchRun_modify, batchRun_ite, batchRun_pure, run_updateRows, bind_assoc, pure_bind, ite_bind,
    get_bind_const]

end Changes

end Script

end RowStore
