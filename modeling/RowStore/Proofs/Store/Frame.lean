import RowStore.Proofs.Action
import RowStore.Proofs.OrderedMap
import RowStore.Store.Mutation

/-!
# What surrounds a change of rows and leaves them alone

* `Store.core` : the tables, the detached sessions and the undo log of a session;
* `keeps_beginChange`, `keeps_fitRow`, `keeps_fireBeforeRow`, `keeps_fireAfterRow`, `keeps_prepare`,
  `keeps_poll` : the parts of a change that leave the core as it is, whether they are done or refused;
* `Store.setEngine` : puts other rows and indexes into a table, and what is seen of the store then.
-/

namespace RowStore.Store

/-- The tables, the sessions that cannot restore rows, and the undo log of a session. -/
def core (u : Nat) (s : Store) : OrderedMap Nat Table × List Nat × List UndoRecord :=
  (s.tables, s.detached, (s.session u).undoLog)

/-! ## Sessions and tables -/

theorem session_setSession (s : Store) (u : Nat) (session : Session) :
    (s.setSession u session).session u = session := by
  unfold Store.session setSession
  rw [OrderedMap.find?_insert_self]
  rfl

theorem core_setNumbering (s : Store) (u : Nat) (n : Numbering) :
    (s.setNumbering u n).core u = s.core u := by
  unfold core
  change (s.tables, s.detached, ((s.setSession u _).session u).undoLog) = _
  rw [session_setSession]

theorem table_eq_of_core {u : Nat} {s s' : Store} (h : s'.core u = s.core u) (t : Nat) :
    s'.table t = s.table t := by
  unfold table
  rw [show s'.tables = s.tables from congrArg Prod.fst h]

/-! ## Steps that leave the core as it is -/

section Keeps
open RowStore.Action
variable {u : Nat}

theorem keeps_checkWriting : Keeps (core u) checkWriting :=
  Keeps.get_bind fun _ => Keeps.ite (keeps_refuse _) (keeps_pure ())

/-- What does not show locks and reports is as it was once a lock is taken, or refused. -/
theorem keeps_lock_of {γ : Type} {view : Store → γ}
    (h : ∀ s locks trace, view { s with locks := locks, trace := trace } = view s) (t v : Nat)
    (exclusive force : Bool) : Keeps view (lock t v exclusive force) := by
  have hnote (r : TraceRecord) : Keeps view (note r) := keeps_modify fun s => h s s.locks _
  refine keeps_get_bind fun s => ?_
  cases effectiveMode s.options.multiVersion force exclusive with
  | none => rfl
  | some mode =>
    dsimp only
    rcases hl : s.locks.lock ⟨t, v, mode⟩ with ⟨outcome, locks⟩
    refine Keeps.set_bind (fun _ => ?_) (h s locks s.trace)
    cases outcome with
    | granted => exact hnote _
    | deadlock path => exact (hnote _).bind fun _ => keeps_refuse _
    | timedOut => exact (hnote _).bind fun _ => keeps_refuse _
    | parked => exact (hnote _).bind fun _ => keeps_refuse _

theorem keeps_lock (t v : Nat) (exclusive force : Bool) :
    Keeps (core u) (lock t v exclusive force) := keeps_lock_of (fun _ _ _ => rfl) t v exclusive force

theorem keeps_beginChange (t v : Nat) : Keeps (core u) (beginChange t v) :=
  keeps_checkWriting.bind fun _ => keeps_lock t v true false

theorem keeps_onFired {α : Type} (act : Action FireLog α) : Keeps (core u) (onFired act) := by
  refine keeps_within ?_ act
  intro log s
  rfl

theorem keeps_onChecks {α : Type} (act : Action CheckState α) : Keeps (core u) (onChecks u act) := by
  refine keeps_within ?_ act
  intro c s
  exact core_setNumbering s u c.numbering

theorem keeps_fireTriggers (t : Nat) (before : Bool) (old new : Option Row) (rollback : Bool) :
    Keeps (core u) (fireTriggers t before old new rollback) :=
  Keeps.get_bind fun _ => keeps_onFired _

theorem keeps_checkConstraints (t : Nat) (before : Bool) (old new : Option Row) :
    Keeps (core u) (checkConstraints t u before old new) :=
  Keeps.get_bind fun _ => Keeps.forM (fun _ => keeps_onChecks _) _

theorem keeps_fireBeforeRow (t : Nat) (old new : Option Row) :
    Keeps (core u) (fireBeforeRow t u old new) := by
  refine (keeps_fireTriggers t true old new false).bind fun handled => ?_
  cases handled with
  | true => exact keeps_pure true
  | false => exact (keeps_checkConstraints t true old new).bind fun _ => keeps_pure false

theorem keeps_fireAfterRow (t : Nat) (old new : Option Row) (rollback : Bool) :
    Keeps (core u) (fireAfterRow t u old new rollback) := by
  refine (keeps_fireTriggers t false old new rollback).discard.bind fun _ => ?_
  cases rollback with
  | true => exact keeps_pure ()
  | false => exact keeps_checkConstraints t false old new

/-! ## Rows that are being written -/

/-- A step on the store under a row. -/
theorem keeps_onState {α : Type} {act : Action Store α} (h : Keeps (core u) act) :
    Keeps (fun d : Draft Store => d.state.core u) (Draft.onState act) :=
  h.within fun _ _ hs => hs

theorem keeps_fitRow (t : Nat) :
    Keeps (fun d : Draft Store => d.state.core u) (fitRow t u) := by
  refine Keeps.get_bind fun d => (keeps_ofExcept _).bind fun _ => ?_
  unfold Draft.within
  exact keeps_within (fun p d => core_setNumbering d.state u p.state) _

theorem keeps_key_fitColumn (place : Nat) (c : Column) :
    Keeps (fun d : Draft Numbering => d.row.key) (fitColumn place c) := by
  have hstate {α : Type} (act : Action Numbering α) :
      Keeps (fun d : Draft Numbering => d.row.key) (Draft.onState act) := by
    refine keeps_within ?_ act
    exact fun _ _ => rfl
  refine Keeps.get_bind fun d => ?_
  cases c.computed with
  | some e => exact (hstate _).bind fun _ => (hstate _).bind fun _ => keeps_modify fun _ => rfl
  | none =>
    refine (keeps_slot _).bind fun given => (hstate _).bind fun fitted => ?_
    cases fitted with
    | unchanged => exact keeps_pure ()
    | replaced v => exact keeps_modify fun _ => rfl

theorem keeps_key_fitRow (t : Nat) : Keeps (fun d : Draft Store => d.row.key) (fitRow t u) := by
  have hcolumns (place : Nat) (cs : List Column) :
      Keeps (fun d : Draft Numbering => d.row.key) (fitColumns place cs) := by
    induction cs generalizing place with
    | nil => exact keeps_pure ()
    | cons c cs ih => exact (keeps_key_fitColumn place c).bind fun _ => ih _
  refine Keeps.get_bind fun d => (keeps_ofExcept _).bind fun _ => ?_
  unfold Draft.within
  exact (hcolumns 0 _).within fun _ _ hs => hs

/-- A row keeps its key while it is fitted. -/
theorem key_of_fitted {t : Nat} {r : Row} {s : Store} {fitted : Unit × Row}
    (h : result (Draft.run (fitRow t u) r) s = .ok fitted) : fitted.2.key = r.key := by
  unfold result Draft.run at h
  cases ha : fitRow t u ⟨s, r⟩ with
  | ok x d =>
    rw [ha] at h
    cases h
    exact (keeps_key_fitRow t).of_ok ha
  | error fault d =>
    rw [ha] at h
    cases h

theorem keeps_run {α : Type} {act : Action (Draft Store) α}
    (h : Keeps (fun d : Draft Store => d.state.core u) act) (r : Row) :
    Keeps (core u) (Draft.run act r) := by
  intro s
  unfold Draft.run final
  dsimp only
  cases ha : act ⟨s, r⟩ with
  | ok x d => exact h.of_ok ha
  | error fault d => exact h.of_error ha

theorem keeps_prepare (t : Nat) (fires : Bool) (pairs : List (Row × Row)) :
    Keeps (core u) (prepare t u fires pairs) := by
  induction pairs with
  | nil => exact keeps_pure []
  | cons pair rest ih =>
    obtain ⟨old, new⟩ := pair
    refine (keeps_run (keeps_fitRow t) _).bind fun fitted => ?_
    refine Keeps.ite ((keeps_fireBeforeRow t _ _).bind fun _ => ?_) ((keeps_pure false).bind fun _ => ?_)
    · exact ih.bind fun _ => keeps_pure _
    · exact ih.bind fun _ => keeps_pure _

/-! ## Batches -/

theorem keeps_onStore {α : Type} {act : Action Store α} (h : Keeps (core u) act) :
    Keeps (fun b : Batch => b.store.core u) (Batch.onStore act) :=
  h.within fun _ _ hs => hs

theorem keeps_poll (canceled : Nat → Bool) (step : Nat) :
    Keeps (fun b : Batch => b.store) (Batch.poll canceled step) := by
  refine Keeps.ite ?_ (keeps_pure ())
  refine Keeps.get_bind fun b => Keeps.bind (keeps_modify fun _ => rfl) fun _ => ?_
  exact Keeps.ite (keeps_refuse _) (keeps_pure ())

end Keeps

/-! ## Other rows and indexes in a table -/

def setEngine (s : Store) (t : Nat) (e : Engine) : Store :=
  s.setTable t { s.table t with engine := e }

theorem table_setTable (s : Store) (t : Nat) (table : Table) :
    (s.setTable t table).table t = table := by
  unfold Store.table setTable
  rw [OrderedMap.find?_insert_self]
  rfl

theorem table_setTable_of_ne (s : Store) {t t' : Nat} (h : t' ≠ t) (table : Table) :
    (s.setTable t table).table t' = s.table t' := by
  unfold Store.table setTable
  rw [OrderedMap.find?_insert_of_ne _ h]

theorem contains_setTable {s : Store} {t t' : Nat} {table : Table}
    (h : s.tables.contains t' = true) : (s.setTable t table).tables.contains t' = true := by
  unfold OrderedMap.contains setTable at *
  by_cases ht : t' = t
  · rw [ht, OrderedMap.find?_insert_self]
    rfl
  · rwa [OrderedMap.find?_insert_of_ne _ ht]

@[simp] theorem engine_setEngine (s : Store) (t : Nat) (e : Engine) :
    ((s.setEngine t e).table t).engine = e := by
  unfold setEngine
  rw [table_setTable]

theorem table_setEngine_of_ne (s : Store) {t t' : Nat} (h : t' ≠ t) (e : Engine) :
    (s.setEngine t e).table t' = s.table t' := table_setTable_of_ne s h _

section Tables
variable {t : Nat} {r stored : Row} {s s' : Store} {fault : Fault}

theorem onEngine_of_ok {α : Type} {act : Action Engine α} {x : α} {e : Engine}
    (h : act (s.table t).engine = .ok x e) : onEngine t act s = .ok x (s.setEngine t e) := by
  unfold onEngine onTable
  exact Action.within_of_ok (Action.within_of_ok h)

theorem onEngine_of_error {α : Type} {act : Action Engine α} {e : Engine}
    (h : act (s.table t).engine = .error fault e) :
    onEngine t act s = .error fault (s.setEngine t e) := by
  unfold onEngine onTable
  exact Action.within_of_error (Action.within_of_error h)

theorem onTable_removeRow (t : Nat) (r : Row) :
    onTable t (Table.removeRow r) = onEngine t (Engine.removeRow r) := rfl

theorem onTable_addRow (h : (s.table t).contested.any r.values.contains = false) :
    onTable t (Table.addRow r) s = onEngine t (Engine.addRow r) s := by
  unfold onEngine onTable Action.within Table.addRow
  rw [Action.get_bind, h]
  rfl

theorem onTable_addRow_contested (h : (s.table t).contested.any r.values.contains = true) :
    onTable t (Table.addRow r) s = .error (.error (.concurrentUpdate (s.table t).engine.name))
      (s.setEngine t (s.table t).engine) := by
  unfold onTable Action.within Table.addRow
  rw [Action.get_bind, h]
  rfl

end Tables

end RowStore.Store
