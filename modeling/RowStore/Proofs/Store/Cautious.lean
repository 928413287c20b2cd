import Mathlib.Order.Basic
import RowStore.Proofs.Store.Scene

/-!
# Changes keep to one table, and wait for its lock

* `Store.outside` : all that a change of a table by a session leaves alone;
* `Script.Meek`, `Script.Body` : a script that leaves it alone in every step, given the log of its
  session; `body_rollbackTo`, `body_updateRows` and so on for the parts of the changes;
* `Script.Quiet` : what surrounds a change leaves the table alone too; `quiet_fireBeforeRow`,
  `quiet_prepare` and so on;
* `Script.Cautious` : a script that does nothing before it has the lock of its table;
* `cautious_script` : so do all changes of rows, which are refused for want of the lock if at all before.

A replacement that meets a concurrent change takes back what its session has logged since it began.  So
that this stays within one table, the log is followed: all of it after the savepoint is of that table.
-/

namespace RowStore
open RowStore.Action RowStore.Store

/-! ## What a change leaves alone -/

/-- All that a change of a table by a session leaves alone: the locks and options, the rows and indexes
of the other tables, and the logs of the other sessions. -/
def Store.outside (t u : Nat) (s : Store) :
    LockTable × Options × ({t' : Nat // t' ≠ t} → Engine) × ({v : Nat // v ≠ u} → List UndoRecord) :=
  (s.locks, s.options, fun t' => (s.table t').engine, fun v => (s.session v).undoLog)

def Store.undoLog (u : Nat) (s : Store) : List UndoRecord := (s.session u).undoLog

/-- What sessions can see of a change: rows and indexes, logs, sequences and the fire log. -/
def Store.visible (s : Store) :
    (Nat → Engine) × (Nat → List UndoRecord) × OrderedMap Nat Sequence × FireLog :=
  (fun t => (s.table t).engine, fun u => s.undoLog u, s.sequences, s.fired)

namespace Store
variable {t u : Nat}

theorem session_setSession_of_ne (s : Store) {u v : Nat} (h : v ≠ u) (session : Session) :
    (s.setSession u session).session v = s.session v := by
  unfold Store.session setSession
  rw [OrderedMap.find?_insert_of_ne _ h]

theorem outside_setSession (s : Store) (session : Session) :
    (s.setSession u session).outside t u = s.outside t u := by
  have hlogs : (fun v : {v : Nat // v ≠ u} => ((s.setSession u session).session v).undoLog) =
      fun v : {v : Nat // v ≠ u} => (s.session v).undoLog := by
    funext v
    exact congrArg Session.undoLog (session_setSession_of_ne s v.2 session)
  unfold outside
  rw [hlogs]
  rfl

theorem outside_setNumbering (s : Store) (n : Numbering) :
    (s.setNumbering u n).outside t u = s.outside t u := outside_setSession s _

theorem outside_setTable (s : Store) (table : Table) :
    (s.setTable t table).outside t u = s.outside t u := by
  have hengines : (fun t' : {t' : Nat // t' ≠ t} => ((s.setTable t table).table t').engine) =
      fun t' : {t' : Nat // t' ≠ t} => (s.table t').engine := by
    funext t'
    exact congrArg Table.engine (table_setTable_of_ne s t'.2 table)
  unfold outside
  rw [hengines]
  rfl

section Keeps
variable {α : Type}

theorem outside_onTable (act : Action Table α) : Keeps (outside t u) (onTable t act) := by
  refine keeps_within ?_ act
  exact fun table s => outside_setTable s table

theorem outside_onFired (act : Action FireLog α) : Keeps (outside t u) (onFired act) := by
  refine keeps_within ?_ act
  exact fun _ _ => rfl

theorem outside_onChecks (act : Action CheckState α) : Keeps (outside t u) (onChecks u act) := by
  refine keeps_within ?_ act
  exact fun c s => outside_setNumbering s c.numbering

theorem outside_log (op : UndoOp) (r : Row) : Keeps (outside t u) (log t u op r) :=
  keeps_modify fun s => outside_setSession s _

theorem outside_fitRow (r : Row) : Keeps (outside t u) (Draft.run (fitRow t u) r) := by
  have hdraft : Keeps (fun d : Draft Store => d.state.outside t u) (fitRow t u) := by
    refine Keeps.get_bind fun d => (keeps_ofExcept _).bind fun _ => ?_
    unfold Draft.within
    exact keeps_within (fun p d => outside_setNumbering d.state p.state) _
  intro s
  rw [final_draftRun]
  exact hdraft ⟨s, r⟩

/-- What keeps every action on a table keeps what takes back a change of it. -/
theorem keeps_undo {γ : Type} {view : Store → γ} {r : UndoRecord}
    (h : ∀ act : Action Table Unit, Keeps view (onTable r.table act))
    (h' : ∀ act : Action Table Row, Keeps view (onTable r.table act)) : Keeps view (undo u r) := by
  refine Keeps.get_bind fun s => ?_
  obtain ⟨table, op, row⟩ := r
  cases op with
  | inserted => exact Keeps.ite ((keeps_refuse _).bind fun _ => h _) (h _)
  | deleted => exact Keeps.ite ((keeps_refuse _).bind fun _ => (h' _).discard) (h' _).discard

theorem outside_undo {r : UndoRecord} (h : r.table = t) : Keeps (outside t u) (undo u r) :=
  keeps_undo (h ▸ outside_onTable) (h ▸ outside_onTable)

theorem undoLog_of_core {a : Action Store α} (h : Keeps (core u) a) : Keeps (undoLog u) a :=
  fun s => congrArg (fun c => c.2.2) (h s)

theorem undoLog_onTable (act : Action Table α) : Keeps (undoLog u) (onTable t act) := by
  refine keeps_within ?_ act
  exact fun _ _ => rfl

end Keeps

end Store

/-! ## Scripts that keep to one table -/

namespace Script
variable {α β : Type} {t u : Nat} {J J' : List UndoRecord → Prop}

/-- Each step of the script leaves alone what is outside of a table, and none takes a lock.  It is known
what the log of the session is before the script, and the log at its end is as `J` says. -/
def Meek (t u : Nat) (J : List UndoRecord → Prop) : Script α → List UndoRecord → Prop
  | done _, log => J log
  | fail _, log => J log
  | act a next, log => ∀ s, s.undoLog u = log →
    (final a s).outside t u = s.outside t u ∧
      (next (result a s)).Meek t u J ((final a s).undoLog u)
  | lock .., _ => False

/-- The script keeps to a table, and the log as `J` says it is. -/
def Body (t u : Nat) (J : List UndoRecord → Prop) (x : Script α) : Prop :=
  ∀ log, J log → x.Meek t u J log

theorem Meek.mono {x : Script α} {log : List UndoRecord} (h : x.Meek t u J log)
    (hJ : ∀ log, J log → J' log) : x.Meek t u J' log := by
  induction x generalizing log with
  | done a => exact hJ _ h
  | fail fault => exact hJ _ h
  | act a next ih => exact fun s hs => ⟨(h s hs).1, ih _ (h s hs).2⟩
  | lock t' exclusive force next => exact h.elim

theorem Meek.bind {x : Script α} {f : α → Script β} {log : List UndoRecord} (h : x.Meek t u J log)
    (hf : ∀ a, (f a).Body t u J) : (x >>= f).Meek t u J log := by
  change (x.bind f).Meek t u J log
  induction x generalizing log with
  | done a => exact hf a _ h
  | fail fault => exact h
  | act a next ih => exact fun s hs => ⟨(h s hs).1, ih _ (h s hs).2⟩
  | lock t' exclusive force next => exact h.elim

theorem body_pure (a : α) : (pure a : Script α).Body t u J := fun _ h => h

theorem body_fail (fault : Fault) : (fail fault : Script α).Body t u J := fun _ h => h

theorem Body.bind {x : Script α} {f : α → Script β} (h : x.Body t u J)
    (hf : ∀ a, (f a).Body t u J) : (x >>= f).Body t u J := fun log hl => (h log hl).bind hf

theorem Body.ite {p : Prop} [Decidable p] {x y : Script α} (hx : x.Body t u J) (hy : y.Body t u J) :
    (if p then x else y).Body t u J := by
  split
  · exact hx
  · exact hy

theorem Body.forM {f : β → Script Unit} {xs : List β} (hf : ∀ x ∈ xs, (f x).Body t u J) :
    (xs.forM f).Body t u J := by
  induction xs with
  | nil => exact body_pure ()
  | cons x xs ih =>
    exact (hf x List.mem_cons_self).bind fun _ => ih fun y hy => hf y (List.mem_cons_of_mem _ hy)

theorem body_act {a : Action Store β} {next : Except Fault β → Script α}
    (ha : Keeps (outside t u) a) (hl : Keeps (undoLog u) a)
    (hnext : ∀ r, (next r).Body t u J) : (act a next).Body t u J := by
  rintro _ h s rfl
  refine ⟨ha s, hnext _ _ ?_⟩
  rw [hl s]
  exact h

theorem body_ofResult (r : Except Fault α) : (ofResult r).Body t u J := by
  cases r with
  | ok a => exact body_pure a
  | error fault => exact body_fail fault

theorem body_step {a : Action Store α} (ha : Keeps (outside t u) a)
    (hl : Keeps (undoLog u) a) : (step a).Body t u J :=
  body_act ha hl body_ofResult

/-! ### What surrounds a change -/

/-- No step of the script changes a table, or what is outside of one table, or the log.  What it yields is
as `P` says. -/
def Quiet (t u : Nat) (P : α → Prop) : Script α → Prop
  | done a => P a
  | fail _ => True
  | act a next => Keeps (outside t u) a ∧ Keeps (core u) a ∧ ∀ r, (next r).Quiet t u P
  | lock .. => False

def Any (_ : α) : Prop := True

section Quiet
variable {P : α → Prop} {P' : β → Prop}

theorem Quiet.body {x : Script α} (h : x.Quiet t u P) : x.Body t u J := by
  induction x with
  | done a => exact body_pure a
  | fail fault => exact body_fail fault
  | act a next ih => exact body_act h.1 (undoLog_of_core h.2.1) fun r => ih r (h.2.2 r)
  | lock t' exclusive force next => exact h.elim

theorem Quiet.bind {x : Script α} {f : α → Script β} (h : x.Quiet t u P)
    (hf : ∀ a, P a → (f a).Quiet t u P') : (x >>= f).Quiet t u P' := by
  change (x.bind f).Quiet t u P'
  induction x with
  | done a => exact hf a h
  | fail fault => trivial
  | act a next ih => exact ⟨h.1, h.2.1, fun r => ih r (h.2.2 r)⟩
  | lock t' exclusive force next => exact h.elim

theorem Quiet.ite {p : Prop} [Decidable p] {x y : Script α} (hx : x.Quiet t u P)
    (hy : y.Quiet t u P) : (if p then x else y).Quiet t u P := by
  split
  · exact hx
  · exact hy

theorem Quiet.forM {f : β → Script Unit} {xs : List β} (hf : ∀ x, (f x).Quiet t u Any) :
    (xs.forM f).Quiet t u Any := by
  induction xs with
  | nil => trivial
  | cons x xs ih => exact (hf x).bind fun _ _ => ih

theorem quiet_step {a : Action Store α} (ha : Keeps (outside t u) a) (hc : Keeps (core u) a) :
    (step a).Quiet t u Any := by
  refine ⟨ha, hc, fun r => ?_⟩
  cases r <;> trivial

theorem quiet_table (t' : Nat) : (table t').Quiet t u Any :=
  quiet_step (fun _ => rfl) fun _ => rfl

theorem quiet_fireUntilHandled (old new : Option Row) (rollback : Bool) (triggers : List Trigger) :
    (fireUntilHandled old new rollback triggers).Quiet t u Any := by
  induction triggers with
  | nil => trivial
  | cons trigger rest ih =>
    have hfire := quiet_step (t := t) (outside_onFired (trigger.fireRow old new rollback))
      (keeps_onFired (u := u) _)
    exact hfire.bind fun _ _ => Quiet.ite trivial ih

theorem quiet_fireTriggers (before : Bool) (old new : Option Row) (rollback : Bool) :
    (fireTriggers t before old new rollback).Quiet t u Any :=
  (quiet_table t).bind fun _ _ => quiet_fireUntilHandled old new rollback _

theorem quiet_checkConstraints (before : Bool) (old new : Option Row) :
    (checkConstraints t u before old new).Quiet t u Any :=
  (quiet_table t).bind fun _ _ => Quiet.forM fun _ =>
    quiet_step (outside_onChecks _) (keeps_onChecks _)

theorem quiet_fireBeforeRow (old new : Option Row) : (fireBeforeRow t u old new).Quiet t u Any := by
  refine (quiet_fireTriggers true old new false).bind fun handled _ => ?_
  cases handled with
  | true => trivial
  | false => exact (quiet_checkConstraints true old new).bind fun _ _ => trivial

theorem quiet_fireAfterRow (old new : Option Row) : (fireAfterRow t u old new).Quiet t u Any :=
  (quiet_fireTriggers false old new false).bind fun _ _ => quiet_checkConstraints false old new

theorem quiet_fitRow (r : Row) : (step (Draft.run (fitRow t u) r)).Quiet t u Any :=
  quiet_step (outside_fitRow r) (keeps_run (keeps_fitRow t) r)

/-- The pairs that are left are some of those that were given. -/
theorem quiet_prepare (fires : Bool) (pairs : List (Row × Row)) :
    (prepare t u fires pairs).Quiet t u fun left : List (Row × Row) =>
      left.map (·.1) ⊆ pairs.map (·.1) := by
  induction pairs with
  | nil => exact List.Subset.refl []
  | cons pair rest ih =>
    obtain ⟨old, new⟩ := pair
    refine (quiet_fitRow _).bind fun fitted _ => ?_
    have hrest (handled : Bool) : (do
        let left ← prepare t u fires rest
        pure (if handled then left else (old, fitted.2) :: left) : Script (List (Row × Row))).Quiet
          t u fun left => left.map (·.1) ⊆ ((old, new) :: rest).map (·.1) := by
      refine ih.bind fun left hleft => ?_
      cases handled with
      | true => exact fun r hr => List.mem_cons_of_mem _ (hleft hr)
      | false => exact List.cons_subset_cons _ hleft
    cases fires with
    | true => exact (quiet_fireBeforeRow _ _).bind fun handled _ => hrest handled
    | false => exact hrest false

theorem quiet_poll (canceled : Nat → Bool) (steps polls : Nat) :
    (poll canceled steps polls).Quiet t u Any :=
  Quiet.ite (Quiet.ite trivial trivial) trivial

end Quiet

/-! ### The parts of changes -/

theorem body_onTable (act : Action Table α) : (step (onTable t act)).Body t u J :=
  body_step (outside_onTable act) (undoLog_onTable act)

theorem body_log (hJ : ∀ log r, J log → r.table = t → J (log ++ [r])) (op : UndoOp) (r : Row) :
    (step (log t u op r)).Body t u J := by
  rintro _ h s rfl
  refine ⟨outside_log op r s, ?_⟩
  have hlog : (final (log t u op r) s).undoLog u = s.undoLog u ++ [⟨t, op, r⟩] :=
    congrArg Session.undoLog (session_setSession s u _)
  exact body_ofResult _ _ (hlog ▸ hJ _ _ h rfl)

/-! ### Whole changes, once they have the lock -/

def LoggedOn (t savepoint : Nat) (log : List UndoRecord) : Prop :=
  ∀ r ∈ log.drop savepoint, r.table = t

theorem loggedOn_append {savepoint : Nat} (log : List UndoRecord) (r : UndoRecord)
    (h : LoggedOn t savepoint log) (hr : r.table = t) : LoggedOn t savepoint (log ++ [r]) := by
  intro q hq
  rw [List.drop_append] at hq
  rcases List.mem_append.1 hq with hq | hq
  · exact h q hq
  · rw [List.mem_singleton.1 (List.mem_of_mem_drop hq)]
    exact hr

/-- A session that goes back to a savepoint takes back changes of the table only. -/
theorem body_rollbackTo (savepoint : Nat) :
    (rollbackTo u savepoint).Body t u (LoggedOn t savepoint) := by
  rintro _ h s rfl
  refine ⟨outside_setSession s _, ?_⟩
  have hcut : ((s.setSession u { s.session u with
      undoLog := (s.session u).undoLog.take savepoint }).undoLog u) =
        (s.session u).undoLog.take savepoint := congrArg Session.undoLog (session_setSession s u _)
  have hrest : ((s.undoLog u).drop savepoint).reverse.forM (fun r => step (undo u r)) |>.Body t u
      (LoggedOn t savepoint) := Body.forM fun r hr =>
    body_step (outside_undo (h r (List.mem_reverse.1 hr))) (keeps_undo undoLog_onTable undoLog_onTable)
  refine hrest _ ?_
  intro r hr
  change r ∈ ((s.setSession u _).undoLog u).drop savepoint at hr
  rw [hcut, List.drop_eq_nil_of_le (List.length_take_le _ _)] at hr
  cases hr

theorem body_retreat (savepoint : Nat) (fault : Fault) :
    (retreat t u savepoint fault).Body t u (LoggedOn t savepoint) := by
  unfold retreat
  split
  · refine (body_step ?_ ?_).bind fun _ => body_rollbackTo savepoint
    · exact Keeps.get_bind fun _ => keeps_modify fun _ => rfl
    · exact Keeps.get_bind fun _ => keeps_modify fun _ => rfl
  · exact body_pure ()

theorem body_addNew (savepoint : Nat) (r : Row) :
    (addNew t u savepoint r).Body t u (LoggedOn t savepoint) := by
  refine body_act (outside_onTable _) (undoLog_onTable _) fun came => ?_
  cases came with
  | ok stored => exact body_pure stored
  | error fault => exact (body_retreat savepoint fault).bind fun _ => body_fail fault

theorem body_removeOld (savepoint : Nat) (canceled : Nat → Bool) (steps polls : Nat)
    (old : List Row) : (removeOld t u canceled steps polls old).Body t u (LoggedOn t savepoint) := by
  induction old generalizing steps polls with
  | nil => exact body_pure polls
  | cons r old ih =>
    exact (quiet_poll canceled _ _).body.bind fun _ => (body_onTable _).bind fun _ =>
      (body_log loggedOn_append _ _).bind fun _ => ih _ _

theorem body_addAllNew (savepoint : Nat) (canceled : Nat → Bool) (steps place : Nat)
    (rows : List Row) (polls : Nat) (new : List Row) :
    (addAllNew t u savepoint canceled steps place rows polls new).Body t u
      (LoggedOn t savepoint) := by
  induction new generalizing steps place rows polls with
  | nil => exact body_pure _
  | cons r new ih =>
    exact (quiet_poll canceled _ _).body.bind fun _ => (body_addNew savepoint r).bind fun _ =>
      (body_log loggedOn_append _ _).bind fun _ => ih _ _ _ _

def Anything (_ : List UndoRecord) : Prop := True

/-- From its savepoint on, a replacement logs changes of its table only. -/
theorem body_updateRows (canceled : Nat → Bool) (old rows : List Row) (polls : Nat) :
    (updateRows t u canceled old rows polls).Body t u Anything := by
  rintro _ - s rfl
  refine ⟨rfl, ?_⟩
  have hrest : (removeOld t u canceled 0 polls old >>= fun polls =>
      addAllNew t u (s.session u).position canceled old.length 0 rows polls rows).Body t u
        (LoggedOn t (s.session u).position) :=
    (body_removeOld _ canceled 0 polls old).bind fun _ => body_addAllNew _ canceled _ _ _ _ _
  refine (hrest (s.undoLog u) ?_).mono fun _ _ => trivial
  have hnone : (s.undoLog u).drop (s.session u).position = [] := List.drop_eq_nil_of_le le_rfl
  intro r hr
  rw [hnone] at hr
  cases hr

/-! ## Scripts that wait for their lock -/

end Script

/-- A call was refused before it had the lock of its table. -/
inductive Refusal : Fault → Prop where
  | readOnly : Refusal (.error .readOnly)
  | lockTimeout (table : String) : Refusal (.error (.lockTimeout table))
  | deadlock (table sessions : String) : Refusal (.error (.deadlock table sessions))

namespace Script
variable {α β : Type} {t u : Nat}

/-- The script does nothing before it has the lock of a table, and keeps to the table then.  It is not
done without the lock, and refused for want of it if at all. -/
def Cautious (t u : Nat) : Script α → Prop
  | done _ => False
  | fail fault => Refusal fault
  | act a next => ∀ s, final a s = s ∧ (next (result a s)).Cautious t u
  | lock t' exclusive _ next => t' = t ∧ exclusive = true ∧
    (next (.ok ())).Body t u Anything ∧ ∀ fault, Refusal fault → (next (.error fault)).Cautious t u

theorem Cautious.bind {x : Script α} {f : α → Script β} (h : x.Cautious t u)
    (hf : ∀ a, (f a).Body t u Anything) : (x >>= f).Cautious t u := by
  change (x.bind f).Cautious t u
  induction x with
  | done a => exact h.elim
  | fail fault => exact h
  | act a next ih => exact fun s => ⟨(h s).1, ih _ (h s).2⟩
  | lock t' exclusive force next ih =>
    obtain ⟨ht, hx, hbody, hrefused⟩ := h
    exact ⟨ht, hx, hbody.bind hf, fun fault hr => ih _ (hrefused fault hr)⟩

theorem cautious_beginChange : (beginChange t).Cautious t u := by
  intro s
  unfold checkWriting
  cases hr : s.catalog.readOnly with
  | true =>
    have hrun : (do
        if (← get).catalog.readOnly then
          Action.refuse .readOnly : Action Store Unit) s = .error (.error .readOnly) s := by
      rw [get_bind, hr]
      rfl
    unfold final result
    rw [hrun]
    exact ⟨rfl, .readOnly⟩
  | false =>
    have hrun : (do
        if (← get).catalog.readOnly then
          Action.refuse .readOnly : Action Store Unit) s = .ok () s := by
      rw [get_bind, hr]
      rfl
    unfold final result
    rw [hrun]
    exact ⟨rfl, rfl, rfl, body_pure (), fun fault hf => hf⟩

theorem anything_append (log : List UndoRecord) (r : UndoRecord) (h : Anything log)
    (_ : r.table = t) : Anything (log ++ [r]) := h

theorem cautious_insert (r : Row) : (insert t u r).Cautious t u := by
  refine cautious_beginChange.bind fun _ => ?_
  refine (quiet_fitRow r).body.bind fun fitted => (quiet_table t).body.bind fun table => ?_
  refine (quiet_fireBeforeRow _ _).body.bind fun handled => Body.ite (body_pure _) ?_
  refine (body_onTable _).bind fun stored => (body_log anything_append _ _).bind fun _ => ?_
  exact Body.ite ((quiet_fireAfterRow _ _).body.bind fun _ => body_pure _) (body_pure _)

theorem cautious_delete (r : Row) : (delete t u r).Cautious t u := by
  refine cautious_beginChange.bind fun _ => (quiet_table t).body.bind fun table => ?_
  refine (quiet_fireBeforeRow _ _).body.bind fun handled => Body.ite (body_pure _) ?_
  refine (body_onTable _).bind fun _ => (body_log anything_append _ _).bind fun _ => ?_
  exact Body.ite ((quiet_fireAfterRow _ _).body.bind fun _ => body_pure _) (body_pure _)

theorem cautious_update (canceled : Nat → Bool) (pairs : List (Row × Row)) :
    (update t u canceled pairs).Cautious t u := by
  refine cautious_beginChange.bind fun _ => (quiet_table t).body.bind fun table => ?_
  refine (quiet_prepare _ pairs).body.bind fun pending => ?_
  refine (body_updateRows canceled _ _ 0).bind fun done => ?_
  exact Body.ite ((Body.forM fun _ _ => (quiet_fireAfterRow _ _).body).bind fun _ => body_pure _)
    (body_pure _)

/-- Every change of rows is cautious. -/
theorem cautious_script {call : Call} (h : call.target? = some t) : (call.script u).Cautious t u := by
  cases call with
  | lock => cases h
  | insert t' r =>
    cases h
    exact (cautious_insert r).bind fun _ => body_pure ()
  | delete t' r =>
    cases h
    exact (cautious_delete r).bind fun _ => body_pure ()
  | update t' canceled pairs =>
    cases h
    exact (cautious_update canceled pairs).bind fun _ => body_pure ()

end Script

end RowStore
