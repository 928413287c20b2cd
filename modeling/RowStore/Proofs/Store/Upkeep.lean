import RowStore.Proofs.Engine.Refusals
import RowStore.Proofs.Outcome
import RowStore.Proofs.Store.Onward
import RowStore.Proofs.Store.Stepwise

/-!
# What changes of rows keep up

* `Upkeep` : what is to be kept up of a table, its rows and the sequences, what is asked of rows for that, and
  the faults that may come; `Upkeep.At` : a store is in order;
* `Upkeep.Lasting` : a condition that holds as long as a table and a log stay as they are; `safe_beginChange`,
  `meets_fitRow`, `safe_fireBeforeRow` and so on : the parts of a change that do not leave it;
* `safe_addRow`, `safe_removeRow`, `safe_undo` : the parts that change rows;
* `Upkeep.Halfway` : in the middle of a replacement; `meets_removeOld`, `meets_addAllNew` : its two halves;
* `safe_insert`, `safe_delete`, `meets_update` : a store is in order after every change of rows, whatever
  becomes of it.
-/

namespace RowStore
open RowStore.Action RowStore.Store

/-! ## Parts that do not run past an end -/

section InRange
variable {t u : Nat}

theorem inRange_checkWriting : InRange checkWriting :=
  InRange.get_bind fun _ => InRange.ite (inRange_refuse _) (inRange_pure ())

theorem inRange_lock (exclusive force : Bool) : InRange (Store.lock t u exclusive force) := by
  have hnote (r : TraceRecord) : InRange (note r) := inRange_modify _
  refine InRange.get_bind fun s => ?_
  cases effectiveMode s.options.multiVersion force exclusive with
  | none => exact inRange_pure ()
  | some mode =>
    dsimp only
    rcases s.locks.lock ⟨t, u, mode⟩ with ⟨outcome, locks⟩
    refine InRange.set_bind fun _ => ?_
    cases outcome with
    | granted => exact hnote _
    | deadlock path => exact (hnote _).bind fun _ => inRange_refuse _
    | timedOut => exact (hnote _).bind fun _ => inRange_refuse _
    | parked => exact (hnote _).bind fun _ => inRange_refuse _

theorem inRange_beginChange : InRange (beginChange t u) :=
  inRange_checkWriting.bind fun _ => inRange_lock true false

theorem Trigger.inRange_fireRow (trigger : Trigger) (old new : Option Row) (rollback : Bool) :
    InRange (trigger.fireRow old new rollback) := by
  have hadd (r : FireRecord) : InRange (FireLog.add r) := inRange_modify _
  refine (hadd _).bind fun _ => ?_
  cases trigger.script with
  | none => exact inRange_pure _
  | some script =>
    refine (hadd _).bind fun _ => InRange.bind ?_ fun _ => inRange_pure _
    exact InRange.ite (inRange_refuse _) (inRange_pure ())

theorem inRange_fireTriggers (before : Bool) (old new : Option Row) (rollback : Bool) :
    InRange (fireTriggers t before old new rollback) := by
  have hall (triggers : List Trigger) : InRange (fireUntilHandled old new rollback triggers) := by
    induction triggers with
    | nil => exact inRange_pure false
    | cons trigger rest ih =>
      exact (trigger.inRange_fireRow old new rollback).bind fun _ => InRange.ite (inRange_pure true) ih
  exact InRange.get_bind fun _ => (hall _).within

end InRange

/-! ## What is to be kept up -/

/-- What is to be kept up of a table while its rows change. -/
structure Upkeep where
  /-- The table, whatever rows it has. -/
  table : Table
  /-- Its rows and indexes are in order. -/
  holds : Engine → Prop
  /-- The sequences are in order. -/
  numbers : OrderedMap Nat Sequence → Prop
  /-- A row may be stored. -/
  good : Row → Prop
  /-- A change may fail with the fault. -/
  fine : Fault → Prop
  refused : ∀ cause, fine (.error cause)
  fits : Meets (fun d => numbers d.state.sequences ∧ d.row.width = table.columns.width)
    (fitColumns 0 table.columns.list) (fun _ d => numbers d.state.sequences ∧ good d.row)
    fun fault d => numbers d.state.sequences ∧ fine fault
  checks : ∀ c ∈ table.constraints, ∀ rows old new,
    Safe (fun d => numbers d.numbering.sequences) fine (c.checkRow rows old new)
  adds : ∀ r, good r → Safe holds fine (Engine.addRow r)
  removes : ∀ r, Safe holds fine (Engine.removeRow r)

/-- Where nothing is kept up of the sequences and any fault may come, nothing is asked of checks. -/
theorem Table.safe_checks (table : Table) : ∀ c ∈ table.constraints, ∀ rows old new,
    Safe (fun _ => True) (fun _ => True) (c.checkRow rows old new) :=
  fun _ _ _ _ _ => meets_trivial (fun _ _ => trivial) fun _ _ => ⟨trivial, trivial⟩

namespace Upkeep
variable {K : Upkeep} {P : Store → Prop} {t u n : Nat} {given : List Row} {r : Row} {s s' : Store}
  {e : Engine}

/-- A table and the sequences are in order. -/
structure At (K : Upkeep) (t : Nat) (s : Store) : Prop where
  table : s.table t = { K.table with engine := (s.table t).engine }
  engine : K.holds (s.table t).engine
  numbers : K.numbers s.sequences

/-- The condition says that a table is in order, and holds as long as the table and the log of a session
stay as they are and the sequences are in order. -/
structure Lasting (K : Upkeep) (t u : Nat) (P : Store → Prop) : Prop where
  order : ∀ {s}, P s → K.At t s
  same : ∀ {s s'}, P s → s'.core u = s.core u → K.numbers s'.sequences → P s'

theorem At.of_table (h : K.At t s) (ht : s'.table t = s.table t) (hn : K.numbers s'.sequences) :
    K.At t s' where
  table := by rw [ht]; exact h.table
  engine := by rw [ht]; exact h.engine
  numbers := hn

theorem At.setEngine (h : K.At t s) (he : K.holds e) : K.At t (s.setEngine t e) := by
  constructor
  · unfold Store.setEngine
    rw [table_setTable, h.table]
  · rwa [engine_setEngine]
  · exact h.numbers

theorem lasting_at (K : Upkeep) (t u : Nat) : K.Lasting t u (K.At t) :=
  ⟨id, fun h hc hn => h.of_table (table_eq_of_core hc t) hn⟩

/-! ## What surrounds a change -/

section Surroundings
variable {before : Bool} {old new : Option Row} (hP : K.Lasting t u P)
include hP

/-- A step that leaves tables, logs and sequences alone, and may only be refused. -/
theorem Lasting.safe {α : Type} {act : Action Store α}
    (hk : Keeps (fun s => (s.core u, s.sequences)) act) (hr : InRange act) : Safe P K.fine act := by
  refine Stays.safe (fun s hs => ?_) hr K.refused
  have hsame := hk s
  refine hP.same hs (congrArg Prod.fst hsame) ?_
  rw [show (final act s).sequences = s.sequences from congrArg Prod.snd hsame]
  exact (hP.order hs).numbers

theorem Lasting.safe_beginChange : Safe P K.fine (beginChange t u) := by
  have hcheck : Keeps (fun s : Store => (s.core u, s.sequences)) checkWriting :=
    Keeps.get_bind fun _ => Keeps.ite (keeps_refuse _) (keeps_pure ())
  refine hP.safe (hcheck.bind fun _ => ?_) inRange_beginChange
  exact keeps_lock_of (fun _ _ _ => rfl) t u true false

theorem Lasting.safe_fireTriggers (t' : Nat) (before : Bool) (old new : Option Row) (rollback : Bool) :
    Safe P K.fine (fireTriggers t' before old new rollback) := by
  have hfired {α : Type} (act : Action FireLog α) :
      Keeps (fun s : Store => (s.core u, s.sequences)) (onFired act) := by
    refine keeps_within ?_ act
    intro log s
    rfl
  exact hP.safe (Keeps.get_bind fun _ => hfired _) (inRange_fireTriggers before old new rollback)

theorem Lasting.safe_onChecks {c : Constraint} (hc : c ∈ K.table.constraints) (rows : Nat)
    (old new : Option Row) : Safe P K.fine (onChecks u (c.checkRow rows old new)) := by
  refine (K.checks c hc rows old new).within (fun s hs => (hP.order hs).numbers) ?_ ?_
  · exact fun s _ d hs hd => hP.same hs (core_setNumbering s u d.numbering) hd
  · exact fun s _ d hs hd => ⟨hP.same hs (core_setNumbering s u d.numbering) hd.1, hd.2⟩

theorem Lasting.safe_checkConstraints (before : Bool) (old new : Option Row) :
    Safe P K.fine (checkConstraints t u before old new) := by
  refine Meets.get_bind fun s hs => ?_
  refine Meets.pre (P := P) (Meets.forM fun c hc => ?_) fun _ he => he ▸ hs
  have hc' : c ∈ (s.table t).constraints := List.mem_of_mem_filter hc
  rw [(hP.order hs).table] at hc'
  exact hP.safe_onChecks hc' _ old new

theorem Lasting.safe_fireBeforeRow (old new : Option Row) :
    Safe P K.fine (fireBeforeRow t u old new) := by
  refine (hP.safe_fireTriggers t true old new false).bind fun handled => ?_
  cases handled with
  | true => exact meets_pure fun _ hs => hs
  | false => exact (hP.safe_checkConstraints true old new).bind fun _ => meets_pure fun _ hs => hs

theorem Lasting.safe_fireAfterRow (old new : Option Row) :
    Safe P K.fine (fireAfterRow t u old new false) :=
  Meets.bind (hP.safe_fireTriggers t false old new false).discard fun _ =>
    hP.safe_checkConstraints false old new

/-- A row that is fitted may be stored. -/
theorem Lasting.meets_fitRow (r : Row) : Meets P (Draft.run (fitRow t u) r)
    (fun p s => P s ∧ K.good p.2) fun fault s => P s ∧ K.fine fault := by
  have hfit : Meets (fun d => P d.state ∧ d.row = r) (fitRow t u) (fun _ d => P d.state ∧ K.good d.row)
      fun fault d => P d.state ∧ K.fine fault := by
    refine Meets.get_bind fun d hd => ?_
    have hcolumns : (d.state.table t).columns = K.table.columns := by rw [(hP.order hd.1).table]
    -- the width is checked first, so that the columns meet a row with a slot for each of them
    refine Meets.bind (Q := fun _ d' => d' = d ∧ d.row.width = K.table.columns.width)
      (meets_ofExcept (fun _ _ hw he => ⟨he, ?_⟩) fun _ _ he => ⟨he ▸ hd.1, K.refused _⟩) fun _ => ?_
    · unfold Table.checkWidth at hw
      split at hw
      · rwa [← hcolumns]
      · cases hw
    · rw [hcolumns]
      unfold Draft.within
      refine K.fits.within ?_ ?_ ?_
      · rintro _ ⟨rfl, hw⟩
        exact ⟨(hP.order hd.1).numbers, hw⟩
      · rintro _ _ p ⟨rfl, -⟩ hp
        exact ⟨hP.same hd.1 (core_setNumbering _ u p.state) hp.1, hp.2⟩
      · rintro _ _ p ⟨rfl, -⟩ hp
        exact ⟨hP.same hd.1 (core_setNumbering _ u p.state) hp.1, hp.2⟩
  intro s hs
  unfold Draft.run
  cases hr : fitRow t u ⟨s, r⟩ with
  | ok x d => exact hfit.of_ok ⟨hs, rfl⟩ hr
  | error fault d => exact hfit.of_error ⟨hs, rfl⟩ hr

end Surroundings

/-! ## Rows that come and go -/

section Rows

/-- What changes the rows and indexes of the table, and keeps them in order. -/
theorem safe_onEngine {α : Type} {act : Action Engine α} (h : Safe K.holds K.fine act) :
    Safe (K.At t) K.fine (onEngine t act) := by
  intro s hs
  cases hr : act (s.table t).engine with
  | ok a e =>
    rw [onEngine_of_ok hr]
    exact hs.setEngine (h.of_ok hs.engine hr)
  | error fault e =>
    rw [onEngine_of_error hr]
    obtain ⟨he, hf⟩ := h.of_error hs.engine hr
    exact ⟨hs.setEngine he, hf⟩

theorem safe_addRow (hr : K.good r) : Safe (K.At t) K.fine (onTable t (Table.addRow r)) := by
  intro s hs
  cases hc : (s.table t).contested.any r.values.contains with
  | true =>
    rw [onTable_addRow_contested hc]
    exact ⟨hs.setEngine hs.engine, K.refused _⟩
  | false =>
    rw [onTable_addRow hc]
    exact safe_onEngine (K.adds r hr) s hs

theorem safe_removeRow (r : Row) : Safe (K.At t) K.fine (onTable t (Table.removeRow r)) :=
  safe_onEngine (K.removes r)

/-- A change that is taken back puts back nothing but rows that may be stored. -/
theorem safe_undo {record : UndoRecord} (ht : record.table = t)
    (hr : record.op = .deleted → K.good record.row) : Safe (K.At t) K.fine (undo u record) := by
  obtain ⟨t', op, r⟩ := record
  subst ht
  refine Meets.get_bind fun s hs => Meets.pre (P := K.At t') ?_ fun _ he => he ▸ hs
  refine Meets.ite (fun _ => ?_) fun _ => ?_
  · exact Meets.bind (Q := fun _ _ => False) (meets_refuse fun _ h => ⟨h, K.refused _⟩) fun _ _ h => h.elim
  · cases op with
    | inserted => exact safe_onEngine (K.removes r)
    | deleted => exact (safe_onEngine (K.adds r (hr rfl))).discard

end Rows

/-! ## Replacements -/

/-- If a concurrent change can take a replacement back, a row that it is given to remove may be stored, as
far as there is one to be removed. -/
def Fed (K : Upkeep) (e : Engine) (r : Row) : Prop := K.table.contested.isSome = true →
  ∀ key stored, r.key = some key → e.row? key = some stored → K.good r

/-- In the middle of a replacement that began at a savepoint. -/
structure Halfway (K : Upkeep) (t u savepoint : Nat) (given : List Row) (s : Store) : Prop
    extends K.At t s where
  fed : ∀ r ∈ given, K.Fed (s.table t).engine r
  logged : ∀ record ∈ (s.undoLog u).drop savepoint, record.table = t ∧
    (record.op = .deleted → K.table.contested.isSome = true → K.good record.row)

section Replacements
variable {savepoint : Nat} {canceled : Nat → Bool}

theorem At.halfway (h : K.At t s) (hg : ∀ r ∈ given, K.Fed (s.table t).engine r) :
    K.Halfway t u (s.session u).position given s := by
  refine ⟨h, hg, fun record hr => ?_⟩
  rw [show (s.undoLog u).drop (s.session u).position = [] from List.drop_length] at hr
  cases hr

theorem Halfway.of_nil (h : K.Halfway t u savepoint given s) : K.Halfway t u savepoint [] s :=
  ⟨h.toAt, fun _ hr => absurd hr List.not_mem_nil, h.logged⟩

theorem Halfway.recorded (h : K.Halfway t u savepoint given s) {op : UndoOp}
    (hr : op = .deleted → K.table.contested.isSome = true → K.good r) :
    K.Halfway t u savepoint given (s.recorded u ⟨t, op, r⟩) := by
  refine ⟨h.toAt.of_table rfl h.numbers, h.fed, fun record hmem => ?_⟩
  rw [undoLog_recorded, List.drop_append] at hmem
  rcases List.mem_append.1 hmem with hold | hnew
  · exact h.logged record hold
  · cases List.mem_singleton.1 (List.mem_of_mem_drop hnew)
    exact ⟨rfl, hr⟩

/-- A row that is removed may be stored again, if it can come to that. -/
theorem meets_remove (hr : r ∈ given) : Meets (K.Halfway t u savepoint given)
    (onTable t (Table.removeRow r)) (fun _ s => K.Halfway t u savepoint given s ∧
      (K.table.contested.isSome = true → K.good r)) fun fault s => K.At t s ∧ K.fine fault := by
  refine meets_iff.2 fun s hs => ⟨fun _ s' he => ?_, fun fault s' he => ?_⟩
  · have hlog : s'.undoLog u = s.undoLog u := (undoLog_onTable _).of_ok he
    obtain ⟨e, hend, hrows⟩ := final_removeRow t r s
    rw [final_of_ok he] at hend
    subst hend
    refine ⟨⟨(safe_removeRow r).of_ok hs.toAt he, fun x hx hc key stored hkey hrow => ?_, ?_⟩, fun hc => ?_⟩
    · -- what is still stored was stored before
      rw [engine_setEngine] at hrow
      exact hs.fed x hx hc key stored hkey (hrows key stored hrow)
    · rw [hlog]
      exact hs.logged
    · obtain ⟨key, stored, hkey, hrow⟩ := stored_of_removed he
      exact hs.fed r hr hc key stored hkey hrow
  · exact (safe_removeRow r).of_error hs.toAt he

/-- A session that goes back to the savepoint puts back nothing but rows that may be stored. -/
theorem meets_rollbackTo (hc : K.table.contested.isSome = true) :
    Meets (K.Halfway t u savepoint given) (rollbackTo u savepoint) (fun _ => K.At t)
      fun fault s => K.At t s ∧ K.fine fault := by
  refine Meets.get_bind fun s hs => ?_
  have hcut : K.At t (s.setSession u ((s.session u).split savepoint).2) := hs.toAt.of_table rfl hs.numbers
  have hundo : Safe (K.At t) K.fine (((s.session u).split savepoint).1.reverse.forM (undo u)) := by
    refine Meets.forM fun record hr => ?_
    obtain ⟨ht, hgood⟩ := hs.logged record (List.mem_reverse.1 hr)
    exact safe_undo ht fun hop => hgood hop hc
  rintro _ rfl
  exact hundo _ hcut

theorem meets_retreat (hc : K.table.contested.isSome = true) (fault : Fault) :
    Meets (K.Halfway t u savepoint given) (retreat t u savepoint fault) (fun _ => K.At t)
      fun fault s => K.At t s ∧ K.fine fault := by
  unfold retreat
  split
  · refine Meets.get_bind fun s hs => Meets.pre (P := K.Halfway t u savepoint given) ?_ fun _ he => he ▸ hs
    refine Meets.bind (Q := fun _ => K.Halfway t u savepoint given) (meets_modify fun b hb => ?_)
      fun _ => meets_rollbackTo hc
    exact ⟨hb.toAt.of_table rfl hb.numbers, hb.fed, hb.logged⟩
  · exact meets_pure fun _ h => h.toAt

/-- An addition meets a concurrent change just where the table has contested rows. -/
theorem ne_concurrentUpdate {fault : Fault} (hs : K.At t s) (hc : K.table.contested.isSome ≠ true)
    (h : onTable t (Table.addRow r) s = .error fault s') (name : String) :
    fault ≠ .error (.concurrentUpdate name) := by
  have hnone : (s.table t).contested = none := by
    rw [hs.table]
    exact Option.not_isSome_iff_eq_none.1 hc
  rw [onTable_addRow (by rw [hnone]; rfl)] at h
  cases hr : Engine.addRow r (s.table t).engine with
  | ok stored e => cases (onEngine_of_ok hr).symm.trans h
  | error first e =>
    cases (onEngine_of_error hr).symm.trans h
    exact Engine.ne_concurrentUpdate_of_refused hr name

/-- Either a new row is added, or the replacement is taken back as far as it has to be. -/
theorem meets_addNew (hr : K.good r) : Meets (K.Halfway t u savepoint [])
    (addNew t u savepoint r) (fun _ => K.Halfway t u savepoint [])
      fun fault s => K.At t s ∧ K.fine fault := by
  have hhalfway {b b' : Store} (hb : K.Halfway t u savepoint [] b) (hat : K.At t b')
      (hlog : b'.undoLog u = b.undoLog u) : K.Halfway t u savepoint [] b' :=
    ⟨hat, fun _ hr => absurd hr List.not_mem_nil, hlog ▸ hb.logged⟩
  have hadd := safe_addRow (K := K) (t := t) hr
  refine meets_iff.2 fun s hs => ?_
  cases ha : onTable t (Table.addRow r) s with
  | ok stored s₁ =>
    rw [addNew_of_ok ha]
    refine ⟨fun _ _ he => ?_, fun _ _ he => nomatch he⟩
    cases he
    exact hhalfway hs (hadd.of_ok hs.toAt ha) ((undoLog_onTable _).of_ok ha)
  | error fault s₁ =>
    rw [addNew_of_error ha]
    obtain ⟨hat, hfine⟩ := hadd.of_error hs.toAt ha
    have hback : Meets (K.Halfway t u savepoint []) (retreat t u savepoint fault) (fun _ => K.At t)
        fun fault s => K.At t s ∧ K.fine fault := by
      by_cases hc : K.table.contested.isSome = true
      · exact meets_retreat hc fault
      · rw [(Script.retreat_of_ne savepoint (ne_concurrentUpdate hs.toAt hc ha)).2]
        exact meets_pure fun _ h => h.toAt
    have hall := hback.bind fun _ => meets_throw (α := Row) (Q := fun _ => K.Halfway t u savepoint [])
      fun _ hb => ⟨hb, hfine⟩
    exact meets_iff.1 hall s₁ (hhalfway hs hat ((undoLog_onTable _).of_error ha))

theorem safe_poll (canceled : Nat → Bool) (steps polls : Nat) :
    Safe P K.fine ((Script.poll canceled steps polls).run u) := by
  unfold Script.poll
  rw [Script.run_ite, Script.run_ite]
  refine Meets.ite (fun _ => Meets.ite (fun _ => ?_) fun _ => ?_) fun _ => ?_
  · exact meets_throw fun _ hs => ⟨hs, K.refused _⟩
  · exact meets_pure fun _ hs => hs
  · exact meets_pure fun _ hs => hs

theorem meets_removeOld (canceled : Nat → Bool) (steps polls : Nat) {old : List Row}
    (hold : ∀ r ∈ old, r ∈ given) : Meets (K.Halfway t u savepoint given)
      ((Script.removeOld t u canceled steps polls old).run u) (fun _ => K.Halfway t u savepoint given)
      fun fault s => K.At t s ∧ K.fine fault := by
  induction old generalizing steps polls with
  | nil => exact meets_pure fun _ hs => hs
  | cons r old ih =>
    obtain ⟨hfirst, hrest⟩ := List.forall_mem_cons.1 hold
    simp only [Script.removeOld, Script.run_bind, Script.run_step]
    refine Meets.bind ((safe_poll canceled _ _).fault fun _ _ h => ⟨h.1.toAt, h.2⟩) fun polls => ?_
    refine (meets_remove hfirst).bind fun _ => Meets.of_and fun hgood => ?_
    exact Meets.bind (meets_modify fun _ hs => hs.recorded fun _ => hgood) fun _ => ih _ _ hrest

theorem meets_addAllNew (canceled : Nat → Bool) (steps place : Nat) (rows : List Row) (polls : Nat)
    {new : List Row} (hnew : ∀ r ∈ new, K.good r) : Meets (K.Halfway t u savepoint [])
      ((Script.addAllNew t u savepoint canceled steps place rows polls new).run u) (fun _ => K.At t)
      fun fault s => K.At t s ∧ K.fine fault := by
  induction new generalizing steps place rows polls with
  | nil => exact meets_pure fun _ hs => hs.toAt
  | cons r new ih =>
    obtain ⟨hfirst, hrest⟩ := List.forall_mem_cons.1 hnew
    simp only [Script.addAllNew, Script.run_bind, Script.run_step, Script.run_addNew]
    refine Meets.bind ((safe_poll canceled _ _).fault fun _ _ h => ⟨h.1.toAt, h.2⟩) fun polls => ?_
    refine (meets_addNew hfirst).bind fun stored => ?_
    exact Meets.bind (meets_modify fun _ hs => hs.recorded (by simp)) fun _ => ih _ _ _ _ hrest

/-- Old rows are replaced by new ones that may be stored. -/
theorem meets_updateRows (canceled : Nat → Bool) {old new : List Row} (polls : Nat)
    (hnew : ∀ r ∈ new, K.good r) : Meets (fun s => K.At t s ∧ ∀ r ∈ old, K.Fed (s.table t).engine r)
      ((Script.updateRows t u canceled old new polls).run u) (fun _ => K.At t)
      fun fault s => K.At t s ∧ K.fine fault := by
  simp only [Script.updateRows, Script.run_bind, Script.run_step, bind_assoc, pure_bind]
  refine Meets.get_bind fun s hs => Meets.pre (P := K.Halfway t u (s.session u).position old) ?_ ?_
  · refine (meets_removeOld canceled 0 polls fun _ hr => hr).bind fun polls => ?_
    exact (meets_addAllNew canceled _ _ _ polls hnew).pre fun _ h => h.of_nil
  · rintro _ rfl
    exact hs.1.halfway hs.2

end Replacements

/-! ## Whole changes -/

section Changes

/-- The rows that are left to be written may be stored. -/
theorem Lasting.meets_prepare (hP : K.Lasting t u P) (fires : Bool) (pairs : List (Row × Row)) :
    Meets P (prepare t u fires pairs)
      (fun left s => P s ∧ left.map (·.1) ⊆ pairs.map (·.1) ∧ ∀ r ∈ left.map (·.2), K.good r)
      fun fault s => P s ∧ K.fine fault := by
  induction pairs with
  | nil => exact meets_pure fun s hs => ⟨hs, fun _ h => h, fun r hr => absurd hr List.not_mem_nil⟩
  | cons pair rest ih =>
    obtain ⟨old, new⟩ := pair
    have hfire (fitted : Row) : Safe P K.fine
        (if fires then fireBeforeRow t u (some old) (some fitted) else pure false) :=
      Meets.ite (fun _ => hP.safe_fireBeforeRow _ _) fun _ => meets_pure fun _ hs => hs
    rw [prepare_cons]
    refine (hP.meets_fitRow _).bind fun fitted => Meets.of_and fun hgood => ?_
    refine Meets.bind (hfire fitted.2) fun handled => ih.bind fun left => ?_
    refine meets_pure fun s hs => ⟨hs.1, ?_⟩
    cases handled with
    | true => exact ⟨List.subset_cons_of_subset _ hs.2.1, hs.2.2⟩
    | false => exact ⟨List.cons_subset_cons _ hs.2.1, List.forall_mem_cons.2 ⟨hgood, hs.2.2⟩⟩

theorem safe_insert (r : Row) : Safe (K.At t) K.fine (Draft.run (Store.insert t u) r) := by
  have hP := lasting_at K t u
  rw [← Script.run_insert]
  simp only [Script.insert, Script.run_bind, Script.run_beginChange, Script.run_step, Script.run_table,
    Script.run_fireBeforeRow, Script.run_fireAfterRow, Script.run_ite, Script.run_pure]
  refine Meets.bind hP.safe_beginChange fun _ => (hP.meets_fitRow r).bind fun fitted => ?_
  refine Meets.of_and fun hgood => (meets_look fun s : Store => s.table t).bind fun table => ?_
  refine Meets.bind (hP.safe_fireBeforeRow _ _) fun handled => Meets.ite (fun _ => ?_) fun _ => ?_
  · exact meets_pure fun _ hs => hs
  · refine Meets.bind (safe_addRow hgood) fun stored => ?_
    have hlog : Safe (K.At t) K.fine (log t u .inserted stored) := fun _ hs => hs.of_table rfl hs.numbers
    have hdone : Safe (K.At t) K.fine (pure (true, stored) : Action Store _) := meets_pure fun _ hs => hs
    refine Meets.bind hlog fun _ => Meets.ite (fun _ => ?_) fun _ => hdone
    exact Meets.bind (hP.safe_fireAfterRow _ _) fun _ => hdone

theorem safe_delete (r : Row) : Safe (K.At t) K.fine (Store.delete t u r) := by
  have hP := lasting_at K t u
  rw [← Script.run_delete]
  simp only [Script.delete, Script.run_bind, Script.run_beginChange, Script.run_step, Script.run_table,
    Script.run_fireBeforeRow, Script.run_fireAfterRow, Script.run_ite, Script.run_pure]
  refine Meets.bind hP.safe_beginChange fun _ => (meets_look fun s : Store => s.table t).bind fun table => ?_
  refine Meets.bind (hP.safe_fireBeforeRow _ _) fun handled => Meets.ite (fun _ => ?_) fun _ => ?_
  · exact meets_pure fun _ hs => hs
  · have hlog : Safe (K.At t) K.fine (log t u .deleted r) := fun _ hs => hs.of_table rfl hs.numbers
    have hdone : Safe (K.At t) K.fine (pure true : Action Store _) := meets_pure fun _ hs => hs
    refine Meets.bind (safe_removeRow r) fun _ => Meets.bind hlog fun _ => ?_
    refine Meets.ite (fun _ => ?_) fun _ => hdone
    exact Meets.bind (hP.safe_fireAfterRow _ _) fun _ => hdone

theorem lasting_fed (K : Upkeep) (t u : Nat) (given : List Row) :
    K.Lasting t u fun s => K.At t s ∧ ∀ r ∈ given, K.Fed (s.table t).engine r where
  order h := h.1
  same h hc hn := by
    refine ⟨h.1.of_table (table_eq_of_core hc t) hn, ?_⟩
    rw [table_eq_of_core hc t]
    exact h.2

theorem meets_update (canceled : Nat → Bool) (pairs : List (Row × Row)) :
    Meets (fun s => K.At t s ∧ ∀ r ∈ pairs.map (·.1), K.Fed (s.table t).engine r)
      (batchRun (Store.update t u canceled pairs) []) (fun _ => K.At t)
      fun fault s => K.At t s ∧ K.fine fault := by
  -- what is asked of the old rows lasts up to the replacement, and is not needed after it
  have hP := lasting_fed K t u (pairs.map (·.1))
  have hQ := lasting_at K t u
  rw [← Script.run_update]
  simp only [Script.update, Script.run_bind, Script.run_beginChange, Script.run_table, Script.run_prepare,
    Script.run_ite, Script.run_forM, Script.run_fireAfterRow, Script.run_pure]
  refine Meets.bind (hP.safe_beginChange.fault fun _ _ h => ⟨h.1.1, h.2⟩) fun _ =>
    (meets_look fun s : Store => s.table t).bind fun table => ?_
  refine Meets.bind ((hP.meets_prepare table.firesOnRows pairs).fault fun _ _ h => ⟨h.1.1, h.2⟩)
    fun pending => Meets.of_and fun hleft => ?_
  refine Meets.bind ((meets_updateRows canceled 0 hleft.2).pre ?_) fun done => ?_
  · exact fun s hs => ⟨hs.1, fun r hr => hs.2 r (hleft.1 hr)⟩
  · have hdone : Safe (K.At t) K.fine (pure pending.length : Action Store _) := meets_pure fun _ hs => hs
    refine Meets.ite (fun _ => ?_) fun _ => hdone
    exact Meets.bind (Meets.forM fun p _ => hQ.safe_fireAfterRow _ _) fun _ => hdone

end Changes

end Upkeep
end RowStore
