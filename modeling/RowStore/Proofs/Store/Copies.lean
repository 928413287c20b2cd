import RowStore.Proofs.Store.Upholding

/-!
# Calls that are given copies

* `Script.NeverRemoves` : no step of a script removes a row from a table, whatever comes of its steps;
  `never_of_keeps`, `never_add`, `never_undo` : steps that do not, and `never_beginChange`,
  `never_addAllNew` and so on for the parts of changes;
* `Script.Mindful` : while no other session acts, each row that a script removes is a copy of the stored
  one;
* `mindful_script` : so it is if a call is given copies of what is stored when it begins.
-/

namespace RowStore
open RowStore.Action RowStore.Store

def Store.holding (t : Nat) (key : RowKey) (r : Row) : Store :=
  ({} : Store).setEngine t { table := t, name := "", rows := (∅ : OrderedMap RowKey Row).insert key r }

theorem Store.row?_holding (t : Nat) (key : RowKey) (r : Row) :
    ((holding t key r).table t).engine.row? key = some r := by
  unfold holding
  rw [engine_setEngine]
  exact OrderedMap.find?_insert_self _ _ _

/-- The row of a table is gone once it is removed. -/
theorem Store.row?_removed {t : Nat} {key : RowKey} {r : Row} (h : r.key = some key) :
    ((final (onTable t (Table.removeRow r)) (holding t key r)).table t).engine.row? key = none := by
  have hdone : Engine.removeRow r ((holding t key r).table t).engine =
      .ok () (((holding t key r).table t).engine.withoutRow key []) := by
    refine Engine.removeRow_eq_ok.2 ⟨key, r, [], h, row?_holding t key r, ?_, rfl⟩
    unfold holding
    rw [engine_setEngine]
    exact .nil
  rw [onTable_removeRow, final_onEngine, final_of_ok hdone, engine_setEngine]
  exact OrderedMap.find?_erase_self _ _

theorem Engine.isCopy_iff {e : Engine} {r : Row} : e.IsCopy r ↔ ∀ stored ∈ r.key.bind e.row?, r = stored := by
  constructor
  · intro h stored hstored
    obtain ⟨key, hkey, hrow⟩ := Option.bind_eq_some_iff.1 hstored
    exact h key stored hkey hrow
  · intro h key stored hkey hrow
    exact h stored (Option.bind_eq_some_iff.2 ⟨key, hkey, hrow⟩)

instance (e : Engine) (r : Row) : Decidable (e.IsCopy r) := decidable_of_iff _ Engine.isCopy_iff.symm

/-- The rows of a table that a call is given to remove are copies of those that are stored. -/
def Call.OnCopies (call : Call) (t : Nat) (s : Store) : Prop :=
  call.target? = some t → ∀ r ∈ call.oldRows, (s.table t).engine.IsCopy r

instance (call : Call) (t : Nat) (s : Store) : Decidable (call.OnCopies t s) :=
  inferInstanceAs (Decidable (_ → _))

namespace Script
variable {α β γ : Type} {t t' u v : Nat} {given : List Row} {r : Row} {s : Store}

/-! ## Steps that remove no row -/

/-- No step of the script removes a row from the table that could be stored there. -/
def NeverRemoves (t : Nat) : Script α → Prop
  | done _ | fail _ => True
  | act a next => (∀ r key next', r.key = some key →
      act a next ≠ act (onTable t (Table.removeRow r)) next') ∧ ∀ came, (next came).NeverRemoves t
  | lock _ _ _ next => ∀ came, (next came).NeverRemoves t

theorem NeverRemoves.removesCopies {x : Script α} (h : x.NeverRemoves t) :
    x.RemovesCopies t given s := by
  rintro r - next rfl key stored hkey -
  exact absurd rfl (h.1 r key next hkey)

theorem NeverRemoves.bind {x : Script α} {f : α → Script β} (h : x.NeverRemoves t)
    (hf : ∀ a, (f a).NeverRemoves t) : (x >>= f).NeverRemoves t := by
  change (x.bind f).NeverRemoves t
  induction x with
  | done a => exact hf a
  | fail fault => trivial
  | act a next ih =>
    refine ⟨fun r key next' hkey he => ?_, fun came => ih came (h.2 came)⟩
    cases he
    exact h.1 r key _ hkey rfl
  | lock t' exclusive force next ih => exact fun came => ih came (h came)

theorem NeverRemoves.forM {f : β → Script Unit} {xs : List β} (hf : ∀ x, (f x).NeverRemoves t) :
    (xs.forM f).NeverRemoves t := by
  induction xs with
  | nil => trivial
  | cons x xs ih => exact (hf x).bind fun _ => ih

/-- An action that leaves a table as it is removes nothing from it: it would remove a row where that is
stored. -/
theorem never_of_keeps {a : Action Store β} {next : Except Fault β → Script α}
    (ha : Keeps (·.table t) a) (hnext : ∀ came, (next came).NeverRemoves t) :
    (act a next).NeverRemoves t := by
  refine ⟨fun r key next' hkey he => ?_, hnext⟩
  cases he
  have hgone := row?_removed (t := t) hkey
  rw [show (final _ (holding t key r)).table t = _ from ha (holding t key r), row?_holding] at hgone
  cases hgone

/-- An action that may yield one thing or another is not one that yields nothing. -/
theorem never_of_ne {a : Action Store β} {next : Except Fault β → Script α} {x y : β} (hne : x ≠ y)
    (hnext : ∀ came, (next came).NeverRemoves t) : (act a next).NeverRemoves t := by
  refine ⟨fun r key next' hkey he => ?_, hnext⟩
  have htype : β = Unit := by injection he
  subst htype
  exact hne rfl

theorem never_ofResult (came : Except Fault α) : (ofResult came).NeverRemoves t := by
  cases came <;> trivial

theorem Quiet.neverRemoves {P : α → Prop} {x : Script α} (h : x.Quiet t' u P) : x.NeverRemoves t := by
  induction x with
  | done a => trivial
  | fail fault => trivial
  | act a next ih =>
    exact never_of_keeps (fun s => table_eq_of_core (h.2.1 s) t) fun came => ih came (h.2.2 came)
  | lock => exact h.elim

theorem never_after {p : Prop} [Decidable p] {x : Script Unit} (a : α) (hx : x.NeverRemoves t) :
    (if p then x >>= fun _ => pure a else pure a).NeverRemoves t := by
  split
  · exact hx.bind fun _ => trivial
  · trivial

theorem never_beginChange (t' : Nat) : (beginChange t').NeverRemoves t := by
  have hcheck : (step checkWriting).NeverRemoves t :=
    never_of_keeps (fun s => table_eq_of_core (u := 0) (keeps_checkWriting s) t) never_ofResult
  exact hcheck.bind fun _ => never_ofResult

theorem never_log (t' u : Nat) (op : UndoOp) (r : Row) : (step (log t' u op r)).NeverRemoves t :=
  never_of_keeps (fun _ => rfl) never_ofResult

/-- A detached session takes back nothing, but still may remove rows. -/
theorem never_undo (u : Nat) (record : UndoRecord) : (step (undo u record)).NeverRemoves t := by
  refine ⟨fun r key next' hkey he => ?_, never_ofResult⟩
  injection he with _ hact
  let s : Store := { detached := [u] }
  have hback : undo u record s =
      .error (.error (.internal ("no engine registered for table " ++ toString record.table))) s := by
    unfold undo
    rw [get_bind, if_pos]
    · rfl
    · simp [s]
  have hmissing : Engine.removeRow r (s.table t).engine =
      .error (.error (.rowNotFound (s.table t).engine.name)) (s.table t).engine :=
    Engine.removeRow_of_missing fun _ _ => rfl
  rw [hact, onTable_removeRow, onEngine_of_error hmissing] at hback
  cases hback

theorem never_rollbackTo (u savepoint : Nat) : (rollbackTo u savepoint).NeverRemoves t := by
  unfold rollbackTo
  refine NeverRemoves.bind ?_ fun _ => NeverRemoves.forM fun record => never_undo u record
  exact never_of_ne (List.cons_ne_nil ⟨t, .inserted, ⟨none, []⟩⟩ []) never_ofResult

theorem never_retreat (t' u savepoint : Nat) (fault : Fault) :
    (retreat t' u savepoint fault).NeverRemoves t := by
  unfold retreat
  split
  · have hnote (table : String) : (step do
        note (.updateUndone ((← get).table t').name savepoint (.concurrentUpdate table)) :
          Script Unit).NeverRemoves t := never_of_keeps (fun _ => rfl) never_ofResult
    exact (hnote _).bind fun _ => never_rollbackTo u savepoint
  · trivial

theorem never_addNew (t' u savepoint : Nat) (r : Row) :
    (addNew t' u savepoint r).NeverRemoves t := by
  refine never_of_ne (x := ⟨none, []⟩) (y := ⟨some 0, []⟩) (by decide) fun came => ?_
  cases came with
  | ok stored => trivial
  | error fault => exact (never_retreat t' u savepoint fault).bind fun _ => trivial

theorem never_addAllNew (t' u savepoint : Nat) (canceled : Nat → Bool) (steps place : Nat)
    (rows : List Row) (polls : Nat) (new : List Row) :
    (addAllNew t' u savepoint canceled steps place rows polls new).NeverRemoves t := by
  induction new generalizing steps place rows polls with
  | nil => trivial
  | cons r new ih =>
    have hpoll := (quiet_poll (t := t') (u := u) canceled (steps + 1) polls).neverRemoves (t := t)
    refine hpoll.bind fun polls => (never_addNew t' u savepoint r).bind fun stored => ?_
    exact (never_log t' u .inserted stored).bind fun _ => ih _ _ _ _

/-! ## Calls that no other session disturbs -/

/-- While no other session acts, the rows that the script removes from a table, of those given, are copies
of the stored ones. -/
def Mindful (u t : Nat) (given : List Row) : Script α → Store → Prop
  | done _, _ | fail _, _ => True
  | act a next, s => (act a next).RemovesCopies t given s ∧
    (next (result a s)).Mindful u t given (final a s)
  | lock t' exclusive force next, s => (next (result (Store.lock t' u exclusive force) s)).Mindful
    u t given (final (Store.lock t' u exclusive force) s)

theorem NeverRemoves.mindful {x : Script α} (h : x.NeverRemoves t) : x.Mindful u t given s := by
  induction x generalizing s with
  | done a => trivial
  | fail fault => trivial
  | act a next ih => exact ⟨h.removesCopies, ih _ (h.2 _)⟩
  | lock t' exclusive force next ih => exact ih _ (h _)

theorem Mindful.bind {x : Script α} {f : α → Script β} (h : x.Mindful u t given s)
    (hf : ∀ a s', x.run u s = .ok a s' → (f a).Mindful u t given s') :
    (x >>= f).Mindful u t given s := by
  change (x.bind f).Mindful u t given s
  induction x generalizing s with
  | done a => exact hf a s rfl
  | fail fault => trivial
  | act a next ih =>
    refine ⟨fun r hr next' he => ?_, ih _ h.2 hf⟩
    cases he
    exact h.1 r hr _ rfl
  | lock t' exclusive force next ih => exact ih _ h hf

theorem mindful_nil (x : Script α) : x.Mindful u t [] s := by
  induction x generalizing s with
  | done a => trivial
  | fail fault => trivial
  | act a next ih => exact ⟨fun r hr => absurd hr List.not_mem_nil, ih _⟩
  | lock t' exclusive force next ih => exact ih _

theorem Quiet.keeps_run {P : α → Prop} {x : Script α} (h : x.Quiet t' u P) :
    Keeps (core u) (x.run u) := by
  induction x with
  | done a => exact fun _ => rfl
  | fail fault => exact fun _ => rfl
  | act a next ih => exact fun s => (ih _ (h.2.2 _) (final a s)).trans (h.2.1 s)
  | lock => exact h.elim

section Changes
variable {f : α → Script β}

/-- What is given to be removed from a table are copies of the rows stored there. -/
def Copied (t' t : Nat) (given : List Row) (s : Store) : Prop :=
  t' = t → ∀ r ∈ given, (s.table t).engine.IsCopy r

theorem Copied.of_core {s' : Store} (h : Copied t' t given s) (hc : s'.core u = s.core u) :
    Copied t' t given s' := fun ht => table_eq_of_core hc t ▸ h ht

theorem mindful_quiet {P : α → Prop} {x : Script α} (hc : Copied t' t given s) (hx : x.Quiet t' u P)
    (hf : ∀ a s', Copied t' t given s' → (f a).Mindful u t given s') :
    (x >>= f).Mindful u t given s :=
  hx.neverRemoves.mindful.bind fun a s' h => hf a s' (hc.of_core (hx.keeps_run.of_ok h))

theorem mindful_beginChange {f : Unit → Script β} (hc : Copied t' t given s)
    (hf : ∀ s', Copied t' t given s' → (f ()).Mindful u t given s') :
    (beginChange t' >>= f).Mindful u t given s := by
  refine (never_beginChange t').mindful.bind fun _ s' h => hf s' (hc.of_core (u := u) ?_)
  rw [run_beginChange] at h
  exact (keeps_beginChange t' u).of_ok h

/-- A copy of a row is removed; the others are copies still. -/
theorem mindful_remove {f : Unit → Script β} (hc : Copied t' t given s)
    (hf : ∀ s', Copied t' t given s' → (f ()).Mindful u t given s') :
    (step (onTable t' (Table.removeRow r)) >>= f).Mindful u t given s := by
  obtain ⟨e, hend, hrows⟩ := final_removeRow t' r s
  have hstep : (step (onTable t' (Table.removeRow r))).Mindful u t given s := by
    refine ⟨?_, (never_ofResult _).mindful⟩
    by_cases ht : t' = t
    · exact fun x hx _ _ => hc ht x hx
    · refine (never_of_keeps (fun b => ?_) never_ofResult).removesCopies
      obtain ⟨e, hend, -⟩ := final_removeRow t' r b
      rw [hend]
      exact table_setEngine_of_ne b (Ne.symm ht) e
  refine hstep.bind fun _ s' h => hf s' fun ht x hx key stored hkey hstored => ?_
  rw [run_step] at h
  rw [← final_of_ok h, hend, ht, engine_setEngine] at hstored
  subst ht
  exact hc rfl x hx key stored hkey (hrows key stored hstored)

theorem mindful_removeOld (canceled : Nat → Bool) (steps polls : Nat) (old : List Row)
    (hc : Copied t' t given s) : (removeOld t' u canceled steps polls old).Mindful u t given s := by
  induction old generalizing s steps polls with
  | nil => trivial
  | cons r old ih =>
    refine mindful_quiet hc (quiet_poll canceled _ _) fun polls s₁ hc₁ => ?_
    refine mindful_remove hc₁ fun s₂ hc₂ => (never_log t' u .deleted r).mindful.bind fun _ s₃ h => ?_
    cases h
    exact ih _ _ hc₂

theorem mindful_delete (r : Row) (hc : Copied t' t given s) :
    (delete t' u r).Mindful u t given s := by
  refine mindful_beginChange hc fun s₁ hc₁ => mindful_quiet hc₁ (quiet_table t') fun table s₂ hc₂ => ?_
  refine mindful_quiet hc₂ (quiet_fireBeforeRow _ _) fun handled s₃ hc₃ => ?_
  split
  · trivial
  · refine mindful_remove hc₃ fun s₄ _ => NeverRemoves.mindful ?_
    refine (never_log t' u .deleted r).bind fun _ => never_after true ?_
    exact (quiet_fireAfterRow (t := t') (u := u) _ _).neverRemoves

theorem mindful_update (canceled : Nat → Bool) (pairs : List (Row × Row))
    (hc : Copied t' t given s) : (update t' u canceled pairs).Mindful u t given s := by
  refine mindful_beginChange hc fun s₁ hc₁ => mindful_quiet hc₁ (quiet_table t') fun table s₂ hc₂ => ?_
  refine mindful_quiet hc₂ (quiet_prepare _ pairs) fun pending s₃ hc₃ => ?_
  have hposition : (step do return ((← get).session u).position : Script Nat).Quiet t' u Any :=
    quiet_step (fun _ => rfl) fun _ => rfl
  refine Mindful.bind ?_ fun done s₄ _ => (never_after pending.length ?_).mindful
  · refine mindful_quiet hc₃ hposition fun savepoint s₄ hc₄ => ?_
    refine (mindful_removeOld canceled 0 0 _ hc₄).bind fun polls s₅ _ => ?_
    exact (never_addAllNew t' u savepoint canceled _ _ _ _ _).mindful
  · refine NeverRemoves.forM fun p => ?_
    exact (quiet_fireAfterRow (t := t') (u := u) _ _).neverRemoves

end Changes

/-- A call that is given copies of what is stored when it begins removes copies only, as long as no other
session acts. -/
theorem mindful_script {call : Call} (h : call.OnCopies t s) :
    (call.script u).Mindful u t call.oldRows s := by
  cases call with
  | lock t' exclusive force => exact mindful_nil _
  | insert t' r => exact mindful_nil _
  | delete t' r =>
    have hc : Copied t' t [r] s := fun ht => h (congrArg some ht)
    exact (mindful_delete r hc).bind fun _ _ _ => trivial
  | update t' canceled pairs =>
    have hc : Copied t' t (pairs.map (·.1)) s := fun ht => h (congrArg some ht)
    exact (mindful_update canceled pairs hc).bind fun _ _ _ => trivial

end Script

end RowStore
