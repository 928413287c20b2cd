import RowStore.Proofs.Store.Demand
import RowStore.Proofs.Store.Told

/-!
# Calls uphold what is asked of rows

* `Script.Leads` : each step of a script upholds a demand, whatever others do between the steps as long
  as they uphold it too;
* `leads_fitRow`, `leads_fireBeforeRow`, `leads_remove`, `leads_rollbackTo`, `leads_updateRows` and so
  on : the parts of the changes;
* `leads_script` : every call.
-/

namespace RowStore
open RowStore.Action RowStore.Store

namespace Script
variable {α β : Type} {D : Demand} {P : α → Store → Prop} {Q : β → Store → Prop} {s s' : Store}
  {t u : Nat} {r : Row} {given : List Row}

/-- Each step of the script upholds a demand, whatever others do before it as long as they uphold it
too.  What the script yields is as `P` says.  A step that is to remove one of the given rows counts only
where that is a copy of the stored one. -/
def Leads (D : Demand) (given : List Row) (P : α → Store → Prop) : Script α → Store → Prop
  | done a, s => P a s
  | fail _, _ => True
  | act a next, s => ∀ s', s.Onward D.table s' → D.Upheld s' →
    (act a next).RemovesCopies D.table given s' →
      D.Upholds s' (final a s') ∧ (next (result a s')).Leads D given P (final a s')
  | lock _ _ _ next, s => ∀ r, (next r).Leads D given P s

theorem Leads.bind {x : Script α} {f : α → Script β} (h : x.Leads D given P s)
    (hf : ∀ a s', s.Onward D.table s' → P a s' → (f a).Leads D given Q s') : (x >>= f).Leads D given Q s := by
  change (x.bind f).Leads D given Q s
  induction x generalizing s with
  | done a => exact hf a s (.refl _ _) h
  | fail fault => trivial
  | act a next ih =>
    intro s' ho hu hc
    obtain ⟨hstep, hnext⟩ := h s' ho hu hc.of_bind
    refine ⟨hstep, ih _ hnext fun b s'' ho' => hf b s'' ?_⟩
    exact (ho.trans hstep.onward).trans ho'
  | lock t' exclusive force next ih => exact fun came => ih came (h came) hf

/-- What is upheld from a store on is upheld from a later one on. -/
theorem Leads.later {x : Script α} (h : x.Leads D given P s) (ho : s.Onward D.table s')
    (hP : ∀ a, P a s → P a s') : x.Leads D given P s' := by
  induction x with
  | done a => exact hP a h
  | fail fault => trivial
  | act a next => exact fun b ho' => h b (ho.trans ho')
  | lock t' exclusive force next ih => exact fun came => ih came (h came)

theorem Leads.mono {P' : α → Store → Prop} {x : Script α} (h : x.Leads D given P s)
    (hP : ∀ a s', P a s' → P' a s') : x.Leads D given P' s := by
  induction x generalizing s with
  | done a => exact hP a s h
  | fail fault => trivial
  | act a next ih =>
    intro b ho hu hc
    obtain ⟨hstep, hnext⟩ := h b ho hu hc
    exact ⟨hstep, ih _ hnext⟩
  | lock t' exclusive force next ih => exact fun came => ih came (h came)

theorem leads_ite {p : Prop} [Decidable p] {x y : Script α} (hx : p → x.Leads D given P s)
    (hy : ¬ p → y.Leads D given P s) : (if p then x else y).Leads D given P s := by
  split
  · exact hx ‹_›
  · exact hy ‹_›

/-- A step that is done or refused where it stands. -/
theorem leads_step {a : Action Store α}
    (ha : ∀ b, s.Onward D.table b → D.Upheld b →
      (step a).RemovesCopies D.table given b →
      D.Upholds b (final a b) ∧ ∀ x, a b = .ok x (final a b) → P x (final a b)) :
    (step a).Leads D given P s := by
  intro b ho hu hc
  obtain ⟨hstep, hyield⟩ := ha b ho hu hc
  refine ⟨hstep, ?_⟩
  cases h : a b with
  | error fault b' =>
    rw [result_of_error h]
    trivial
  | ok x b' =>
    rw [result_of_ok h]
    exact hyield x (h.trans (congrArg _ (final_of_ok h).symm))

/-- A step that leaves rows and logs alone. -/
theorem leads_gentle {a : Action Store α} (hg : ∀ b : Store, b.Gentle (final a b))
    (hP : ∀ (b : Store) (x : α), s.Onward D.table b → D.Upheld b → a b = .ok x (final a b) →
      P x (final a b)) : (step a).Leads D given P s :=
  leads_step fun b ho hu _ => ⟨hu.gentle (hg b), fun x => hP b x ho hu⟩

def Whatever (_ : α) (_ : Store) : Prop := True

theorem leads_forM {f : α → Script Unit} {P : α → Prop} {xs : List α}
    (h : ∀ x ∈ xs, ∀ s', s.Onward D.table s' → (f x).Leads D given (fun _ _ => P x) s') :
    (xs.forM f).Leads D given (fun _ _ => ∀ x ∈ xs, P x) s := by
  induction xs generalizing s with
  | nil => exact fun x hx => absurd hx List.not_mem_nil
  | cons x xs ih =>
    refine (h x List.mem_cons_self s (.refl _ _)).bind fun _ s' ho hx => ?_
    refine (ih fun y hy b hb => h y (List.mem_cons_of_mem _ hy) b (ho.trans hb)).mono fun _ _ hxs => ?_
    exact List.forall_mem_cons.2 ⟨hx, hxs⟩

/-! ## What surrounds a change -/

section Surroundings
variable {before : Bool} {old new : Option Row}

theorem leads_table (t : Nat) : (table t).Leads D given (fun table _ => t = D.table →
    table.constraints = (D.start.table D.table).constraints) s := by
  refine leads_gentle (fun b => .refl b) fun b table _ hu h ht => ?_
  cases h
  subst ht
  exact hu.onward.constraints

theorem leads_fireUntilHandled (rollback : Bool) (triggers : List Trigger) :
    (fireUntilHandled old new rollback triggers).Leads D given Whatever s := by
  induction triggers generalizing s with
  | nil => trivial
  | cons trigger rest ih =>
    have hfire : (step (onFired (trigger.fireRow old new rollback))).Leads D given Whatever s :=
      leads_gentle (gentle_onFired _) fun _ _ _ _ _ => trivial
    exact hfire.bind fun handled _ _ _ => leads_ite (fun _ => trivial) fun _ => ih

theorem leads_fireTriggers (t : Nat) (before : Bool) (old new : Option Row) (rollback : Bool) :
    (fireTriggers t before old new rollback).Leads D given Whatever s :=
  (leads_table t).bind fun _ _ _ _ => leads_fireUntilHandled rollback _

/-- A row that is checked before a change is not condemned. -/
theorem leads_checkConstraints (t u : Nat) (before : Bool) (old new : Option Row) :
    (checkConstraints t u before old new).Leads D given (fun _ _ => t = D.table → before = true →
      ∀ r, new = some r → (D.start.table D.table).Passes r) s := by
  refine (leads_table t).bind fun table s' _ htable => ?_
  refine (leads_forM (P := fun c => ∀ r, new = some r → ¬ c.Condemns r) fun c _ b _ => ?_).mono
    fun _ _ hall ht hbefore r hr c hc hcond => ?_
  · refine leads_gentle (gentle_checkRow c _ old new u) fun b' _ _ _ h r hr => ?_
    subst hr
    exact not_condemns_of_checked h
  · rw [← htable ht] at hc
    obtain ⟨e, columns, hrule, hc', hfree, hfalse⟩ := hcond
    refine hall c (List.mem_filter.2 ⟨hc, ?_⟩) r hr ⟨e, columns, hrule, hc', hfree, hfalse⟩
    rw [hc', hbefore]
    rfl

/-- A row that goes on to be stored is not condemned. -/
theorem leads_fireBeforeRow (t u : Nat) (old new : Option Row) :
    (fireBeforeRow t u old new).Leads D given (fun handled _ => handled = false → t = D.table →
      ∀ r, new = some r → (D.start.table D.table).Passes r) s := by
  refine (leads_fireTriggers t true old new false).bind fun handled s' _ _ => ?_
  cases handled with
  | true => exact fun h => nomatch h
  | false => exact (leads_checkConstraints t u true old new).bind fun _ _ _ h _ ht => h ht rfl

theorem leads_fireAfterRow (t u : Nat) (old new : Option Row) :
    (fireAfterRow t u old new).Leads D given Whatever s :=
  (leads_fireTriggers t false old new false).bind fun _ _ _ _ =>
    (leads_checkConstraints t u false old new).mono fun _ _ _ => trivial

theorem leads_fitRow (t u : Nat) (r : Row) : (step (Draft.run (fitRow t u) r)).Leads D given
    (fun fitted s' => t = D.table → (D.start.table D.table).Passes fitted.2 → D.good s' fitted.2) s := by
  refine leads_gentle (gentle_fitRow t u r) fun b fitted _ hu h ht hp => ?_
  subst ht
  exact D.written hu.onward h hp

theorem leads_beginChange (t : Nat) : (beginChange t).Leads D given Whatever s := by
  refine (leads_gentle gentle_checkWriting fun _ _ _ _ _ => trivial : (step checkWriting).Leads D given
    Whatever s).bind fun _ _ _ _ came => ?_
  cases came <;> trivial

theorem leads_poll (canceled : Nat → Bool) (steps polls : Nat) :
    (poll canceled steps polls).Leads D given Whatever s :=
  leads_ite (fun _ => leads_ite (fun _ => trivial) fun _ => trivial) fun _ => trivial

end Surroundings

/-! ## Rows and logs -/

section Rows

theorem leads_add (hr : t = D.table → D.good s r) :
    (step (onTable t (Table.addRow r))).Leads D given Whatever s :=
  leads_step fun _ ho hu _ => ⟨hu.add fun ht => D.lasts ho (hr ht), fun _ _ => trivial⟩

/-- A row that was removed was stored, and is as it should be. -/
theorem leads_remove (t : Nat) (hr : r ∈ given) : (step (onTable t (Table.removeRow r))).Leads D given
    (fun _ s' => t = D.table → D.good s' r) s := by
  refine leads_step fun b _ hu hc => ⟨hu.remove t r, fun _ hdone ht => ?_⟩
  subst ht
  obtain ⟨key, stored, hkey, hstored⟩ := stored_of_removed hdone
  obtain rfl : r = stored := hc r hr _ rfl key stored hkey hstored
  exact D.lasts (hu.remove D.table r).onward (hu.stored key r hstored)

theorem leads_log {op : UndoOp} (hr : t = D.table → op = .deleted → D.good s r) (u : Nat) :
    (step (log t u op r)).Leads D given Whatever s :=
  leads_step fun _ ho hu _ =>
    ⟨hu.recorded (fun ht hop => D.lasts ho (hr ht hop)) u, fun _ _ => trivial⟩

theorem leads_undo {record : UndoRecord}
    (hr : record.table = D.table → record.op = .deleted → D.good s record.row) (u : Nat) :
    (step (undo u record)).Leads D given Whatever s :=
  leads_step fun _ ho hu _ =>
    ⟨hu.undo (fun ht hop => D.lasts ho (hr ht hop)) u, fun _ _ => trivial⟩

/-- A session that goes back puts back rows that are as they should be. -/
theorem leads_rollbackTo {savepoint : Nat} (hn : D.floor u ≤ savepoint) :
    (rollbackTo u savepoint).Leads D given Whatever s := by
  unfold rollbackTo
  refine Leads.bind (P := fun undone s' => ∀ record ∈ undone, record.table = D.table →
    record.op = .deleted → D.good s' record.row) (leads_step fun b _ hu _ => ?_) fun undone s' _ hundone => ?_
  · refine ⟨hu.cut hn, fun undone h record hr ht hop => ?_⟩
    cases h
    exact D.lasts (hu.cut hn).onward (hu.undone hn hr ht hop)
  refine (leads_forM (P := fun _ => True) fun record hr b ho => ?_).mono fun _ _ _ => trivial
  exact (leads_undo (fun ht hop =>
    D.lasts ho (hundone record (List.mem_reverse.1 hr) ht hop)) u).mono fun _ _ _ => trivial

theorem leads_retreat {savepoint : Nat} (hn : D.floor u ≤ savepoint) (t : Nat) (fault : Fault) :
    (retreat t u savepoint fault).Leads D given Whatever s := by
  unfold retreat
  split
  · have hnote (table : String) : (step do
        note (.updateUndone ((← get).table t).name savepoint (.concurrentUpdate table)) :
          Script Unit).Leads D given Whatever s :=
      leads_gentle (fun b => gentle_note _ b) fun _ _ _ _ _ => trivial
    exact (hnote _).bind fun _ _ _ _ => leads_rollbackTo hn
  · trivial

theorem leads_addNew {savepoint : Nat} (hn : D.floor u ≤ savepoint) (hr : t = D.table → D.good s r) :
    (addNew t u savepoint r).Leads D given Whatever s := by
  intro b ho hu _
  refine ⟨hu.add fun ht => D.lasts ho (hr ht), ?_⟩
  cases result (onTable t (Table.addRow r)) b with
  | ok stored => trivial
  | error fault => exact (leads_retreat hn t fault).bind fun _ _ _ _ => trivial

theorem leads_removeOld (t u : Nat) (canceled : Nat → Bool) (steps polls : Nat) {old : List Row}
    (hold : ∀ r ∈ old, r ∈ given) :
    (removeOld t u canceled steps polls old).Leads D given Whatever s := by
  induction old generalizing s steps polls with
  | nil => trivial
  | cons r old ih =>
    obtain ⟨hfirst, hrest⟩ := List.forall_mem_cons.1 hold
    refine (leads_poll canceled _ _).bind fun polls s₁ _ _ => ?_
    refine (leads_remove t hfirst).bind fun _ s₂ _ hr => ?_
    exact (leads_log (fun ht _ => hr ht) u).bind fun _ _ _ _ => ih _ _ hrest

theorem leads_addAllNew {savepoint : Nat} (hn : D.floor u ≤ savepoint) (canceled : Nat → Bool)
    (steps place : Nat) (rows : List Row) (polls : Nat) {new : List Row}
    (hr : t = D.table → ∀ r ∈ new, D.good s r) :
    (addAllNew t u savepoint canceled steps place rows polls new).Leads D given Whatever s := by
  induction new generalizing s steps place rows polls with
  | nil => trivial
  | cons r new ih =>
    refine (leads_poll canceled _ _).bind fun polls s₁ ho₁ _ => ?_
    refine (leads_addNew hn fun ht => D.lasts ho₁ (hr ht r List.mem_cons_self)).bind
      fun stored s₂ ho₂ _ => ?_
    have hlog : (step (log t u .inserted stored)).Leads D given Whatever s₂ := leads_log (by simp) u
    refine hlog.bind fun _ s₃ ho₃ _ => ih _ _ _ _ fun ht x hx => ?_
    exact D.lasts ((ho₁.trans ho₂).trans ho₃) (hr ht x (List.mem_cons_of_mem _ hx))

theorem leads_updateRows (canceled : Nat → Bool) {old rows : List Row} (polls : Nat)
    (hold : ∀ r ∈ old, r ∈ given) (hr : t = D.table → ∀ r ∈ rows, D.good s r) :
    (updateRows t u canceled old rows polls).Leads D given Whatever s := by
  have hposition : (step do return ((← get).session u).position : Script Nat).Leads D given
      (fun savepoint _ => D.floor u ≤ savepoint) s := by
    refine leads_gentle (fun b => .refl b) fun b savepoint _ hu h => ?_
    cases h
    exact hu.deep u
  refine hposition.bind fun savepoint s₁ ho₁ hn => ?_
  refine (leads_removeOld t u canceled 0 polls hold).bind fun polls s₂ ho₂ _ => ?_
  exact leads_addAllNew hn canceled _ _ _ _ fun ht r hmem => D.lasts (ho₁.trans ho₂) (hr ht r hmem)

end Rows

/-! ## Whole calls -/

section Calls

theorem passes_of_idle {table : Table} (h : table.constraints = (D.start.table D.table).constraints)
    (hf : table.firesOnRows = false) (r : Row) : (D.start.table D.table).Passes r := by
  intro c hc
  have hnone : table.constraints = [] := by
    unfold Table.firesOnRows at hf
    simp at hf
    exact hf.1
  rw [← h, hnone] at hc
  cases hc

/-- The rows that are left of those to be written are as they should be. -/
theorem leads_prepare (t u : Nat) {fires : Bool}
    (hf : fires = false → t = D.table → ∀ r, (D.start.table D.table).Passes r)
    (pairs : List (Row × Row)) : (prepare t u fires pairs).Leads D given
      (fun left s' => left.map (·.1) ⊆ pairs.map (·.1) ∧
        (t = D.table → ∀ r ∈ left.map (·.2), D.good s' r)) s := by
  induction pairs generalizing s with
  | nil => exact ⟨fun _ h => h, fun _ r hr => absurd hr List.not_mem_nil⟩
  | cons pair rest ih =>
    obtain ⟨old, new⟩ := pair
    refine (leads_fitRow t u _).bind fun fitted s₁ _ hfit => ?_
    have hrest (handled : Bool) (s₂ : Store) (ho₂ : s₁.Onward D.table s₂)
        (hp : handled = false → t = D.table → (D.start.table D.table).Passes fitted.2) : (do
          let left ← prepare t u fires rest
          pure (if handled then left else (old, fitted.2) :: left) : Script (List (Row × Row))).Leads D given
            (fun left s' => left.map (·.1) ⊆ ((old, new) :: rest).map (·.1) ∧
              (t = D.table → ∀ r ∈ left.map (·.2), D.good s' r)) s₂ := by
      refine (ih (s := s₂)).bind fun left s₃ ho₃ hleft => ?_
      obtain ⟨hold, hgood⟩ := hleft
      cases handled with
      | true => exact ⟨List.subset_cons_of_subset _ hold, hgood⟩
      | false =>
        refine ⟨List.cons_subset_cons _ hold, fun ht => List.forall_mem_cons.2 ⟨?_, hgood ht⟩⟩
        exact D.lasts (ho₂.trans ho₃) (hfit ht (hp rfl ht))
    cases fires with
    | true =>
      refine (leads_fireBeforeRow t u _ _).bind fun handled s₂ ho₂ hp => hrest handled s₂ ho₂ ?_
      exact fun hh ht => hp hh ht _ rfl
    | false => exact hrest false s₁ (.refl _ _) fun _ ht => hf rfl ht _

theorem leads_insert (t u : Nat) (r : Row) : (insert t u r).Leads D given Whatever s := by
  refine (leads_beginChange t).bind fun _ s₁ _ _ => ?_
  refine (leads_fitRow t u r).bind fun fitted s₂ _ hfit => ?_
  refine (leads_table t).bind fun table s₃ ho₃ htable => ?_
  refine (leads_fireBeforeRow t u _ _).bind fun handled s₄ ho₄ hp => leads_ite (fun _ => trivial) ?_
  intro hopen
  have hgood : t = D.table → D.good s₄ fitted.2 := by
    intro ht
    refine D.lasts (ho₃.trans ho₄) (hfit ht ?_)
    cases hf : table.firesOnRows with
    | false => exact passes_of_idle (htable ht) hf _
    | true => exact hp (by simpa [hf] using hopen) ht _ rfl
  refine (leads_add hgood).bind fun stored s₅ _ _ => ?_
  have hlog : (step (log t u .inserted stored)).Leads D given Whatever s₅ := leads_log (by simp) u
  refine hlog.bind fun _ s₆ _ _ => leads_ite (fun _ => ?_) fun _ => trivial
  exact (leads_fireAfterRow t u _ _).bind fun _ _ _ _ => trivial

theorem leads_delete (t u : Nat) (hr : r ∈ given) : (delete t u r).Leads D given Whatever s := by
  refine (leads_beginChange t).bind fun _ s₁ _ _ => (leads_table t).bind fun table s₂ _ _ => ?_
  refine (leads_fireBeforeRow t u _ _).bind fun handled s₃ _ _ => leads_ite (fun _ => trivial) ?_
  intro _
  refine (leads_remove t hr).bind fun _ s₄ _ hgood => (leads_log (fun ht _ => hgood ht) u).bind ?_
  intro _ s₅ _ _
  refine leads_ite (fun _ => ?_) fun _ => trivial
  exact (leads_fireAfterRow t u _ _).bind fun _ _ _ _ => trivial

theorem leads_update (t u : Nat) (canceled : Nat → Bool) {pairs : List (Row × Row)}
    (hold : ∀ r ∈ pairs.map (·.1), r ∈ given) :
    (update t u canceled pairs).Leads D given Whatever s := by
  refine (leads_beginChange t).bind fun _ s₁ _ _ => ?_
  refine (leads_table t).bind fun table s₂ _ htable => ?_
  refine (leads_prepare t u (fun hf ht => passes_of_idle (htable ht) hf) pairs).bind
    fun pending s₃ _ hpending => ?_
  refine (leads_updateRows canceled 0 (fun r hr => hold r (hpending.1 hr)) hpending.2).bind
    fun done s₄ _ _ => ?_
  refine leads_ite (fun _ => ?_) fun _ => trivial
  refine (leads_forM (P := fun _ => True) fun p _ b _ => ?_).bind fun _ _ _ _ => trivial
  exact (leads_fireAfterRow t u _ _).mono fun _ _ _ => trivial

/-- Whatever a session asks of any table, each step of that upholds the demand. -/
theorem leads_script (call : Call) (u : Nat) : (call.script u).Leads D call.oldRows Whatever s := by
  cases call with
  | lock t exclusive force => exact fun came => by cases came <;> trivial
  | insert t r => exact (leads_insert t u r).bind fun _ _ _ _ => trivial
  | delete t r => exact (leads_delete t u List.mem_cons_self).bind fun _ _ _ _ => trivial
  | update t canceled pairs => exact (leads_update t u canceled fun _ h => h).bind fun _ _ _ _ => trivial

end Calls

end Script
end RowStore
