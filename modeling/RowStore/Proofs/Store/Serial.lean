import RowStore.Proofs.Store.Copies
import RowStore.Proofs.Store.Schedule
import RowStore.Proofs.Store.Isolation

/-!
# Whole calls and ways back, one after the other

* `Activity.Steps` : schedules go on from one activity to another;
* `steps_call` : by a whole call, that no other session disturbs, and that removes copies if it is given
  copies;
* `steps_rollbackTo` : by a whole way back;
* `Serial`, `Serial.schedule` : calls that are given copies and ways back, one after the other, are a
  schedule whose steps remove copies only.
-/

namespace RowStore
open RowStore.Action RowStore.Store

namespace Script
variable {α β : Type}

def LockFree : Script α → Prop
  | done _ | fail _ => True
  | act _ next => ∀ came, (next came).LockFree
  | lock .. => False

theorem LockFree.bind {x : Script α} {f : α → Script β} (h : x.LockFree) (hf : ∀ a, (f a).LockFree) :
    (x >>= f).LockFree := by
  change (x.bind f).LockFree
  induction x with
  | done a => exact hf a
  | fail fault => trivial
  | act a next ih => exact fun came => ih came (h came)
  | lock => exact h.elim

theorem lockFree_step (a : Action Store α) : (step a).LockFree := fun came => by cases came <;> trivial

theorem lockFree_rollbackTo (u savepoint : Nat) : (rollbackTo u savepoint).LockFree := by
  refine (lockFree_step _).bind fun undone => ?_
  induction undone.reverse with
  | nil => trivial
  | cons record rest ih => exact (lockFree_step _).bind fun _ => ih

end Script

namespace Activity

def idle (s : Store) : Activity := { scene := ⟨s, fun _ => none⟩ }

/-- Every schedule that comes to one activity goes on to the other.  If the rows that are given to be
removed from a table are copies, the steps of that remove copies only. -/
def Steps (floor : Nat → Nat) (t : Nat) (copied : Prop) (d d' : Activity) : Prop :=
  ∀ s₀ history, Schedule floor s₀ history d → ∃ later, Schedule floor s₀ (later ++ history) d' ∧
    (copied → ∀ m ∈ later, m.2.OnCopies t m.1)

variable {floor : Nat → Nat} {t u : Nat} {copied : Prop} {a b d : Activity} {call : Call}

theorem Steps.refl (d : Activity) : d.Steps floor t copied d :=
  fun _ _ h => ⟨[], h, fun _ _ hm => absurd hm List.not_mem_nil⟩

theorem Steps.trans (h : a.Steps floor t copied b) (h' : b.Steps floor t copied d) :
    a.Steps floor t copied d := by
  intro s₀ history hstart
  obtain ⟨first, hb, hfirst⟩ := h s₀ history hstart
  obtain ⟨second, hd, hsecond⟩ := h' s₀ _ hb
  rw [← List.append_assoc] at hd
  refine ⟨second ++ first, hd, fun hc m hm => ?_⟩
  exact (List.mem_append.1 hm).elim (hsecond hc m) (hfirst hc m)

theorem Steps.mono {copied' : Prop} (h : a.Steps floor t copied b) (hi : copied' → copied) :
    a.Steps floor t copied' b := by
  intro s₀ history hstart
  obtain ⟨later, hb, hlater⟩ := h s₀ history hstart
  exact ⟨later, hb, fun hc => hlater (hi hc)⟩

theorem steps_of_step (h : a.Step floor u b) (hc : copied → a.OnCopies t u) :
    a.Steps floor t copied b :=
  fun _ _ hstart => ⟨[(u, a)], hstart.step h, fun hcopied => List.forall_mem_singleton.2 (hc hcopied)⟩

/-! ## Calls -/

theorem onCopies_of_call {x : Script Unit} (h : d.scene.calls u = some (call, x))
    (hx : x.RemovesCopies t call.oldRows d.store) : d.OnCopies t u := by
  intro call' x' h'
  cases h.symm.trans h'
  exact hx

theorem onCopies_of_idle (h : d.scene.calls u = none) : d.OnCopies t u :=
  fun _ _ hx => nomatch h.symm.trans hx

/-- The store is changed, and with it how far a session is in its call. -/
def put (d : Activity) (u : Nat) (s : Store) (work : Option (Call × Script Unit)) : Activity :=
  { d with scene := d.scene.put u s work }

theorem put_put (d : Activity) (u : Nat) (s s' : Store) (work work' : Option (Call × Script Unit)) :
    (d.put u s work).put u s' work' = d.put u s' work' :=
  congrArg (Activity.mk · d.backs) (Scene.put_put d.scene u s s' work work')

theorem put_self {work : Option (Call × Script Unit)} (h : d.scene.calls u = work) :
    d.put u d.store work = d := congrArg (Activity.mk · d.backs) (Scene.put_self h)

theorem calls_put_self (d : Activity) (u : Nat) (s : Store) (work : Option (Call × Script Unit)) :
    (d.put u s work).scene.calls u = work := Scene.calls_put_self d.scene u s work

/-- A session goes on in its call to the end. -/
theorem steps_run {x : Script Unit} (here : d.backs u = none)
    (h : d.scene.calls u = some (call, x)) (hx : copied → x.Mindful u t call.oldRows d.store) :
    d.Steps floor t copied (d.put u (final (x.run u) d.store)
      (some (call, Script.ofResult (result (x.run u) d.store)))) := by
  induction x generalizing d with
  | done a => exact (put_self h).symm ▸ .refl d
  | fail fault => exact (put_self h).symm ▸ .refl d
  | act a next ih =>
    have hstep : d.Step floor u (d.put u (final a d.store) (some (call, next (result a d.store)))) :=
      .call here (.act h)
    have hrest := ih (result a d.store) (d := d.put u (final a d.store) _) here
      (calls_put_self d u _ _) fun hc => (hx hc).2
    rw [put_put] at hrest
    exact (steps_of_step hstep fun hc => onCopies_of_call h (hx hc).1).trans hrest
  | lock t' exclusive force next ih =>
    obtain ⟨c, hwait, hc, htold⟩ := Scene.lock_moves h
    have hlock (s : Store) : (Script.lock t' exclusive force next).RemovesCopies t call.oldRows s := nofun
    have hwaits : d.Steps floor t copied { d with scene := c } := by
      rcases hwait with rfl | hwait
      · exact .refl d
      · exact steps_of_step (.call here hwait) fun _ => onCopies_of_call h (hlock _)
    have htells : Steps floor t copied { d with scene := c } (d.put u _ _) :=
      steps_of_step (.call here htold) fun _ => onCopies_of_call hc (hlock _)
    have hrest := ih _ (d := d.put u (final (Store.lock t' u exclusive force) d.store) _) here
      (calls_put_self d u _ _) hx
    rw [put_put] at hrest
    exact (hwaits.trans htells).trans hrest

/-- A whole call that no other session disturbs does what the definitions say. -/
theorem steps_call (u : Nat) (call : Call) (s : Store) :
    (idle s).Steps floor t (call.OnCopies t s) (idle (final (call.run u) s)) := by
  have hbegin : (idle s).Steps floor t (call.OnCopies t s)
      ((idle s).put u s (some (call, call.script u))) :=
    steps_of_step (.call rfl (.begin call rfl)) fun _ => onCopies_of_idle rfl
  have hrun : ((idle s).put u s (some (call, call.script u))).Steps floor t (call.OnCopies t s)
      ((idle s).put u (final (call.run u) s) (some (call, Script.ofResult (result (call.run u) s)))) := by
    have h : ((idle s).put u s (some (call, call.script u))).Steps floor t (call.OnCopies t s) _ :=
      steps_run rfl (calls_put_self _ u _ _) Script.mindful_script
    rw [put_put, Call.run_script] at h
    exact h
  have hreturn : ((idle s).put u (final (call.run u) s)
      (some (call, Script.ofResult (result (call.run u) s)))).Steps floor t (call.OnCopies t s)
        (idle (final (call.run u) s)) := by
    have hend : idle (final (call.run u) s) = ((idle s).put u (final (call.run u) s)
        (some (call, Script.ofResult (result (call.run u) s)))).put u (final (call.run u) s) none := by
      rw [put_put]
      exact congrArg (Activity.mk · fun _ => none) (Scene.put_idle s _ u).symm
    rw [hend]
    have hcalls := calls_put_self (idle s) u (final (call.run u) s)
      (some (call, Script.ofResult (result (call.run u) s)))
    cases hcame : result (call.run u) s with
    | ok x =>
      rw [hcame] at hcalls
      exact steps_of_step (.call rfl (.done hcalls)) fun _ => onCopies_of_call hcalls nofun
    | error fault =>
      rw [hcame] at hcalls
      exact steps_of_step (.call rfl (.fail hcalls)) fun _ => onCopies_of_call hcalls nofun
  exact (hbegin.trans hrun).trans hreturn

/-! ## Ways back -/

theorem putBack_putBack (d : Activity) (u : Nat) (s s' : Store) (rest rest' : Option (Script Unit)) :
    (d.putBack u s rest).putBack u s' rest' = d.putBack u s' rest' := by
  unfold putBack
  congr 1
  funext v
  dsimp only
  split <;> rfl

theorem putBack_self {rest : Option (Script Unit)} (h : d.backs u = rest) :
    d.putBack u d.store rest = d := by
  unfold putBack
  congr 1
  funext v
  split
  · rename_i hv
    exact h.symm.trans (congrArg d.backs hv.symm)
  · rfl

theorem backs_putBack_self (d : Activity) (u : Nat) (s : Store) (rest : Option (Script Unit)) :
    (d.putBack u s rest).backs u = rest := if_pos rfl

/-- A session goes on on its way back to the end. -/
theorem steps_back {x : Script Unit} (free : d.scene.calls u = none) (h : d.backs u = some x)
    (hx : x.LockFree) : d.Steps floor t copied
      (d.putBack u (final (x.run u) d.store) (some (Script.ofResult (result (x.run u) d.store)))) := by
  induction x generalizing d with
  | done a => exact (putBack_self h).symm ▸ .refl d
  | fail fault => exact (putBack_self h).symm ▸ .refl d
  | act a next ih =>
    have hrest := ih (result a d.store) (d := d.putBack u (final a d.store) _) free
      (backs_putBack_self d u _ _) (hx _)
    rw [putBack_putBack] at hrest
    exact (steps_of_step (.back h) fun _ => onCopies_of_idle free).trans hrest
  | lock => exact hx.elim

/-- A whole way back that no other session disturbs does what the definitions say. -/
theorem steps_rollbackTo {savepoint : Nat} (h : floor u ≤ savepoint) (s : Store) :
    (idle s).Steps floor t copied (idle (final (rollbackTo u savepoint) s)) := by
  have hturn : (idle s).Steps floor t copied
      ((idle s).putBack u s (some (Script.rollbackTo u savepoint))) :=
    steps_of_step (.turn savepoint rfl rfl h) fun _ => onCopies_of_idle rfl
  have hback : ((idle s).putBack u s (some (Script.rollbackTo u savepoint))).Steps floor t copied
      ((idle s).putBack u (final (rollbackTo u savepoint) s)
        (some (Script.ofResult (result (rollbackTo u savepoint) s)))) := by
    have h : ((idle s).putBack u s (some (Script.rollbackTo u savepoint))).Steps floor t copied _ :=
      steps_back rfl (backs_putBack_self _ u _ _) (Script.lockFree_rollbackTo u savepoint)
    rw [putBack_putBack, Script.run_rollbackTo] at h
    exact h
  have hreturn : ((idle s).putBack u (final (rollbackTo u savepoint) s)
      (some (Script.ofResult (result (rollbackTo u savepoint) s)))).Steps floor t copied
        (idle (final (rollbackTo u savepoint) s)) := by
    have hend : idle (final (rollbackTo u savepoint) s) =
        ((idle s).putBack u (final (rollbackTo u savepoint) s)
          (some (Script.ofResult (result (rollbackTo u savepoint) s)))).putBack u
            (final (rollbackTo u savepoint) s) none := by
      rw [putBack_putBack]
      exact congrArg (Activity.mk _) (funext fun v => (ite_self none).symm)
    rw [hend]
    have hbacks := backs_putBack_self (idle s) u (final (rollbackTo u savepoint) s)
      (some (Script.ofResult (result (rollbackTo u savepoint) s)))
    cases hcame : result (rollbackTo u savepoint) s with
    | ok x =>
      rw [hcame] at hbacks
      exact steps_of_step (.arrive hbacks) fun _ => onCopies_of_idle rfl
    | error fault =>
      rw [hcame] at hbacks
      exact steps_of_step (.strand hbacks) fun _ => onCopies_of_idle rfl
  exact (hturn.trans hback).trans hreturn

end Activity

/-! ## One after the other -/

/-- Calls, which are given copies of the rows that they are to remove from a table, and ways back, one
after the other. -/
inductive Serial (floor : Nat → Nat) (t : Nat) (s₀ : Store) : Store → Prop where
  | start : Serial floor t s₀ s₀
  | call {s : Store} (h : Serial floor t s₀ s) (u : Nat) (call : Call) (hc : call.OnCopies t s) :
    Serial floor t s₀ (final (call.run u) s)
  | back {s : Store} (h : Serial floor t s₀ s) (u savepoint : Nat) (hn : floor u ≤ savepoint) :
    Serial floor t s₀ (final (rollbackTo u savepoint) s)

theorem Serial.steps {floor : Nat → Nat} {t : Nat} {s₀ s : Store} (h : Serial floor t s₀ s) :
    (Activity.idle s₀).Steps floor t True (.idle s) := by
  induction h with
  | start => exact .refl _
  | @call s h u call hc ih => exact ih.trans ((Activity.steps_call u call s).mono fun _ => hc)
  | @back s h u savepoint hn ih => exact ih.trans (Activity.steps_rollbackTo hn s)

/-- Calls and ways back that are taken one after the other are a schedule on copies. -/
theorem Serial.schedule {floor : Nat → Nat} {t : Nat} {s₀ s : Store} (h : Serial floor t s₀ s) :
    ∃ history, Schedule floor s₀ history (.idle s) ∧ ∀ m ∈ history, m.2.OnCopies t m.1 := by
  obtain ⟨history, hs, hcopies⟩ := h.steps s₀ [] .start
  rw [List.append_nil] at hs
  exact ⟨history, hs, hcopies trivial⟩

end RowStore
