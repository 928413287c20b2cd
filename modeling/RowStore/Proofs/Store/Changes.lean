import RowStore.Proofs.Store.Replacement

/-!
# What inserts, deletes and updates log

* `beginInsert`, `finishInsert`, `insert_eq` : what comes before the row is stored, and what comes then;
  the same for deletes and updates;
* `insert_tells`, `delete_tells`, `update_tells` : whatever becomes of a change, the log tells what was
  done.
-/

namespace RowStore.Store
open RowStore.Action

variable {among : Nat → Prop} {t u : Nat} {canceled : Nat → Bool} {s s' : Store}

/-! ## Inserts -/

/-- An insert up to the point at which its row is to be stored.  Yields whether anything fires, whether
a trigger has handled the insert, and the row. -/
def beginInsert (t u : Nat) : Action (Draft Store) (Bool × Bool × Row) := do
  Draft.onState (beginChange t u)
  fitRow t u
  let d ← get
  let handled ← Draft.onState (fireBeforeRow t u none (some d.row))
  pure ((d.state.table t).firesOnRows, handled, d.row)

def finishInsert (t u : Nat) (fires : Bool) (r : Row) : Action (Draft Store) Bool := do
  let stored ← Draft.onState (onTable t (Table.addRow r))
  Draft.modifyRow fun _ => stored
  Draft.onState (log t u .inserted stored)
  if fires then
    Draft.onState (fireAfterRow t u none (some stored) false)
  pure true

theorem insert_eq (t u : Nat) : insert t u = (do
    let begun ← beginInsert t u
    if begun.1 && begun.2.1 then pure false else finishInsert t u begun.1 begun.2.2) := by
  simp only [insert, beginInsert, finishInsert, bind_assoc, pure_bind]

theorem keeps_beginInsert : Keeps (fun d : Draft Store => d.state.core u) (beginInsert t u) :=
  (keeps_onState (keeps_beginChange t u)).bind fun _ => (keeps_fitRow t).bind fun _ =>
    Keeps.get_bind fun _ => (keeps_onState (keeps_fireBeforeRow t _ _)).bind fun _ => keeps_pure _

/-! ## Deletes -/

/-- A delete up to the point at which its row is to be removed.  Yields whether anything fires, and
whether a trigger has handled the delete. -/
def beginDelete (t u : Nat) (r : Row) : Action Store (Bool × Bool) := do
  beginChange t u
  let fires := ((← get).table t).firesOnRows
  let handled ← fireBeforeRow t u (some r) none
  pure (fires, handled)

def finishDelete (t u : Nat) (fires : Bool) (r : Row) : Action Store Bool := do
  onTable t (Table.removeRow r)
  log t u .deleted r
  if fires then
    fireAfterRow t u (some r) none false
  pure true

theorem delete_eq (t u : Nat) (r : Row) : delete t u r = (do
    let begun ← beginDelete t u r
    if begun.1 && begun.2 then pure false else finishDelete t u begun.1 r) := by
  simp only [delete, beginDelete, finishDelete, bind_assoc, pure_bind]

theorem keeps_beginDelete {r : Row} : Keeps (core u) (beginDelete t u r) :=
  (keeps_beginChange t u).bind fun _ => Keeps.get_bind fun _ =>
    (keeps_fireBeforeRow t _ _).bind fun _ => keeps_pure _

/-! ## Updates -/

/-- An update up to the point at which it replaces rows.  Yields whether anything fires, and the pairs
that no trigger has handled. -/
def beginUpdate (t u : Nat) (pairs : List (Row × Row)) : Action Batch (Bool × List (Row × Row)) := do
  Batch.onStore (beginChange t u)
  let fires := ((← get).store.table t).firesOnRows
  let pending ← Batch.onStore (prepare t u fires pairs)
  modify ({ · with rows := pending.map (·.2) })
  pure (fires, pending)

def finishUpdate (t u : Nat) (fires : Bool) (pending : List (Row × Row)) : Action Batch Nat := do
  if fires then
    let rows := (← get).rows
    Batch.onStore (((pending.map (·.1)).zip rows).forM fun p =>
      fireAfterRow t u (some p.1) (some p.2) false)
  pure pending.length

theorem update_eq (t u : Nat) (canceled : Nat → Bool) (pairs : List (Row × Row)) :
    update t u canceled pairs = (do
      let begun ← beginUpdate t u pairs
      updateRows t u canceled (begun.2.map (·.1))
      finishUpdate t u begun.1 begun.2) := by
  simp only [update, beginUpdate, finishUpdate, bind_assoc, pure_bind]

theorem keeps_beginUpdate (pairs : List (Row × Row)) :
    Keeps (fun b : Batch => b.store.core u) (beginUpdate t u pairs) :=
  (keeps_onStore (keeps_beginChange t u)).bind fun _ => Keeps.get_bind fun _ =>
    (keeps_onStore (keeps_prepare t _ pairs)).bind fun _ =>
      Keeps.bind (keeps_modify fun _ => rfl) fun _ => keeps_pure _

theorem keeps_finishUpdate (fires : Bool) (pending : List (Row × Row)) :
    Keeps (fun b : Batch => b.store.core u) (finishUpdate t u fires pending) := by
  refine Keeps.ite (Keeps.get_bind fun _ => Keeps.bind (keeps_onStore ?_) fun _ => keeps_pure _)
    (keeps_pure _)
  exact Keeps.forM (fun _ => keeps_fireAfterRow t _ _ false) _

theorem prepare_cons (fires : Bool) (old new : Row) (rest : List (Row × Row)) :
    prepare t u fires ((old, new) :: rest) = (do
      let fitted ← Draft.run (fitRow t u) { new with key := old.key }
      let handled ← (if fires then fireBeforeRow t u (some old) (some fitted.2) else pure false)
      let left ← prepare t u fires rest
      pure (if handled then left else (old, fitted.2) :: left)) := by
  rw [prepare]
  cases fires <;> rfl

/-- The pairs that are left are some of those that were given. -/
theorem prepare_subset {fires : Bool} {pairs left : List (Row × Row)}
    (h : prepare t u fires pairs s = .ok left s') : left.map (·.1) ⊆ pairs.map (·.1) := by
  induction pairs generalizing left s s' with
  | nil =>
    cases h
    exact List.Subset.refl _
  | cons pair rest ih =>
    obtain ⟨old, new⟩ := pair
    rw [prepare_cons] at h
    obtain ⟨⟨_, fitted⟩, s₁, -, h⟩ := bind_eq_ok.1 h
    obtain ⟨handled, s₂, -, h⟩ := bind_eq_ok.1 h
    obtain ⟨tail, s₃, htail, h⟩ := bind_eq_ok.1 h
    have hsub := ih htail
    cases handled with
    | true =>
      cases h
      exact fun r hr => List.mem_cons_of_mem _ (hsub hr)
    | false =>
      cases h
      exact List.cons_subset_cons _ hsub

theorem beginUpdate_subset {pairs : List (Row × Row)} {begun : Bool × List (Row × Row)}
    {b b' : Batch} (h : beginUpdate t u pairs b = .ok begun b') :
    begun.2.map (·.1) ⊆ pairs.map (·.1) := by
  obtain ⟨_, b₁, -, h⟩ := bind_eq_ok.1 h
  rw [get_bind] at h
  obtain ⟨left, b₂, hleft, h⟩ := bind_eq_ok.1 h
  cases h
  obtain ⟨s, hprep, -⟩ := within_eq_ok.1 hleft
  exact prepare_subset hprep

/-! ## The log tells -/

theorem Ready.tells_of_core (h : Ready among u s) (hc : s'.core u = s.core u) :
    Tells among u s s' := ⟨[], .of_core h hc⟩

theorem finishInsert_tells {d : Draft Store} {r : Row} {fires : Bool} (ht : among t)
    (h : Ready among u d.state) (hl : (d.state.table t).assigned? r ≠ some lastKey)
    (hrange : (finishInsert t u fires r).InRangeFrom d) :
    Tells among u d.state (final (finishInsert t u fires r) d).state := by
  unfold finishInsert at hrange ⊢
  cases hr : onTable t (Table.addRow r) d.state with
  | error fault s =>
    have hadd : Draft.onState (onTable t (Table.addRow r)) d = .error fault { d with state := s } :=
      within_of_error hr
    rw [final_bind_of_error hadd]
    cases fault with
    | outOfRange => exact absurd hadd (hrange.of_bind _)
    | error cause => exact ⟨_, logged_add_refused h ht hl hr⟩
  | ok stored s =>
    have hadd : Draft.onState (onTable t (Table.addRow r)) d = .ok stored { d with state := s } :=
      within_of_ok hr
    have hstep := logged_add h ht hl hr
    rw [final_bind_of_ok hadd]
    have hrest : Keeps (fun d : Draft Store => d.state.core u) (do
        if fires then
          Draft.onState (fireAfterRow t u none (some stored) false)
        pure true : Action (Draft Store) Bool) :=
      Keeps.ite ((keeps_onState (keeps_fireAfterRow t _ _ false)).bind fun _ => keeps_pure _)
        (keeps_pure _)
    refine Tells.trans ⟨_, hstep⟩ (hstep.ready.tells_of_core ?_)
    exact hrest ⟨s.recorded u ⟨t, .inserted, stored⟩, stored⟩

/-- Whatever becomes of an insert, the log tells what was done. -/
theorem insert_tells {r : Row} (ht : among t) (h : Ready among u s)
    (hl : ∀ begun d, beginInsert t u ⟨s, r⟩ = .ok begun d → (begun.1 && begun.2.1) = false →
      (d.state.table t).assigned? begun.2.2 ≠ some lastKey)
    (hrange : (insert t u).InRangeFrom ⟨s, r⟩) :
    Tells among u s (final (insert t u) ⟨s, r⟩).state := by
  rw [insert_eq] at hrange ⊢
  cases hb : beginInsert t u ⟨s, r⟩ with
  | error fault d =>
    rw [final_bind_of_error hb]
    exact h.tells_of_core (keeps_beginInsert.of_error hb)
  | ok begun d =>
    have hd := h.tells_of_core (keeps_beginInsert.of_ok hb)
    have hrest := hrange.of_bind_ok hb
    rw [final_bind_of_ok hb]
    cases hh : begun.1 && begun.2.1 with
    | true => exact hd
    | false =>
      rw [hh] at hrest
      exact hd.trans (finishInsert_tells ht hd.ready (hl begun d hb hh) hrest)

theorem finishDelete_tells {r : Row} {fires : Bool} (ht : among t) (h : Ready among u s)
    (hc : (s.table t).engine.IsCopy r) : Tells among u s (final (finishDelete t u fires r) s) := by
  unfold finishDelete
  cases hr : onTable t (Table.removeRow r) s with
  | error fault s₁ =>
    rw [final_bind_of_error hr]
    exact ⟨_, logged_remove_refused h ht hr⟩
  | ok _ s₁ =>
    have hstep := logged_remove h ht hc hr
    rw [final_bind_of_ok hr]
    have hrest : Keeps (core u) (do
        if fires then
          fireAfterRow t u (some r) none false
        pure true : Action Store Bool) :=
      Keeps.ite ((keeps_fireAfterRow t _ _ false).bind fun _ => keeps_pure _) (keeps_pure _)
    refine Tells.trans ⟨_, hstep⟩ (hstep.ready.tells_of_core ?_)
    exact hrest (s₁.recorded u ⟨t, .deleted, r⟩)

/-- Whatever becomes of a delete, the log tells what was done. -/
theorem delete_tells {r : Row} (ht : among t) (h : Ready among u s)
    (hc : (s.table t).engine.IsCopy r) : Tells among u s (final (delete t u r) s) := by
  rw [delete_eq]
  cases hb : beginDelete t u r s with
  | error fault s₁ =>
    rw [final_bind_of_error hb]
    exact h.tells_of_core (keeps_beginDelete.of_error hb)
  | ok begun s₁ =>
    have hcore := keeps_beginDelete.of_ok hb
    have hbegun := h.tells_of_core hcore
    rw [final_bind_of_ok hb]
    cases hh : begun.1 && begun.2 with
    | true => exact hbegun
    | false =>
      rw [← table_eq_of_core hcore] at hc
      exact hbegun.trans (finishDelete_tells ht hbegun.ready hc)

/-- Whatever becomes of an update, the log tells what was done. -/
theorem update_tells {pairs : List (Row × Row)} {b : Batch} (ht : among t)
    (h : Ready among u b.store) (hc : ∀ p ∈ pairs, (b.store.table t).engine.IsCopy p.1)
    (hl : ∀ begun b', beginUpdate t u pairs b = .ok begun b' →
      SparesLast t u canceled (begun.2.map (·.1)) b')
    (hrange : (update t u canceled pairs).InRangeFrom b) :
    Tells among u b.store (final (update t u canceled pairs) b).store := by
  rw [update_eq] at hrange ⊢
  cases hb : beginUpdate t u pairs b with
  | error fault b₁ =>
    rw [final_bind_of_error hb]
    exact h.tells_of_core ((keeps_beginUpdate pairs).of_error hb)
  | ok begun b₁ =>
    have hcore := (keeps_beginUpdate pairs).of_ok hb
    have hbegun := h.tells_of_core hcore
    rw [final_bind_of_ok hb]
    have hold : ∀ r ∈ begun.2.map (·.1), (b₁.store.table t).engine.IsCopy r := by
      intro r hr
      rw [table_eq_of_core hcore]
      obtain ⟨p, hp, rfl⟩ := List.mem_map.1 (beginUpdate_subset hb hr)
      exact hc p hp
    have hupdate := hbegun.trans
      (updateRows_tells ht hbegun.ready hold (hl begun b₁ hb) (hrange.of_bind_ok hb).of_bind)
    cases hu : updateRows t u canceled (begun.2.map (·.1)) b₁ with
    | error fault b₂ =>
      rw [final_of_error hu] at hupdate
      rwa [final_bind_of_error hu]
    | ok _ b₂ =>
      rw [final_of_ok hu] at hupdate
      rw [final_bind_of_ok hu]
      exact hupdate.trans (hupdate.ready.tells_of_core (keeps_finishUpdate _ _ b₂))

end RowStore.Store
