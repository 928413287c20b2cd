import RowStore.Proofs.Column
import RowStore.Proofs.Store.Brackets

/-!
# What is fired around the changes of a batch

* `Table.round`, `Table.firstRefusal?`, `Table.unhandled` : what is recorded before or after changes of
  several rows, what refuses one of them first, and which ones no trigger has handled;
* `Store.fitAll` : rows are fitted, and nothing else is done;
* `prepare_eq` : the changes of an update are prepared in a round;
* `fireAfterAll_eq` : what comes after the changes of a batch is a round.
-/

namespace RowStore
open RowStore.Action

def Edit.ofPair (pair : Row × Row) : Edit := ⟨some pair.1, some pair.2⟩

namespace Table

/-- What is recorded before or after changes of several rows, until one is refused. -/
def round (table : Table) (before : Bool) : List Edit → List FireRecord
  | [] => []
  | e :: rest => table.bracket before e ++
    if (table.refusal? before e).isSome then [] else table.round before rest

def firstRefusal? (table : Table) (before : Bool) (edits : List Edit) : Option StoreError :=
  edits.findSome? (table.refusal? before)

def unhandled (table : Table) (edits : List Edit) : List Edit :=
  edits.filter fun e => !table.handles true e

variable {table : Table} {before : Bool} {e : Edit} {cause : StoreError}

theorem round_of_refused (h : table.refusal? before e = some cause) (rest : List Edit) :
    table.round before (e :: rest) = table.bracket before e := by
  unfold round
  rw [h]
  exact List.append_nil _

theorem round_of_accepted (h : table.refusal? before e = none) (rest : List Edit) :
    table.round before (e :: rest) = table.bracket before e ++ table.round before rest := by
  rw [round, h]
  rfl

theorem firstRefusal?_of_refused (h : table.refusal? before e = some cause) (rest : List Edit) :
    table.firstRefusal? before (e :: rest) = some cause := by
  unfold firstRefusal?
  rw [List.findSome?_cons, h]

theorem firstRefusal?_of_accepted (h : table.refusal? before e = none) (rest : List Edit) :
    table.firstRefusal? before (e :: rest) = table.firstRefusal? before rest := by
  unfold firstRefusal?
  rw [List.findSome?_cons, h]

/-- Where there are neither triggers nor constraints, nothing is fired. -/
theorem firesOnRows_eq_false (h : table.firesOnRows = false) :
    table.triggers = [] ∧ table.constraints = [] := by
  unfold firesOnRows at h
  simp at h
  exact h.symm

theorem bracket_of_idle (h : table.firesOnRows = false) (before : Bool) (e : Edit) :
    table.bracket before e = [] := by
  obtain ⟨ht, hc⟩ := firesOnRows_eq_false h
  unfold bracket rowTriggers phaseConstraints
  rw [ht, hc]
  exact ite_self []

theorem refusal?_of_idle (h : table.firesOnRows = false) (before : Bool) (e : Edit) :
    table.refusal? before e = none := by
  obtain ⟨-, hc⟩ := firesOnRows_eq_false h
  unfold refusal? phaseConstraints
  rw [hc]
  exact ite_self none

theorem handles_of_idle (h : table.firesOnRows = false) (before : Bool) (e : Edit) :
    table.handles before e = false := by
  obtain ⟨ht, -⟩ := firesOnRows_eq_false h
  unfold handles rowTriggers
  rw [ht]
  rfl

end Table

namespace Store
variable {t u : Nat} {s s' : Store} {e : Edit}

/-! ## One change -/

/-- What comes before a change, where it is skipped if there is nothing to fire. -/
theorem fireBefore_eq (h : (s.table t).Covers e) (u : Nat) :
    ∃ s', Fires ((s.table t).bracket true e) s s' ∧
      (if (s.table t).firesOnRows then fireBeforeRow t u e.old e.new else pure false) s =
        match (s.table t).refusal? true e with
        | some cause => .error (.error cause) s'
        | none => .ok ((s.table t).handles true e) s' := by
  cases hf : (s.table t).firesOnRows with
  | true => exact fireBeforeRow_eq h u
  | false =>
    rw [Table.bracket_of_idle hf, Table.refusal?_of_idle hf, Table.handles_of_idle hf]
    exact ⟨s, fires_nil s, rfl⟩

/-! ## After the changes of a batch -/

/-- After the changes of a batch come their brackets, one after the other. -/
theorem fireAfterAll_eq {edits : List Edit} (h : ∀ e ∈ edits, (s.table t).Covers e) (u : Nat) :
    ∃ s', Fires ((s.table t).round false edits) s s' ∧
      (edits.forM fun e => fireAfterRow t u e.old e.new false) s =
        match (s.table t).firstRefusal? false edits with
        | some cause => .error (.error cause) s'
        | none => .ok () s' := by
  induction edits generalizing s with
  | nil => exact ⟨s, fires_nil s, rfl⟩
  | cons e rest ih =>
    obtain ⟨he, hrest⟩ := List.forall_mem_cons.1 h
    obtain ⟨s₁, hf₁, hfire⟩ := fireAfterRow_eq he u
    cases href : (s.table t).refusal? false e with
    | some cause =>
      rw [href] at hfire
      rw [Table.round_of_refused href, Table.firstRefusal?_of_refused href]
      exact ⟨s₁, hf₁, bind_of_error hfire⟩
    | none =>
      rw [href] at hfire
      rw [Table.round_of_accepted href, Table.firstRefusal?_of_accepted href]
      have htable : s₁.table t = s.table t := hf₁.table t
      obtain ⟨s₂, hf₂, hfires⟩ := ih (s := s₁) (htable ▸ hrest)
      rw [htable] at hf₂ hfires
      exact ⟨s₂, hf₁.trans hf₂, (bind_of_ok hfire).trans hfires⟩

/-! ## Rows that are fitted -/

/-- Rows are brought into the form that a table stores, and nothing else is done. -/
def fitAll (t u : Nat) : List Row → Action Store (List Row)
  | [] => pure []
  | r :: rest => do
    let fitted ← Draft.run (fitRow t u) r
    let others ← fitAll t u rest
    pure (fitted.2 :: others)

theorem adds_setNumbering (s : Store) (u : Nat) (n : Numbering) : Adds [] s (s.setNumbering u n) :=
  ⟨(List.append_nil _).symm, rfl, undoLog_setNumbering s u n⟩

theorem numbering_setNumbering (s : Store) (u : Nat) (n : Numbering) :
    (s.setNumbering u n).numbering u = n := by
  have hlast : ((s.setNumbering u n).session u).lastIdentity = n.lastIdentity :=
    congrArg Session.lastIdentity (session_setSession s u _)
  exact congrArg (Numbering.mk n.sequences) hlast

theorem adds_fitted {r : Row} {x : Unit × Row} (h : Draft.run (fitRow t u) r s = .ok x s') :
    Adds [] s s' := by
  obtain ⟨n, -, -, rfl⟩ := fitRow_eq_ok h
  exact adds_setNumbering s u n

/-- A row is fitted in the same way where the columns and numbers are the same. -/
theorem fitRow_of_same {s₁ : Store} {r fitted : Row} (ht : s'.table t = s.table t)
    (hn : s'.numbering u = s.numbering u)
    (h : Draft.run (fitRow t u) r s = .ok ((), fitted) s₁) : ∃ n, s₁ = s.setNumbering u n ∧
      Draft.run (fitRow t u) r s' = .ok ((), fitted) (s'.setNumbering u n) := by
  obtain ⟨n, hw, hcolumns, rfl⟩ := fitRow_eq_ok h
  rw [← ht] at hw hcolumns
  rw [← hn] at hcolumns
  exact ⟨n, rfl, fitRow_of_fitted hw hcolumns⟩

theorem fitAll_cons (r : Row) (rest : List Row) : fitAll t u (r :: rest) = (do
    let fitted ← Draft.run (fitRow t u) r
    let others ← fitAll t u rest
    pure (fitted.2 :: others)) := rfl

/-- A row that was fitted has a cell for each column. -/
theorem width_of_fitted {r fitted : Row} (h : Draft.run (fitRow t u) r s = .ok ((), fitted) s') :
    fitted.width = (s.table t).columns.width := by
  obtain ⟨n, hw, hcolumns, -⟩ := fitRow_eq_ok h
  exact (fitColumns_below hcolumns).1.trans hw

theorem fitAll_width {rows news : List Row} (h : fitAll t u rows s = .ok news s') :
    ∀ r ∈ news, r.width = (s.table t).columns.width := by
  induction rows generalizing s news with
  | nil =>
    cases h
    exact fun _ hr => absurd hr List.not_mem_nil
  | cons r rest ih =>
    rw [fitAll_cons] at h
    obtain ⟨⟨⟨⟩, fitted⟩, s₁, hfit, h⟩ := bind_eq_ok.1 h
    obtain ⟨others, s₂, hrest, h⟩ := bind_eq_ok.1 h
    cases h
    have hothers := ih hrest
    rw [(adds_fitted hfit).table] at hothers
    exact List.forall_mem_cons.2 ⟨width_of_fitted hfit, hothers⟩

theorem fitAll_of_same {s₁ : Store} {rows news : List Row} (ht : s'.table t = s.table t)
    (hn : s'.numbering u = s.numbering u) (h : fitAll t u rows s = .ok news s₁) :
    ∃ s₂, fitAll t u rows s' = .ok news s₂ := by
  induction rows generalizing s s' news s₁ with
  | nil =>
    cases h
    exact ⟨s', rfl⟩
  | cons r rest ih =>
    rw [fitAll_cons] at h
    obtain ⟨⟨⟨⟩, fitted⟩, b, hfit, h⟩ := bind_eq_ok.1 h
    obtain ⟨others, b', hrest, h⟩ := bind_eq_ok.1 h
    cases h
    obtain ⟨n, rfl, hfit'⟩ := fitRow_of_same ht hn hfit
    have hn' : (s'.setNumbering u n).numbering u = (s.setNumbering u n).numbering u :=
      (numbering_setNumbering s' u n).trans (numbering_setNumbering s u n).symm
    have ht' : (s'.setNumbering u n).table t = (s.setNumbering u n).table t := ht
    obtain ⟨s₂, hrest'⟩ := ih ht' hn' hrest
    exact ⟨s₂, (bind_of_ok hfit').trans (bind_of_ok hrest')⟩

/-! ## Before the changes of an update -/

def underOldKey (pair : Row × Row) : Row := { pair.2 with key := pair.1.key }

/-- The old rows of pairs with what their new rows are when they are fitted. -/
def fittedPairs (pairs : List (Row × Row)) (news : List Row) : List (Row × Row) :=
  List.zipWith (fun pair new => (pair.1, new)) pairs news

def leftPairs (table : Table) (pairs : List (Row × Row)) : List (Row × Row) :=
  pairs.filter fun p => !table.handles true (.ofPair p)

/-- A change of an update is prepared once its new row is fitted. -/
theorem fireBefore_of_fitted {new fitted : Row} (h : (s.table t).Recording)
    (hfit : Draft.run (fitRow t u) new s = .ok ((), fitted) s') (old : Row) :
    ∃ s₁, Adds ((s.table t).bracket true (.ofPair (old, fitted))) s s₁ ∧
      s₁.numbering u = s'.numbering u ∧
      (if (s.table t).firesOnRows then fireBeforeRow t u (some old) (some fitted) else pure false) s' =
        match (s.table t).refusal? true (.ofPair (old, fitted)) with
        | some cause => .error (.error cause) s₁
        | none => .ok ((s.table t).handles true (.ofPair (old, fitted))) s₁ := by
  have hcovers : (s.table t).Covers (.ofPair (old, fitted)) :=
    ⟨h, fun r hr => Option.some.inj hr ▸ width_of_fitted hfit⟩
  obtain ⟨n, -, -, rfl⟩ := fitRow_eq_ok hfit
  obtain ⟨s₁, hf₁, hfire⟩ := fireBefore_eq (s := s.setNumbering u n) hcovers u
  exact ⟨s₁, (adds_setNumbering s u n).trans hf₁.toAdds, hf₁.numbering u, hfire⟩

/-- The changes of an update are prepared in a round, as far as their rows are fitted.  Those that are left
are the ones that no trigger has handled. -/
theorem prepare_eq {pairs : List (Row × Row)} {n : Nat} {news : List Row}
    (h : (s.table t).Recording) (fits : fitAll t u ((pairs.map underOldKey).take n) s = .ok news s')
    (enough : pairs.length ≤ n ∨
      ((s.table t).firstRefusal? true ((fittedPairs pairs news).map .ofPair)).isSome) :
    ∃ s₂, Adds ((s.table t).round true ((fittedPairs pairs news).map .ofPair)) s s₂ ∧
      prepare t u (s.table t).firesOnRows pairs s =
        match (s.table t).firstRefusal? true ((fittedPairs pairs news).map .ofPair) with
        | some cause => .error (.error cause) s₂
        | none => .ok (leftPairs (s.table t) (fittedPairs pairs news)) s₂ := by
  -- from any store, since the numbers that the first change draws decide which the others get
  induction pairs generalizing n news s s' with
  | nil => exact ⟨s, (fires_nil s).toAdds, rfl⟩
  | cons pair rest ih =>
    obtain ⟨old, new⟩ := pair
    cases n with
    | zero =>
      cases fits
      rcases enough with h | h <;> cases h
    | succ n =>
      rw [List.map_cons, List.take_succ_cons, fitAll_cons] at fits
      obtain ⟨⟨⟨⟩, fitted⟩, b, hfit, fits⟩ := bind_eq_ok.1 fits
      obtain ⟨others, b', hrest, fits⟩ := bind_eq_ok.1 fits
      cases fits
      obtain ⟨s₁, hround, hnumbering, hfire⟩ := fireBefore_of_fitted h hfit old
      have htable : s₁.table t = s.table t := hround.table t
      have hcons : fittedPairs ((old, new) :: rest) (fitted :: others) =
          (old, fitted) :: fittedPairs rest others := rfl
      rw [hcons, List.map_cons] at enough ⊢
      rw [prepare_cons, bind_of_ok (show Draft.run (fitRow t u) { new with key := old.key } s = _ from hfit)]
      cases href : (s.table t).refusal? true (.ofPair (old, fitted)) with
      | some cause =>
        rw [href] at hfire
        rw [Table.round_of_refused href, Table.firstRefusal?_of_refused href]
        exact ⟨s₁, hround, bind_of_error hfire⟩
      | none =>
        rw [href] at hfire
        rw [Table.firstRefusal?_of_accepted href] at enough ⊢
        rw [Table.round_of_accepted href]
        -- what fires draws no numbers, so the other rows are fitted as if nothing had fired
        have hb : s₁.table t = b.table t := htable.trans ((adds_fitted hfit).table t).symm
        obtain ⟨s₂, hrest'⟩ := fitAll_of_same hb hnumbering hrest
        obtain ⟨s₃, hf₃, hprepare⟩ := ih (s := s₁) (htable ▸ h) hrest'
          (by rw [htable]; exact enough.imp_left Nat.le_of_succ_le_succ)
        rw [htable] at hf₃ hprepare
        refine ⟨s₃, hround.trans hf₃, (bind_of_ok hfire).trans ?_⟩
        cases hfirst : (s.table t).firstRefusal? true ((fittedPairs rest others).map .ofPair) with
        | some cause =>
          rw [hfirst] at hprepare
          exact bind_of_error hprepare
        | none =>
          rw [hfirst] at hprepare
          refine (bind_of_ok hprepare).trans ?_
          unfold leftPairs
          rw [List.filter_cons]
          cases (s.table t).handles true (.ofPair (old, fitted)) <;> rfl

end Store
end RowStore
