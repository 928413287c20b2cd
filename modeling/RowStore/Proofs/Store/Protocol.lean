import RowStore.Proofs.Store.Storing

/-!
# The order in which a call fires

* `Call.newRows`, `Call.edits` : the rows that a call is to write, and the changes that it asks for;
* `Call.Unfolds` : the ways in which a call ends in a table that records what it fires;
* `Store.fireAll` : what comes after the changes that were made;
* `unfolds_of` : what comes before the changes and after them is put together;
* `insert_unfolds`, `delete_unfolds`, `update_unfolds` : so do inserts, deletes and updates end;
* `recorded_calls_unfold` : any call that gets past locking and validation.
-/

namespace RowStore
open RowStore.Action RowStore.Store

namespace Call

def newRows : Call → List Row
  | lock .. | delete .. => []
  | insert _ r => [r]
  | update _ _ pairs => pairs.map underOldKey

/-- The changes that a call asks for, with its new rows as they are fitted. -/
def edits (fitted : List Row) : Call → List Edit
  | lock .. => []
  | insert .. => fitted.map fun r => ⟨none, some r⟩
  | delete _ r => [⟨some r, none⟩]
  | update _ _ pairs => (fittedPairs pairs fitted).map .ofPair

/-- How a call ends that asks for some changes of a table which records what it fires. -/
inductive Unfolds (call : Call) (t u : Nat) (asked : List Edit) (s : Store) :
    EStateM.Result Fault Store Unit → Prop where
  /-- A change is refused before any is made. -/
  | refused {cause : StoreError} {s' : Store}
    (before : Adds ((s.table t).round true asked) s s')
    (refusal : (s.table t).firstRefusal? true asked = some cause) :
    Unfolds call t u asked s (.error (.error cause) s')
  /-- The changes that no trigger has handled are not all made. -/
  | failed {fault : Fault} {s₁ s' : Store}
    (before : Adds ((s.table t).round true asked) s s₁)
    (accepted : (s.table t).firstRefusal? true asked = none)
    (storing : call.storing u ((s.table t).unhandled asked) s₁ = .error fault s')
    (silent : s'.fired = s₁.fired) : Unfolds call t u asked s (.error fault s')
  /-- The changes that no trigger has handled are made, and one of them is refused then. -/
  | rejected {cause : StoreError} {made : List Edit} {s₁ s₂ s' : Store}
    (before : Adds ((s.table t).round true asked) s s₁)
    (accepted : (s.table t).firstRefusal? true asked = none)
    (storing : call.storing u ((s.table t).unhandled asked) s₁ = .ok made s₂)
    (makes : Makes t u ((s.table t).unhandled asked) made s₁ s₂)
    (after : Adds ((s.table t).round false made) s₂ s')
    (refusal : (s.table t).firstRefusal? false made = some cause) :
    Unfolds call t u asked s (.error (.error cause) s')
  /-- The changes that no trigger has handled are made. -/
  | done {made : List Edit} {s₁ s₂ s' : Store}
    (before : Adds ((s.table t).round true asked) s s₁)
    (accepted : (s.table t).firstRefusal? true asked = none)
    (storing : call.storing u ((s.table t).unhandled asked) s₁ = .ok made s₂)
    (makes : Makes t u ((s.table t).unhandled asked) made s₁ s₂)
    (after : Adds ((s.table t).round false made) s₂ s')
    (kept : (s.table t).firstRefusal? false made = none) :
    Unfolds call t u asked s (.ok () s')

end Call

/-! ## What a table records whatever rows it has -/

namespace Table
variable {table : Table} {e : Edit}

theorem round_setEngine (table : Table) (engine : Engine) (before : Bool) (edits : List Edit) :
    Table.round { table with engine := engine } before edits = table.round before edits := by
  induction edits with
  | nil => rfl
  | cons e rest ih =>
    unfold round
    rw [ih]
    rfl

theorem Covers.made {engine : Engine} {m : Edit} (h : table.Covers e) (hm : e.MadeAs m) :
    Table.Covers { table with engine := engine } m where
  triggers := h.triggers
  constraints := h.constraints
  width r hr := by
    have hnew := hm.new
    rw [hr] at hnew
    cases hnew' : e.new with
    | none =>
      rw [hnew'] at hnew
      cases hnew
    | some asked =>
      rw [hnew'] at hnew
      cases hnew with
      | some hstored => exact hstored.width.trans (h.width asked hnew')

theorem covers_made {left made : List Edit} {engine : Engine} (h : ∀ e ∈ left, table.Covers e)
    (hmade : List.Forall₂ Edit.MadeAs left made) :
    ∀ m ∈ made, Table.Covers { table with engine := engine } m := by
  induction hmade with
  | nil => exact fun _ hm => absurd hm List.not_mem_nil
  | cons hfirst _ ih =>
    obtain ⟨he, hrest⟩ := List.forall_mem_cons.1 h
    exact List.forall_mem_cons.2 ⟨he.made hfirst, ih hrest⟩

/-- A trigger that handles a change is there to fire. -/
theorem fires_and_handles (table : Table) (before : Bool) (e : Edit) :
    (table.firesOnRows && table.handles before e) = table.handles before e := by
  cases hf : table.firesOnRows with
  | true => rfl
  | false => rw [handles_of_idle hf, Bool.and_false]

end Table

namespace Store
variable {t u : Nat} {s s₁ s' : Store}

/-! ## Before and after the changes of a call -/

theorem adds_beginChange (h : beginChange t u s = .ok () s') : Adds [] s s' := by
  have hfired : Keeps (·.fired) (beginChange t u) := by
    refine Keeps.bind ?_ fun _ => keeps_lock_of (fun _ _ _ => rfl) t u true false
    exact Keeps.get_bind fun _ => Keeps.ite (keeps_refuse _) (keeps_pure ())
  constructor
  · rw [List.append_nil]
    exact hfired.of_ok h
  · exact congrArg Prod.fst ((keeps_beginChange (u := u) t u).of_ok h)
  · exact fun v => congrArg (·.2.2) ((keeps_beginChange (u := v) t u).of_ok h)

/-- What comes after the changes that were made. -/
def fireAll (t u : Nat) (fires : Bool) (made : List Edit) : Action Store Unit :=
  if fires then made.forM fun e => fireAfterRow t u e.old e.new false else pure ()

theorem fireAll_eq {made : List Edit} (h : ∀ e ∈ made, (s.table t).Covers e) (u : Nat) :
    ∃ s', Fires ((s.table t).round false made) s s' ∧ fireAll t u (s.table t).firesOnRows made s =
      match (s.table t).firstRefusal? false made with
      | some cause => .error (.error cause) s'
      | none => .ok () s' := by
  cases hf : (s.table t).firesOnRows with
  | true => exact fireAfterAll_eq h u
  | false =>
    have hnone : (s.table t).firstRefusal? false made = none := by
      unfold Table.firstRefusal?
      rw [List.findSome?_eq_none_iff]
      exact fun e _ => Table.refusal?_of_idle hf false e
    have hround : (s.table t).round false made = [] := by
      clear h hnone
      induction made with
      | nil => rfl
      | cons e rest ih =>
        unfold Table.round
        rw [Table.bracket_of_idle hf, ih]
        exact ite_self []
    rw [hnone, hround]
    exact ⟨s, fires_nil s, rfl⟩

/-- A call whose changes are made and fired on as they are left ends in one of the ways. -/
theorem unfolds_of {call : Call} {asked : List Edit} (target : call.target? = some t)
    (leaves : call.Leaves ((s.table t).unhandled asked)) (covers : ∀ e ∈ asked, (s.table t).Covers e)
    (before : Adds ((s.table t).round true asked) s s₁)
    (run : call.run u s = match (s.table t).firstRefusal? true asked with
      | some cause => .error (.error cause) s₁
      | none => (do
        let made ← call.storing u ((s.table t).unhandled asked)
        fireAll t u (s.table t).firesOnRows made : Action Store Unit) s₁) :
    call.Unfolds t u asked s (call.run u s) := by
  rw [run]
  cases hrefusal : (s.table t).firstRefusal? true asked with
  | some cause => exact .refused before hrefusal
  | none =>
    dsimp only
    cases hstoring : call.storing u ((s.table t).unhandled asked) s₁ with
    | error fault s₂ =>
      rw [bind_of_error hstoring]
      exact .failed before hrefusal hstoring ((keeps_fired_storing _ _ _).of_error hstoring)
    | ok made s₂ =>
      have hmakes : Makes t u ((s.table t).unhandled asked) made s₁ s₂ :=
        storing_makes target leaves hstoring
      -- rows have changed, but neither triggers nor constraints
      have htable : s₂.table t = { s.table t with engine := (s₂.table t).engine } := by
        rw [hmakes.table, before.table]
      have hcovers : ∀ e ∈ made, (s₂.table t).Covers e := by
        rw [htable]
        refine Table.covers_made (fun e he => covers e ?_) hmakes.made
        exact List.mem_of_mem_filter he
      obtain ⟨s₃, hafter, hfire⟩ := fireAll_eq hcovers u
      have hfires : (s₂.table t).firesOnRows = (s.table t).firesOnRows := by
        rw [htable]
        rfl
      have hround : (s₂.table t).round false made = (s.table t).round false made := by
        rw [htable, Table.round_setEngine]
      have hfirst : (s₂.table t).firstRefusal? false made = (s.table t).firstRefusal? false made := by
        rw [htable]
        rfl
      rw [hfires, hfirst] at hfire
      rw [hround] at hafter
      rw [bind_of_ok hstoring, hfire]
      cases hkept : (s.table t).firstRefusal? false made with
      | some cause => exact .rejected before hrefusal hstoring hmakes hafter.toAdds hkept
      | none => exact .done before hrefusal hstoring hmakes hafter.toAdds hkept

/-! ## One change -/

/-- A change of one row, once it is known: triggers and constraints before it, the change unless a trigger
has handled it, and triggers and constraints after it. -/
def changeOne (t u : Nat) (fires : Bool) (e : Edit) : Action Store Unit := do
  let handled ← fireBeforeRow t u e.old e.new
  if fires && handled then
    pure ()
  else
    let made ← makeOne t u e
    fireAll t u fires [made]

theorem run_insert (t u : Nat) (r : Row) : (Call.insert t r).run u = (do
    beginChange t u
    let fitted ← Draft.run (fitRow t u) r
    let s ← get
    changeOne t u (s.table t).firesOnRows ⟨none, some fitted.2⟩) := by
  rw [← Call.run_script]
  unfold Call.script Script.insert changeOne makeOne fireAll
  simp only [Script.run_bind, Script.run_beginChange, Script.run_step, Script.run_table,
    Script.run_fireBeforeRow, bind_assoc, pure_bind]
  refine bind_congr fun _ => bind_congr fun fitted => bind_congr fun s => bind_congr fun handled => ?_
  cases (s.table t).firesOnRows <;> cases handled <;> simp

theorem run_delete (t u : Nat) (r : Row) : (Call.delete t r).run u = (do
    beginChange t u
    let s ← get
    changeOne t u (s.table t).firesOnRows ⟨some r, none⟩) := by
  rw [← Call.run_script]
  unfold Call.script Script.delete changeOne makeOne fireAll
  simp only [Script.run_bind, Script.run_beginChange, Script.run_table,
    Script.run_fireBeforeRow, bind_assoc, pure_bind]
  refine bind_congr fun _ => bind_congr fun s => bind_congr fun handled => ?_
  cases (s.table t).firesOnRows <;> cases handled <;> simp

theorem changeOne_unfolds {call : Call} {e : Edit} (target : call.target? = some t)
    (storing : ∀ left, call.storing u left = left.mapM (makeOne t u))
    (leaves : ∀ left, left = [] ∨ left = [e] → call.Leaves left) (covers : (s.table t).Covers e)
    (begun : Adds [] s s₁) (run : call.run u s = changeOne t u (s₁.table t).firesOnRows e s₁) :
    call.Unfolds t u [e] s (call.run u s) := by
  rw [begun.table] at run
  obtain ⟨s₂, hbefore, hfire⟩ := fireBeforeRow_eq (s := s₁) (t := t) (by rwa [begun.table]) u
  rw [begun.table] at hbefore hfire
  have hround : (s.table t).round true [e] = (s.table t).bracket true e := by
    unfold Table.round
    rw [Table.round, ite_self, List.append_nil]
  have hleft : (s.table t).unhandled [e] = if (s.table t).handles true e then [] else [e] := by
    unfold Table.unhandled
    rw [List.filter_singleton]
    cases (s.table t).handles true e <;> rfl
  have hfirst : (s.table t).firstRefusal? true [e] = (s.table t).refusal? true e := by
    unfold Table.firstRefusal?
    rw [List.findSome?_singleton]
  refine unfolds_of target (leaves _ ?_) (List.forall_mem_singleton.2 covers) (?_ : Adds _ s s₂) ?_
  · rw [hleft]
    cases (s.table t).handles true e
    · exact Or.inr rfl
    · exact Or.inl rfl
  · rw [hround]
    exact begun.trans hbefore.toAdds
  · rw [run, hfirst, storing, hleft]
    unfold changeOne
    cases hrefusal : (s.table t).refusal? true e with
    | some cause =>
      rw [hrefusal] at hfire
      exact bind_of_error hfire
    | none =>
      rw [hrefusal] at hfire
      refine (bind_of_ok hfire).trans ?_
      rw [Table.fires_and_handles]
      cases (s.table t).handles true e with
      | true =>
        unfold fireAll
        simp
      | false => simp

theorem insert_unfolds {r : Row} {n : Nat} {fitted : List Row} (recording : (s.table t).Recording)
    (begins : beginChange t u s = .ok () s₁) (fits : fitAll t u ([r].take n) s₁ = .ok fitted s')
    (enough : 1 ≤ n ∨ ((s.table t).firstRefusal? true ((Call.insert t r).edits fitted)).isSome) :
    (Call.insert t r).Unfolds t u ((Call.insert t r).edits fitted) s ((Call.insert t r).run u s) := by
  have hbegun : Adds [] s s₁ := adds_beginChange begins
  cases n with
  | zero =>
    -- a change whose row is not fitted is not refused either
    cases fits
    rcases enough with h | h <;> cases h
  | succ n =>
    rw [List.take_succ_cons, List.take_nil, fitAll_cons] at fits
    obtain ⟨⟨⟨⟩, new⟩, s₂, hfit, fits⟩ := bind_eq_ok.1 fits
    cases fits
    have hwidth := width_of_fitted hfit
    rw [hbegun.table] at hwidth
    refine changeOne_unfolds rfl (fun _ => rfl) ?_ ?_ (?_ : Adds [] s s') ?_
    · rintro left (rfl | rfl)
      · exact Or.inl rfl
      · exact Or.inr ⟨_, rfl, Or.inl rfl⟩
    · exact ⟨recording, fun r hr => Option.some.inj hr ▸ hwidth⟩
    · exact hbegun.trans (adds_fitted hfit)
    · rw [run_insert, bind_of_ok begins, bind_of_ok hfit]
      rfl

theorem delete_unfolds {r : Row} (recording : (s.table t).Recording)
    (begins : beginChange t u s = .ok () s₁) :
    (Call.delete t r).Unfolds t u [⟨some r, none⟩] s ((Call.delete t r).run u s) := by
  refine changeOne_unfolds rfl (fun _ => rfl) ?_ ⟨recording, nofun⟩ (adds_beginChange begins) ?_
  · rintro left (rfl | rfl)
    · exact Or.inl rfl
    · exact Or.inr ⟨_, rfl, Or.inr rfl⟩
  · rw [run_delete, bind_of_ok begins]
    rfl

/-! ## Changes of several rows -/

theorem run_update (t u : Nat) (canceled : Nat → Bool) (pairs : List (Row × Row)) :
    (Call.update t canceled pairs).run u = (do
      beginChange t u
      let s ← get
      let left ← prepare t u (s.table t).firesOnRows pairs
      let made ← (Call.update t canceled pairs).storing u (left.map .ofPair)
      fireAll t u (s.table t).firesOnRows made) := by
  rw [← Call.run_script]
  unfold Call.script Script.update Call.storing fireAll
  simp only [Script.run_bind, Script.run_beginChange, Script.run_table, Script.run_prepare,
    Script.run_updateRows, bind_assoc, pure_bind]
  refine bind_congr fun _ => bind_congr fun s => bind_congr fun left => ?_
  rw [olds_ofPair, news_ofPair]
  refine bind_congr fun done => ?_
  unfold remade
  rw [olds_ofPair, ← List.map_uncurry_zip_eq_zipWith]
  cases (s.table t).firesOnRows with
  | false => rfl
  | true =>
    simp
    refine (Script.run_forM _ _).trans ?_
    simp only [Script.run_fireAfterRow]
    rfl

theorem unhandled_ofPair (table : Table) (pairs : List (Row × Row)) :
    table.unhandled (pairs.map .ofPair) = (leftPairs table pairs).map .ofPair := List.filter_map

theorem covers_fittedPairs {rows fitted : List Row} (pairs : List (Row × Row))
    (recording : (s.table t).Recording) (fits : fitAll t u rows s = .ok fitted s') :
    ∀ e ∈ (fittedPairs pairs fitted).map .ofPair, (s.table t).Covers e := by
  intro e he
  obtain ⟨pair, hpair, rfl⟩ := List.mem_map.1 he
  unfold fittedPairs at hpair
  rw [← List.map_uncurry_zip_eq_zipWith] at hpair
  obtain ⟨p, hp, rfl⟩ := List.mem_map.1 hpair
  refine ⟨recording, fun r hr => ?_⟩
  cases hr
  exact fitAll_width fits _ (List.of_mem_zip hp).2

theorem update_unfolds {canceled : Nat → Bool} {pairs : List (Row × Row)} {n : Nat}
    {fitted : List Row} (recording : (s.table t).Recording) (begins : beginChange t u s = .ok () s₁)
    (fits : fitAll t u ((pairs.map underOldKey).take n) s₁ = .ok fitted s')
    (enough : pairs.length ≤ n ∨
      ((s.table t).firstRefusal? true ((fittedPairs pairs fitted).map .ofPair)).isSome) :
    (Call.update t canceled pairs).Unfolds t u ((fittedPairs pairs fitted).map .ofPair) s
      ((Call.update t canceled pairs).run u s) := by
  have hbegun : Adds [] s s₁ := adds_beginChange begins
  have htable := hbegun.table t
  rw [← htable] at recording enough
  obtain ⟨s₂, hround, hprepare⟩ := prepare_eq recording fits enough
  have hcovers := covers_fittedPairs pairs recording fits
  rw [htable] at hround hprepare hcovers
  have hbefore := hbegun.trans hround
  refine unfolds_of rfl ?_ hcovers hbefore ?_
  · rw [unhandled_ofPair]
    exact ⟨_, rfl⟩
  · rw [run_update, bind_of_ok begins, get_bind, htable]
    cases hrefusal : (s.table t).firstRefusal? true ((fittedPairs pairs fitted).map .ofPair) with
    | some cause =>
      rw [hrefusal] at hprepare
      exact bind_of_error hprepare
    | none =>
      rw [hrefusal] at hprepare
      rw [bind_of_ok hprepare, unhandled_ofPair]

end Store

/-! ## Any call -/

/-- The call gets past its lock, and its new rows are fitted, at least up to one that is refused. -/
def Call.Passes (call : Call) (t u : Nat) (fitted : List Row) (s : Store) : Prop :=
  ∃ s₁ s₂ n, beginChange t u s = .ok () s₁ ∧ fitAll t u (call.newRows.take n) s₁ = .ok fitted s₂ ∧
    (call.newRows.length ≤ n ∨ ((s.table t).firstRefusal? true (call.edits fitted)).isSome)

/-- A call that gets past locking and validation, in a table that records what it fires, fires before all
changes that it asks for, makes those that no trigger has handled, and then fires after those. -/
theorem recorded_calls_unfold {call : Call} {t u : Nat} {s : Store} {fitted : List Row}
    (target : call.target? = some t) (recording : (s.table t).Recording)
    (passes : call.Passes t u fitted s) :
    call.Unfolds t u (call.edits fitted) s (call.run u s) := by
  obtain ⟨s₁, s₂, n, begins, fits, enough⟩ := passes
  cases call with
  | lock t exclusive force => cases target
  | insert t r =>
    cases target
    exact insert_unfolds recording begins fits enough
  | delete t r =>
    cases target
    exact delete_unfolds recording begins
  | update t canceled pairs =>
    cases target
    unfold Call.newRows at enough
    rw [List.length_map] at enough
    exact update_unfolds recording begins fits enough

/-! ## Two rows -/

/-- A trigger and a constraint before updates, which let all rows pass, and two after them: the constraint
refuses 9. -/
def watched : Store := (storeOf twoRows none).setTable 7
  { (storeOf twoRows none).table 7 with
    triggers := [⟨1, "EARLY", ⟨2⟩, true, true, false, none⟩, ⟨2, "LATE", ⟨2⟩, false, true, false, none⟩]
    constraints := [⟨3, "ANY", true, .recorded 0 none⟩,
      ⟨4, "NO NINE", false, .recorded 0 (some (.int 9))⟩] }

def nineLast : Call := .update 7 (fun _ => false)
  [(⟨some 0, [some (.int 1)]⟩, ⟨none, [some (.int 3)]⟩),
    (⟨some 1, [some (.int 2)]⟩, ⟨none, [some (.int 9)]⟩)]

/-- An update of two rows gets past validation, and unfolds. -/
theorem update_of_two_rows_unfolds : ∃ fitted, nineLast.target? = some 7 ∧
    (watched.table 7).Recording ∧ nineLast.Passes 7 1 fitted watched ∧
      nineLast.Unfolds 7 1 (nineLast.edits fitted) watched (nineLast.run 1 watched) := by
  have recording : (watched.table 7).Recording := by
    constructor
    · exact List.forall_mem_cons.2 ⟨rfl, List.forall_mem_singleton.2 rfl⟩
    · have hwidth : (watched.table 7).columns.width = 1 := rfl
      rw [hwidth]
      exact List.forall_mem_cons.2 ⟨⟨_, _, rfl, Nat.one_pos⟩,
        List.forall_mem_singleton.2 ⟨_, _, rfl, Nat.one_pos⟩⟩
  have passes : nineLast.Passes 7 1 [⟨some 0, [some (.int 3)]⟩, ⟨some 1, [some (.int 9)]⟩] watched :=
    ⟨_, _, 2, rfl, rfl, Or.inl (Nat.le_refl 2)⟩
  exact ⟨_, rfl, recording, passes, recorded_calls_unfold rfl recording passes⟩

/-- Its second row is refused after both have been stored. -/
example : (final (nineLast.run 1) watched).fired =
    [.row "EARLY" true false, .checked "ANY", .row "EARLY" true false, .checked "ANY",
      .row "LATE" false false, .checked "NO NINE", .row "LATE" false false, .checked "NO NINE"] := by
  decide +kernel

end RowStore
