import RowStore.Proofs.Store.Computed

/-!
# The default of a column, asked for and written

* `Expr.isVacant`, `isNull_of_eval` : an expression on no row is NULL always or never;
* `isNull_again` : so is the default of a column, each time that it is evaluated;
* `result_fit_none` : what comes of fitting a cell that was left out;
* `result_defaultValue` : what is said of it beforehand;
* `Column.Balks` : the default comes out as NULL, and the column does not take it;
* `defaultValue_foretells_fit` : but for that, the two agree;
* `not_defaultValue_foretells_fit` : a column that takes no NULL may still have it for a default, and a
  default that is evaluated again in place of NULL may be refused then.
-/

namespace RowStore
open RowStore.Action RowStore.Store

/-! ## Expressions on no row -/

namespace Expr
variable {e : Expr} {v w z : Value} {n n' : Numbering}

def isVacant : Expr → Bool
  | literal v => v.isNull
  | column .. => true
  | nextValue _ => false
  | add e f | compare _ e f => e.isVacant || f.isVacant

/-- An operation that never yields NULL yields it just for NULLs. -/
theorem isNull_of_lifted {op : Value → Value → Except StoreError Value}
    (hop : ∀ v w z, op v w = .ok z → z.isNull = false) (h : lifted op v w = .ok z) :
    z.isNull = (v.isNull || w.isNull) := by
  unfold lifted at h
  cases hnull : v.isNull || w.isNull with
  | true =>
    rw [if_pos hnull] at h
    cases h
    rfl
  | false =>
    rw [if_neg (by simp [hnull])] at h
    cases htype : DataType.common v.dataType w.dataType with
    | error cause =>
      rw [htype] at h
      cases h
    | ok type =>
      rw [htype] at h
      change (do op (← v.convertTo type) (← w.convertTo type)) = _ at h
      cases hv : v.convertTo type with
      | error cause =>
        rw [hv] at h
        cases h
      | ok v' =>
        cases hw : w.convertTo type with
        | error cause =>
          rw [hv, hw] at h
          cases h
        | ok w' =>
          rw [hv, hw] at h
          exact hop v' w' z h

theorem isNull_of_sum (h : sum v w = .ok z) : z.isNull = false := by
  unfold sum at h
  split at h
  · split at h <;> cases h <;> rfl
  · split at h <;> cases h
    rfl
  · cases h
    rfl
  · cases h

theorem isNull_of_eval (h : e.eval none n = .ok v n') : v.isNull = e.isVacant := by
  have hsides {x y : Action Numbering Value} {op : Value → Value → Except StoreError Value}
      {n n' : Numbering} {z : Value} (hop : ∀ v w z, op v w = .ok z → z.isNull = false)
      {left right : Bool} (hx : ∀ {v n n'}, x n = .ok v n' → v.isNull = left)
      (hy : ∀ {w n n'}, y n = .ok w n' → w.isNull = right)
      (h : (do ofExcept (lifted op (← x) (← y))) n = .ok z n') : z.isNull = (left || right) := by
    obtain ⟨v, n₁, hv, h⟩ := bind_eq_ok.1 h
    obtain ⟨w, n₂, hw, h⟩ := bind_eq_ok.1 h
    rw [← hx hv, ← hy hw]
    cases hz : lifted op v w with
    | error cause =>
      rw [hz] at h
      cases h
    | ok z' =>
      rw [hz] at h
      cases h
      exact isNull_of_lifted hop hz
  induction e generalizing n n' v with
  | literal value =>
    cases h
    rfl
  | column place name =>
    cases h
    rfl
  | nextValue ref =>
    obtain ⟨k, n₁, -, h⟩ := bind_eq_ok.1 h
    cases h
    rfl
  | add e f he hf => exact hsides (fun _ _ _ => isNull_of_sum) he hf h
  | compare op e f he hf =>
    refine hsides (fun _ _ _ hz => ?_) he hf h
    cases hz
    rfl

end Expr

/-! ## Cells that are left out -/

namespace Column
variable {c : Column} {e : Expr} {v w : Value} {n n' m m' : Numbering} {fault : Fault}

theorem isNull_of_convert (h : c.convert v = .ok w) : w.isNull = v.isNull := by
  by_cases hv : v = .null
  · have hnull : c.convert v = .ok v := if_pos (Or.inr hv)
    cases hnull.symm.trans h
    rfl
  · obtain ⟨hw, -⟩ := Value.type_of_converted hv h
    cases v <;> cases w <;> first | rfl | contradiction

theorem convert_of_takes (h : c.Takes v) : c.convert v = .ok v := by
  rcases h with ⟨hnull, -⟩ | ⟨-, htype⟩
  · exact if_pos (Or.inr hnull)
  · exact if_pos (Or.inl htype)

theorem evalDefault_of_none (h : c.default = none) : c.evalDefault = pure .null := by
  unfold evalDefault
  rw [h]

/-- The default is evaluated and converted; that it is remembered does not change it. -/
theorem result_evalDefault (h : c.default = some e) (n : Numbering) :
    result c.evalDefault n = result (do ofExcept (c.convert (← e.eval none))) n := by
  have hremembered (v : Value) (n : Numbering) : result (do
      if c.sequence.isSome then
        Numbering.remember v
      pure v) n = .ok v := by
    cases c.sequence <;> rfl
  unfold evalDefault
  rw [h]
  dsimp only
  cases he : e.eval none n with
  | error fault n' => rw [result_bind_of_error he, result_bind_of_error he]
  | ok v n' =>
    rw [result_bind_of_ok he, result_bind_of_ok he]
    cases c.convert v with
    | error cause => rfl
    | ok w => exact hremembered w n'

/-- What the default comes out as is converted. -/
theorem converted_of_evalDefault (h : c.default = some e) (hv : c.evalDefault n = .ok v n') :
    ∃ u m, e.eval none n = .ok u m ∧ c.convert u = .ok v := by
  have hresult := (result_evalDefault h n).symm.trans (result_of_ok hv)
  cases he : e.eval none n with
  | error fault m =>
    rw [result_bind_of_error he] at hresult
    cases hresult
  | ok u m =>
    rw [result_bind_of_ok he] at hresult
    refine ⟨u, m, rfl, ?_⟩
    cases hu : c.convert u with
    | error cause =>
      rw [hu] at hresult
      cases hresult
    | ok w =>
      rw [hu] at hresult
      cases hresult
      rfl

/-- The default comes out as NULL always or never. -/
theorem isNull_again (hv : c.evalDefault n = .ok v n') (hw : c.evalDefault m = .ok w m') :
    w.isNull = v.isNull := by
  cases hd : c.default with
  | none =>
    rw [evalDefault_of_none hd] at hv hw
    cases hv
    cases hw
    rfl
  | some e =>
    obtain ⟨v', n₁, hev, hcv⟩ := converted_of_evalDefault hd hv
    obtain ⟨w', m₁, hew, hcw⟩ := converted_of_evalDefault hd hw
    rw [isNull_of_convert hcv, isNull_of_convert hcw, Expr.isNull_of_eval hev, Expr.isNull_of_eval hew]

/-- What is to be written once a default has taken the place of NULL is accepted or refused in the end. -/
theorem result_fit_none {first : Value} {second : Fitted} {n₁ n₂ : Numbering}
    (hfirst : c.evalDefault n = .ok first n₁) (hsecond : c.replaceNull first n₁ = .ok second n₂) :
    result (c.fit none) n = (result (c.accept (second.value (some first))) n₂).map fun third =>
      .replaced (third.value (some (second.value (some first)))) := by
  have hfit : result (c.fit none) n = result (do
      let third ← c.accept (second.value (some first))
      pure (Fitted.replaced (third.value (some (second.value (some first)))))) n₂ :=
    (result_bind_of_ok hfirst).trans (result_bind_of_ok hsecond)
  rw [hfit]
  cases h : c.accept (second.value (some first)) n₂ with
  | error fault n₃ =>
    rw [result_bind_of_error h, result_of_error h]
    rfl
  | ok third n₃ =>
    rw [result_bind_of_ok h, result_of_ok h]
    rfl

theorem result_accept_null (c : Column) (n : Numbering) : result (c.accept .null) n =
    if c.nullable then .ok .unchanged else .error (.error (.nullNotAllowed c.name)) := by
  have haccept : c.accept .null =
      if c.nullable then pure .unchanged else refuse (.nullNotAllowed c.name) := rfl
  rw [haccept]
  cases c.nullable <;> rfl

theorem result_accept_of_type (hv : v.isNull = false) (htype : v.dataType = c.dataType) (n : Numbering) :
    result (c.accept v) n = .ok .unchanged := by
  unfold accept
  rw [if_neg (by simp [hv]), if_pos htype]
  unfold observe
  cases c.sequence <;> cases v.toInt? <;> rfl

/-- A default other than NULL is of the column's type and is written as it is. -/
theorem result_fit_of_value (h : c.evalDefault n = .ok v n') (hv : v.isNull = false) :
    result (c.fit none) n = .ok (.replaced v) := by
  have htype : v.dataType = c.dataType := by
    cases hd : c.default with
    | none =>
      rw [evalDefault_of_none hd] at h
      cases h
      cases hv
    | some e =>
      obtain ⟨u, m, -, hconvert⟩ := converted_of_evalDefault hd h
      refine (Value.type_of_converted ?_ hconvert).2
      rintro rfl
      rw [isNull_of_convert hconvert] at hv
      cases hv
  have hkept : c.replaceNull v n' = .ok .unchanged n' := by
    unfold replaceNull
    rw [if_neg (by simp [hv])]
    rfl
  have haccept : result (c.accept v) n' = .ok .unchanged := result_accept_of_type hv htype n'
  rw [result_fit_none h hkept]
  exact congrArg (Except.map _) haccept

/-- In place of a default of NULL comes NULL again, or the default is refused when it is evaluated once
more. -/
theorem replaceNull_cases (h : c.evalDefault n = .ok .null n') :
    (∃ second m, c.replaceNull .null n' = .ok second m ∧ second.value (some .null) = .null) ∨
    (c.nullToDefault = true ∧ ∃ fault m, c.evalDefault n' = .error fault m ∧
      c.replaceNull .null n' = .error fault m) := by
  unfold replaceNull
  cases hto : c.nullToDefault with
  | false => exact Or.inl ⟨.unchanged, n', rfl, rfl⟩
  | true =>
    cases hw : c.evalDefault n' with
    | error fault m => exact Or.inr ⟨rfl, fault, m, rfl, bind_of_error hw⟩
    | ok w m =>
      have hnull := isNull_again h hw
      have hw' : w = .null := by cases w <;> first | rfl | cases hnull
      exact Or.inl ⟨.replaced w, m, bind_of_ok hw, hw'⟩

/-- The default comes out as NULL, and the column does not take it: it takes no NULL at all, or it asks for
the default in place of NULL, and that is refused when it is evaluated once more. -/
structure Balks (c : Column) (n : Numbering) : Prop where
  given : c.default.isSome = true
  refused : ∃ n', c.evalDefault n = .ok .null n' ∧ (c.nullable = false ∨
    c.nullToDefault = true ∧ ∃ fault m, c.evalDefault n' = .error fault m)

theorem Balks.result_fit (h : c.Balks n) : ∃ fault, result (c.fit none) n = .error fault := by
  obtain ⟨n', hnull, hrefused⟩ := h.refused
  rcases replaceNull_cases hnull with ⟨second, m, hsecond, hvalue⟩ | ⟨-, fault, m, -, hsecond⟩
  · rcases hrefused with hnullable | ⟨hto, fault, m', hagain⟩
    · rw [result_fit_none hnull hsecond, hvalue, result_accept_null, if_neg (by simp [hnullable])]
      exact ⟨_, rfl⟩
    · have hfailed : c.replaceNull .null n' = .error fault m' := by
        unfold replaceNull
        rw [if_pos (by simp [hto, Value.isNull])]
        exact bind_of_error hagain
      cases hfailed.symm.trans hsecond
  · exact ⟨fault, (result_bind_of_ok hnull).trans (result_bind_of_error hsecond)⟩

/-- But for that, the default is what is written. -/
theorem result_fit_of_not_balks (hgiven : c.default.isSome = true) (h : ¬ c.Balks n) :
    (result (c.fit none) n).map (Fitted.value none) = result c.evalDefault n := by
  cases hd : c.evalDefault n with
  | error fault n' =>
    have hfit : result (c.fit none) n = .error fault := result_bind_of_error hd
    rw [result_of_error hd, hfit]
    rfl
  | ok v n' =>
    rw [result_of_ok hd]
    cases hv : v.isNull with
    | false =>
      rw [result_fit_of_value hd hv]
      rfl
    | true =>
      obtain rfl : v = .null := by cases v <;> first | rfl | cases hv
      rcases replaceNull_cases hd with ⟨second, m, hsecond, hvalue⟩ | ⟨hto, fault, m, hagain, -⟩
      · have hnullable : c.nullable = true :=
          eq_true_of_ne_false fun hno => h ⟨hgiven, n', hd, Or.inl hno⟩
        rw [result_fit_none hd hsecond, hvalue, result_accept_null, if_pos hnullable]
        rfl
      · exact absurd ⟨hgiven, n', hd, Or.inr ⟨hto, fault, m, hagain⟩⟩ h

end Column

/-! ## Tables -/

section Tables
variable {t u place : Nat} {s : Store} {c : Column} {e : Expr}

/-- What is read off the sequences by way of the store. -/
theorem result_onNumbering_bind {α β : Type} (act : Action Numbering α) (f : α → Except StoreError β) :
    result (onNumbering u act >>= fun a => ofExcept (f a)) s =
      result (act >>= fun a => ofExcept (f a)) (s.numbering u) := by
  cases h : act (s.numbering u) with
  | error fault n =>
    have hstore : onNumbering u act s = .error fault (s.setNumbering u n) := within_of_error h
    rw [result_bind_of_error h, result_bind_of_error hstore]
  | ok a n =>
    have hstore : onNumbering u act s = .ok a (s.setNumbering u n) := within_of_ok h
    rw [result_bind_of_ok h, result_bind_of_ok hstore]
    cases f a <;> rfl

/-- A default that is asked for is evaluated and converted, but not accepted. -/
theorem result_defaultValue_of_some (hc : (s.table t).columns.get? place = some c)
    (hd : c.default = some e) :
    result (defaultValue t u place) s = result c.evalDefault (s.numbering u) := by
  have hfound : (slot (some c) : Action Store Column) = pure c := rfl
  have heval : defaultValue t u place s =
      (onNumbering u (e.eval none) >>= fun v => ofExcept (c.convert v)) s := by
    unfold defaultValue
    rw [get_bind, hc, hfound, pure_bind, hd]
  rw [result_congr heval, result_onNumbering_bind, Column.result_evalDefault hd]

/-- Without a default, the cell is fitted. -/
theorem result_defaultValue_of_none (hc : (s.table t).columns.get? place = some c)
    (hd : c.default = none) : result (defaultValue t u place) s =
      (result (c.fit none) (s.numbering u)).map (Fitted.value none) := by
  have hfound : (slot (some c) : Action Store Column) = pure c := rfl
  have hfitted : defaultValue t u place s =
      (onNumbering u (c.fit none) >>= fun fitted => ofExcept (c.convert (fitted.value none))) s := by
    unfold defaultValue
    rw [get_bind, hc, hfound, pure_bind, hd]
    rfl
  rw [result_congr hfitted, result_onNumbering_bind]
  cases h : c.fit none (s.numbering u) with
  | error fault n =>
    rw [result_bind_of_error h, result_of_error h]
    rfl
  | ok fitted n =>
    rw [result_bind_of_ok h, result_of_ok h, Column.convert_of_takes (c.takes_of_fitted h)]
    rfl

theorem result_onNumbering {α : Type} (u : Nat) (act : Action Numbering α) (s : Store) :
    result (onNumbering u act) s = result act (s.numbering u) := by
  unfold onNumbering result Action.within
  cases act (s.numbering u) <;> rfl

/-- What is said of the default of a column comes to the same as what is written in place of a cell that is
left out, be it a value or a refusal, unless the default is NULL and the column does not take it.  Then it
is said to be NULL, and the cell is refused. -/
theorem defaultValue_foretells_fit (hc : (s.table t).columns.get? place = some c) :
    (¬ c.Balks (s.numbering u) → result (defaultValue t u place) s =
      (result (onNumbering u (c.fit none)) s).map (Fitted.value none)) ∧
    (c.Balks (s.numbering u) → result (defaultValue t u place) s = .ok .null ∧
      ∃ fault, result (onNumbering u (c.fit none)) s = .error fault) := by
  rw [result_onNumbering]
  cases hd : c.default with
  | none =>
    refine ⟨fun _ => result_defaultValue_of_none hc hd, fun h => ?_⟩
    have hgiven := h.given
    rw [hd] at hgiven
    cases hgiven
  | some e =>
    rw [result_defaultValue_of_some hc hd]
    refine ⟨fun h => (c.result_fit_of_not_balks (by simp [hd]) h).symm, fun h => ⟨?_, h.result_fit⟩⟩
    obtain ⟨n, hnull, -⟩ := h.refused
    exact result_of_ok hnull

end Tables

def lastOfFive : Sequence := ⟨⟨1, "FIVE", 1, 1, 1, 5, false, false⟩, 5, some 4, false⟩

def besideFive (c : Column) : Store := { withColumns [c] with sequences := ⟨[(1, lastOfFive)]⟩ }

/-- The number after the next one but one, for a column that takes no NULL. -/
def aheadOfFive : Column := .build "N" .int
  [.identity ⟨1, "FIVE"⟩, .default (.add (.nextValue ⟨1, "FIVE"⟩) (.literal (.int 2))), .nullToDefault]

/-- The last number of the sequence is drawn, added to and converted, whether the sum is asked for or
written. -/
theorem ahead_of_five_comes_true :
    ((besideFive aheadOfFive).table 7).columns.get? 0 = some aheadOfFive ∧
      result (defaultValue 7 1 0) (besideFive aheadOfFive) = .ok (.int 7) ∧
      (result (onNumbering 1 (aheadOfFive.fit none)) (besideFive aheadOfFive)).map (Fitted.value none) =
        .ok (.int 7) := by
  have hc : ((besideFive aheadOfFive).table 7).columns.get? 0 = some aheadOfFive := rfl
  have hsaid : result (defaultValue 7 1 0) (besideFive aheadOfFive) = .ok (.int 7) := rfl
  refine ⟨hc, hsaid, ((defaultValue_foretells_fit hc).1 ?_).symm.trans hsaid⟩
  rintro ⟨-, n, hnull, -⟩
  cases hnull

/-- What was said comes true: both are one value, or both are refusals. -/
def ComesTrue (said came : Except Fault Value) : Prop :=
  (∃ v, said = .ok v ∧ came = .ok v) ∨ ∃ fault fault', said = .error fault ∧ came = .error fault'

/-- The default of a column is said to be NULL though the column takes none.  Where it takes NULL, but asks
for the default in place of it, the default is said to be NULL though it draws a number each time that it
is evaluated, and only one number is left. -/
theorem not_defaultValue_foretells_fit :
    (¬ ∀ (t u place : Nat) (s : Store) (c : Column), (s.table t).columns.get? place = some c →
      c.computed = none → c.nullToDefault = false → ComesTrue (result (defaultValue t u place) s)
        ((result (onNumbering u (c.fit none)) s).map (Fitted.value none))) ∧
    ¬ ∀ (t u place : Nat) (s : Store) (c : Column), (s.table t).columns.get? place = some c →
      c.computed = none → c.nullable = true → ComesTrue (result (defaultValue t u place) s)
        ((result (onNumbering u (c.fit none)) s).map (Fitted.value none)) := by
  constructor
  · intro hall
    let c : Column := .build "N" .int [.notNull, .default (.literal .null)]
    rcases hall 7 1 0 (besideFive c) c rfl rfl rfl with ⟨v, hsaid, hcame⟩ | ⟨fault, fault', hsaid, -⟩
    · cases hcame
    · cases hsaid
  · intro hall
    let c : Column := .build "N" .int
      [.default (.add (.nextValue ⟨1, "FIVE"⟩) (.literal .null)), .nullToDefault]
    rcases hall 7 1 0 (besideFive c) c rfl rfl rfl with ⟨v, hsaid, hcame⟩ | ⟨fault, fault', hsaid, -⟩
    · cases hcame
    · cases hsaid

end RowStore
