import Mathlib.Algebra.Ring.Int.Defs
import RowStore.Expr
import RowStore.Proofs.Action
import RowStore.Proofs.Sequence.Numbers

/-!
# Sums of integers

* `Value.IsSummand` : NULL or an integer, of 32 or 64 bits;
* `Expr.lifted_of_common` : an operation on two values, by their counterparts in the common type;
* `lifted_sum_of_integers` : the sum of two integers is exact, or refused where it is no word;
* `Expr.AddsIntegers` : an expression that adds such values and nothing else;
* `Expr.addends`, `Expr.total`, `Expr.parts` : what it adds, the sum of that, and the sums on the way;
* `AddsIntegers.eval_eq` : how such an expression ends;
* `sums_are_exact` : it is refused just where a sum without NULL on the way leaves 64 bits, and else exact.

Both sides of a sum are evaluated before either is looked at, so that a NULL on one side does not hide
a refusal on the other.
-/

namespace RowStore
open RowStore.Action

/-! ## Two values -/

theorem toInt_ofInt_of_isWord {a : Int} (h : IsWord a) : (Int64.ofInt a).toInt = a := by
  unfold IsWord at h
  simp only [Int64.toInt_minValue, Int64.toInt_maxValue] at h
  exact Int64.toInt_ofInt_of_le (by omega) (by omega)

namespace Value
variable {v : Value} {a : Int}

def IsSummand (v : Value) : Prop := v = .null ∨ ∃ a, v.toInt? = some a

theorem isWord_of_toInt? (h : v.toInt? = some a) : IsWord a := by
  cases v with
  | int n =>
    cases h
    have hlow := n.minValue_le_toInt
    have hhigh := n.toInt_le
    unfold IsWord
    simp only [Int32.toInt_minValue, Int32.toInt_maxValue, Int64.toInt_minValue,
      Int64.toInt_maxValue] at *
    omega
  | bigInt n =>
    cases h
    exact ⟨n.minValue_le_toInt, n.toInt_le⟩
  | null | boolean | double | text => cases h

theorem isNull_of_toInt? (h : v.toInt? = some a) : v.isNull = false := by
  cases v <;> first | rfl | cases h

/-- Every integer is one of 64 bits. -/
theorem convertTo_bigInt (h : v.toInt? = some a) :
    v.convertTo .bigInt = .ok (.bigInt (Int64.ofInt a)) := by
  have hword := isWord_of_toInt? h
  cases v with
  | int n =>
    cases h
    have hfits : fit64? n.toInt = some (Int64.ofInt n.toInt) := if_pos hword
    have hcounterpart : (int n).counterpart? .bigInt = some (.bigInt (Int64.ofInt n.toInt)) :=
      congrArg (Option.map bigInt) hfits
    unfold convertTo
    rw [if_neg (by simp [dataType]), hcounterpart]
  | bigInt n =>
    cases h
    rw [Int64.ofInt_toInt]
    exact if_pos (Or.inl rfl)
  | null | boolean | double | text => cases h

end Value

namespace Expr
variable {v w x y : Value} {a b : Int} {type : DataType}

theorem lifted_of_null (op : Value → Value → Except StoreError Value)
    (h : v.isNull = true ∨ w.isNull = true) : lifted op v w = .ok .null := by
  unfold lifted
  rw [if_pos (by simpa using h)]
  rfl

theorem lifted_of_common (op : Value → Value → Except StoreError Value) (hv : v.isNull = false)
    (hw : w.isNull = false) (htype : DataType.common v.dataType w.dataType = .ok type)
    (hx : v.convertTo type = .ok x) (hy : w.convertTo type = .ok y) : lifted op v w = op x y := by
  unfold lifted
  rw [if_neg (by simp [hv, hw]), htype]
  change (do op (← v.convertTo type) (← w.convertTo type)) = op x y
  rw [hx, hy]
  rfl

/-- Sums of 32 bits become sums of 64. -/
theorem sum_int (m n : Int32) : ∃ z, sum (.int m) (.int n) = .ok z ∧
    z.toInt? = some (m.toInt + n.toInt) := by
  have hm := m.minValue_le_toInt
  have hn := n.minValue_le_toInt
  have hm' := m.toInt_le
  have hn' := n.toInt_le
  unfold sum fit32?
  dsimp only
  simp only [Int32.toInt_minValue, Int32.toInt_maxValue] at *
  split_ifs with hfits
  · refine ⟨_, rfl, congrArg some ?_⟩
    exact Int32.toInt_ofInt_of_le (by omega) (by omega)
  · refine ⟨_, rfl, congrArg some ?_⟩
    exact Int64.toInt_ofInt_of_le (by omega) (by omega)

/-- Sums of 64 bits are refused where they are no word. -/
theorem sum_bigInt (ha : IsWord a) (hb : IsWord b) :
    sum (.bigInt (Int64.ofInt a)) (.bigInt (Int64.ofInt b)) =
      if IsWord (a + b) then .ok (.bigInt (Int64.ofInt (a + b)))
      else .error (.dataConversion (toString a ++ " + " ++ toString b) .bigInt) := by
  unfold sum
  dsimp only
  rw [toInt_ofInt_of_isWord ha, toInt_ofInt_of_isWord hb]
  by_cases hfits : IsWord (a + b)
  · have hsum : fit64? (a + b) = some (Int64.ofInt (a + b)) := if_pos hfits
    rw [if_pos hfits, hsum]
  · have hsum : fit64? (a + b) = none := if_neg hfits
    rw [if_neg hfits, hsum]

theorem lifted_sum_of_integers (hv : v.toInt? = some a) (hw : w.toInt? = some b) :
    (IsWord (a + b) ∧ ∃ z, lifted sum v w = .ok z ∧ z.toInt? = some (a + b)) ∨
    (¬ IsWord (a + b) ∧ ∃ text, lifted sum v w = .error (.dataConversion text .bigInt)) := by
  have hvnull := Value.isNull_of_toInt? hv
  have hwnull := Value.isNull_of_toInt? hw
  have hwide (htype : DataType.common v.dataType w.dataType = .ok .bigInt) :
      (IsWord (a + b) ∧ ∃ z, lifted sum v w = .ok z ∧ z.toInt? = some (a + b)) ∨
      (¬ IsWord (a + b) ∧ ∃ text, lifted sum v w = .error (.dataConversion text .bigInt)) := by
    rw [lifted_of_common sum hvnull hwnull htype (Value.convertTo_bigInt hv) (Value.convertTo_bigInt hw),
      sum_bigInt (Value.isWord_of_toInt? hv) (Value.isWord_of_toInt? hw)]
    by_cases hfits : IsWord (a + b)
    · rw [if_pos hfits]
      exact Or.inl ⟨hfits, _, rfl, congrArg some (toInt_ofInt_of_isWord hfits)⟩
    · rw [if_neg hfits]
      exact Or.inr ⟨hfits, _, rfl⟩
  cases v with
  | int m =>
    cases w with
    | int n =>
      -- Two sums of 32 bits never leave 64.
      cases hv
      cases hw
      obtain ⟨z, hz, hexact⟩ := sum_int m n
      have hlifted : lifted sum (.int m) (.int n) = sum (.int m) (.int n) :=
        lifted_of_common sum rfl rfl rfl rfl rfl
      exact Or.inl ⟨Value.isWord_of_toInt? hexact, z, hlifted.trans hz, hexact⟩
    | bigInt n => exact hwide rfl
    | null | boolean | double | text => cases hw
  | bigInt m =>
    cases w with
    | int n => exact hwide rfl
    | bigInt n => exact hwide rfl
    | null | boolean | double | text => cases hw
  | null | boolean | double | text => cases hv

/-! ## Trees -/

/-- What stands in a column: NULL without a row, nothing past the end of one. -/
def cell? : Option Row → Nat → Option Value
  | none, _ => some .null
  | some r, place => r.value? place

/-- The expression adds integers and NULLs, which it is given or finds in columns that the row has. -/
inductive AddsIntegers (row : Option Row) : Expr → Prop where
  | literal {v : Value} (hv : v.IsSummand) : AddsIntegers row (.literal v)
  | column {place : Nat} {v : Value} (name : String) (hcell : cell? row place = some v)
    (hv : v.IsSummand) : AddsIntegers row (.column place name)
  | add {e f : Expr} (he : AddsIntegers row e) (hf : AddsIntegers row f) : AddsIntegers row (.add e f)

/-- The values that a sum adds, from left to right. -/
def addends (row : Option Row) : Expr → List Value
  | literal v => [v]
  | column place _ => (cell? row place).toList
  | add e f => e.addends row ++ f.addends row
  | nextValue _ | compare .. => []

def total (row : Option Row) (e : Expr) : Int := ((e.addends row).filterMap Value.toInt?).sum

/-- The sums that a sum is made of, with itself and what it adds. -/
def parts : Expr → List Expr
  | add e f => .add e f :: (e.parts ++ f.parts)
  | e => [e]

/-- Some sum on the way adds no NULL and leaves 64 bits. -/
def Overflows (row : Option Row) (e : Expr) : Prop :=
  ∃ part ∈ e.parts, .null ∉ part.addends row ∧ ¬ IsWord (part.total row)

/-- The value is NULL if one of those added is, and else their sum. -/
structure IsTotal (row : Option Row) (e : Expr) (v : Value) : Prop where
  null : .null ∈ e.addends row → v = .null
  exact : .null ∉ e.addends row → v.toInt? = some (e.total row)

section Trees
variable {row : Option Row} {e f : Expr} {v w : Value}

theorem total_add : (add e f).total row = e.total row + f.total row := by
  unfold total
  rw [addends, List.filterMap_append, List.sum_append]

/-- A sum overflows where one of its sides does, or where it leaves 64 bits itself. -/
theorem overflows_add : (add e f).Overflows row ↔ e.Overflows row ∨ f.Overflows row ∨
    .null ∉ (add e f).addends row ∧ ¬ IsWord (e.total row + f.total row) := by
  unfold Overflows
  rw [← total_add]
  constructor
  · rintro ⟨part, hpart, hover⟩
    rcases List.mem_cons.1 hpart with rfl | hpart
    · exact Or.inr (Or.inr hover)
    · rcases List.mem_append.1 hpart with he | hf
      · exact Or.inl ⟨part, he, hover⟩
      · exact Or.inr (Or.inl ⟨part, hf, hover⟩)
  · rintro (⟨part, he, hover⟩ | ⟨part, hf, hover⟩ | hover)
    · exact ⟨part, List.mem_cons_of_mem _ (List.mem_append_left _ he), hover⟩
    · exact ⟨part, List.mem_cons_of_mem _ (List.mem_append_right _ hf), hover⟩
    · exact ⟨_, List.mem_cons_self, hover⟩

/-- A single value is a sum of its own. -/
theorem isTotal_leaf (hv : v.IsSummand) (hparts : e.parts = [e]) (hadds : e.addends row = [v]) :
    ¬ e.Overflows row ∧ e.IsTotal row v := by
  have htotal : e.total row = ([v].filterMap Value.toInt?).sum := by
    unfold total
    rw [hadds]
  rcases hv with rfl | ⟨a, ha⟩
  · refine ⟨?_, fun _ => rfl, fun hnone => absurd (hadds ▸ List.mem_singleton_self _) hnone⟩
    rintro ⟨part, hpart, hnone, -⟩
    rw [hparts] at hpart
    cases List.mem_singleton.1 hpart
    exact hnone (hadds ▸ List.mem_singleton_self _)
  · rw [List.filterMap_cons_some ha, List.filterMap_nil, List.sum_singleton] at htotal
    refine ⟨?_, fun hnull => ?_, fun _ => ha.trans (congrArg some htotal.symm)⟩
    · rintro ⟨part, hpart, -, hover⟩
      rw [hparts] at hpart
      cases List.mem_singleton.1 hpart
      exact hover (htotal ▸ Value.isWord_of_toInt? ha)
    · rw [hadds, List.mem_singleton] at hnull
      exact hnull.symm

/-- Two sums that are added make a further one, unless it leaves 64 bits. -/
theorem IsTotal.add (hv : e.IsTotal row v) (hw : f.IsTotal row w) :
    ((.null ∉ (add e f).addends row ∧ ¬ IsWord (e.total row + f.total row)) ∧
      ∃ text, lifted sum v w = .error (.dataConversion text .bigInt)) ∨
    (¬ (.null ∉ (add e f).addends row ∧ ¬ IsWord (e.total row + f.total row)) ∧
      ∃ z, lifted sum v w = .ok z ∧ (Expr.add e f).IsTotal row z) := by
  by_cases hnull : .null ∈ (Expr.add e f).addends row
  · have hside : v.isNull = true ∨ w.isNull = true := by
      rcases List.mem_append.1 hnull with he | hf
      · exact Or.inl (hv.null he ▸ rfl)
      · exact Or.inr (hw.null hf ▸ rfl)
    exact Or.inr ⟨fun h => h.1 hnull, .null, lifted_of_null sum hside, fun _ => rfl, (absurd hnull ·)⟩
  · obtain ⟨he, hf⟩ := not_or.1 fun h => hnull (List.mem_append.2 h)
    rcases lifted_sum_of_integers (hv.exact he) (hw.exact hf) with
      ⟨hfits, z, hz, hexact⟩ | ⟨hover, text, hrefused⟩
    · refine Or.inr ⟨fun h => h.2 hfits, z, hz, (absurd · hnull), fun _ => ?_⟩
      rw [hexact, total_add]
    · exact Or.inl ⟨⟨hnull, hover⟩, text, hrefused⟩

theorem eval_column {place : Nat} (name : String) (h : cell? row place = some v) :
    (column place name).eval row = pure v := by
  unfold eval
  cases row with
  | none =>
    cases h
    rfl
  | some r =>
    have hcell : r.value? place = some v := h
    dsimp only
    rw [hcell]

/-- A sum is refused because one side is, or because it leaves 64 bits itself, and else is exact. -/
theorem AddsIntegers.eval_eq (h : e.AddsIntegers row) (n : Numbering) :
    (e.Overflows row ∧ ∃ text, e.eval row n = .error (.error (.dataConversion text .bigInt)) n) ∨
    (¬ e.Overflows row ∧ ∃ v, e.eval row n = .ok v n ∧ e.IsTotal row v) := by
  induction h with
  | literal hv =>
    have hleaf : ¬ (Expr.literal _).Overflows row ∧ _ := isTotal_leaf hv rfl rfl
    exact Or.inr ⟨hleaf.1, _, rfl, hleaf.2⟩
  | column name hcell hv =>
    obtain ⟨hfits, htotal⟩ := isTotal_leaf (e := .column _ name) hv rfl (congrArg Option.toList hcell)
    exact Or.inr ⟨hfits, _, congrFun (eval_column name hcell) n, htotal⟩
  | @add e f _ _ ihe ihf =>
    rw [overflows_add]
    rcases ihe with ⟨hover, text, hrefused⟩ | ⟨hefits, v, hv, hvtotal⟩
    · exact Or.inl ⟨Or.inl hover, text, bind_of_error hrefused⟩
    rcases ihf with ⟨hover, text, hrefused⟩ | ⟨hffits, w, hw, hwtotal⟩
    · exact Or.inl ⟨Or.inr (Or.inl hover), text, (bind_of_ok hv).trans (bind_of_error hrefused)⟩
    have hsum : (Expr.add e f).eval row n = ofExcept (lifted sum v w) n :=
      (bind_of_ok hv).trans (bind_of_ok hw)
    rcases hvtotal.add hwtotal with ⟨hover, text, hrefused⟩ | ⟨hfits, z, hz, htotal⟩
    · rw [hrefused] at hsum
      exact Or.inl ⟨Or.inr (Or.inr hover), text, hsum⟩
    · rw [hz] at hsum
      exact Or.inr ⟨not_or.2 ⟨hefits, not_or.2 ⟨hffits, hfits⟩⟩, z, hsum, htotal⟩

end Trees

/-- An expression that adds integers and NULLs is refused just if a sum on the way, itself among them, adds
no NULL and leaves 64 bits; the cause is always that of a conversion.  Else it is NULL if one of those
added is, and otherwise an integer, the sum of all. -/
theorem sums_are_exact {row : Option Row} {e : Expr} (h : e.AddsIntegers row) (n : Numbering) :
    ((∃ fault n', e.eval row n = .error fault n') ↔ ∃ part ∈ e.parts,
      .null ∉ part.addends row ∧ ¬ IsWord ((part.addends row).filterMap Value.toInt?).sum) ∧
    (∀ fault n', e.eval row n = .error fault n' →
      n' = n ∧ ∃ text, fault = .error (.dataConversion text .bigInt)) ∧
    ∀ v n', e.eval row n = .ok v n' → n' = n ∧ (.null ∈ e.addends row → v = .null) ∧
      (.null ∉ e.addends row → v.toInt? = some ((e.addends row).filterMap Value.toInt?).sum) := by
  rcases h.eval_eq n with ⟨hover, text, hrefused⟩ | ⟨hfits, v, hv, htotal⟩
  · rw [hrefused]
    refine ⟨iff_of_true ⟨_, n, rfl⟩ hover, fun fault n' he => ?_, nofun⟩
    cases he
    exact ⟨rfl, text, rfl⟩
  · rw [hv]
    have hdone : ¬ ∃ (fault : Fault) (n' : Numbering), EStateM.Result.ok v n = .error fault n' := by
      rintro ⟨fault, n', he⟩
      cases he
    refine ⟨iff_of_false hdone hfits, nofun, fun v' n' he => ?_⟩
    cases he
    exact ⟨rfl, htotal.null, htotal.exact⟩

/-- A NULL does not hide that the sum beside it leaves 64 bits. -/
theorem sum_beside_null_overflows :
    let row : Row := ⟨none, [some (.int Int32.maxValue), none]⟩
    let wide : Expr := .add (.literal (.bigInt (Int64.maxValue - 1))) (.literal (.int 2))
    let e : Expr := .add (.add (.column 0 "A") (.literal (.int 1))) (.add (.column 1 "B") wide)
    e.AddsIntegers (some row) ∧ ∃ fault n', e.eval (some row) {} = .error fault n' := by
  intro row wide e
  have hadds : e.AddsIntegers (some row) :=
    .add (.add (.column "A" rfl (Or.inr ⟨_, rfl⟩)) (.literal (Or.inr ⟨_, rfl⟩)))
      (.add (.column "B" rfl (Or.inl rfl))
        (.add (.literal (Or.inr ⟨_, rfl⟩)) (.literal (Or.inr ⟨_, rfl⟩))))
  exact ⟨hadds, (sums_are_exact hadds {}).1.2 ⟨wide, by decide, by decide, by decide⟩⟩

end Expr

end RowStore
