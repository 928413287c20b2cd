import RowStore.Proofs.Value.Order

/-!
# What the total order of doubles is

* `signedWord` : the word as a signed integer whose bits below the sign are flipped if the sign is set;
* `compare_eq_signedWord` : the total order is that of these integers;
* `steps` : the size of a number in units of the least positive one; `steps_lt_steps` : it grows with the
  magnitude;
* `Precedes` : the total order of IEEE 754, by values, signs of zeros and words of NaNs;
* `compare_eq_lt_iff` : the total order is that one.
-/

namespace RowStore.Binary64

variable {x y : Binary64}

/-! ## Words as signed integers -/

/-- The word as a signed integer.  If its sign is set, the sign is spread over all bits, moved down by
one, and flips the bits below it. -/
def signedWord (x : Binary64) : Int64 :=
  x.bits.toInt64 ^^^ ((x.bits.toInt64 >>> 63).toUInt64 >>> 1).toInt64

theorem toInt_toInt64 (w : UInt64) : w.toInt64.toInt =
    if w.toNat < signWeight then (w.toNat : Int) else w.toNat - 2 * signWeight := by
  have hw : w.toNat < 2 * signWeight := w.toNat_lt
  rw [← Int64.toInt_toBitVec]
  change w.toBitVec.toInt = _
  rw [BitVec.toInt_eq_toNat_cond]
  change (if 2 * w.toNat < 2 * signWeight then (w.toNat : Int) else w.toNat - (2 * signWeight : Nat)) = _
  split <;> split <;> omega

/-- The sign of a word, spread over all bits. -/
theorem shiftRight_word (x : Binary64) :
    x.bits.toInt64 >>> 63 = if x.isNegative then -1 else 0 := by
  have hx := x.toNat_bits_lt
  have hplaces : ((63 : Int64).toBitVec.smod 64).toNat = 63 := by decide
  refine Int64.toInt_inj.1 ?_
  rw [← Int64.toInt_toBitVec, Int64.toBitVec_shiftRight, BitVec.sshiftRight', hplaces,
    BitVec.toInt_sshiftRight, Int64.toInt_toBitVec, toInt_toInt64, Int.shiftRight_eq_div_pow]
  unfold isNegative signWeight at *
  rcases Nat.lt_or_ge x.bits.toNat 0x8000000000000000 with hs | hs
  · rw [if_pos hs, if_neg (by simpa using hs)]
    change (x.bits.toNat : Int) / 0x8000000000000000 = 0
    omega
  · rw [if_neg (by omega), if_pos (by simpa using hs)]
    change ((x.bits.toNat : Int) - 2 * (0x8000000000000000 : Nat)) / 0x8000000000000000 = -1
    omega

theorem xor_ones {m : Nat} (h : m < signWeight) :
    m ^^^ (signWeight - 1) = signWeight - 1 - m := by
  have hpow : signWeight = 2 ^ 63 := rfl
  rw [hpow] at h ⊢
  refine Nat.eq_of_testBit_eq fun i => ?_
  rw [Nat.testBit_xor, Nat.testBit_two_pow_sub_one, Nat.sub_sub, Nat.add_comm 1 m,
    Nat.testBit_two_pow_sub_succ h]
  by_cases hi : i < 63
  · simp [hi]
  · have hm : m.testBit i = false :=
      Nat.testBit_lt_two_pow (Nat.lt_of_lt_of_le h (Nat.pow_le_pow_right (by decide) (by omega)))
    simp [hi, hm]

/-- Flipping the bits below a set sign turns the order of the magnitudes round. -/
theorem xor_below_sign {w : Nat} (hlow : signWeight ≤ w) (hhigh : w < 2 * signWeight) :
    w ^^^ (signWeight - 1) = 3 * signWeight - 1 - w := by
  have hsign : (w ^^^ (signWeight - 1)) / signWeight = 1 := by
    have hw : w / signWeight = 1 := by
      unfold signWeight at *
      omega
    calc (w ^^^ (signWeight - 1)) / signWeight
        = w / signWeight ^^^ (signWeight - 1) / signWeight := Nat.xor_div_two_pow (n := 63)
      _ = 1 := by rw [hw]; rfl
  have hrest : (w ^^^ (signWeight - 1)) % signWeight = 2 * signWeight - 1 - w := by
    have hmod : w % signWeight = w - signWeight := by
      rw [Nat.mod_eq_sub_mod hlow, Nat.mod_eq_of_lt (by omega)]
    calc (w ^^^ (signWeight - 1)) % signWeight
        = w % signWeight ^^^ (signWeight - 1) % signWeight := Nat.xor_mod_two_pow (n := 63)
      _ = (w - signWeight) ^^^ (signWeight - 1) := by rw [hmod]; rfl
      _ = signWeight - 1 - (w - signWeight) := xor_ones (by omega)
      _ = 2 * signWeight - 1 - w := by omega
  have hparts := Nat.div_add_mod (w ^^^ (signWeight - 1)) signWeight
  rw [hsign, hrest] at hparts
  omega

/-- The signed integer of a word is its place in the total order. -/
theorem toInt_signedWord (x : Binary64) : x.signedWord.toInt = x.rank := by
  have hx := x.toNat_bits_lt
  unfold signedWord
  rw [shiftRight_word]
  rcases Nat.lt_or_ge x.bits.toNat signWeight with hs | hs
  · have hsign : x.isNegative = false := decide_eq_false (Nat.not_le.2 hs)
    have hmask : ((0 : Int64).toUInt64 >>> 1).toInt64 = 0 := by decide
    rw [hsign, if_neg Bool.false_ne_true, hmask, Int64.xor_zero, toInt_toInt64, if_pos hs,
      rank_of_nonnegative hs]
  · have hsign : x.isNegative = true := decide_eq_true hs
    have hmask : ((-1 : Int64).toUInt64 >>> 1) = UInt64.ofNat (signWeight - 1) := by decide
    rw [hsign, if_pos rfl, hmask, rank_of_negative hs]
    have hword : x.bits.toInt64 ^^^ (UInt64.ofNat (signWeight - 1)).toInt64 =
        (x.bits ^^^ UInt64.ofNat (signWeight - 1)).toInt64 := rfl
    have hflipped : (x.bits ^^^ UInt64.ofNat (signWeight - 1)).toNat =
        3 * signWeight - 1 - x.bits.toNat := by
      rw [UInt64.toNat_xor]
      exact xor_below_sign hs hx
    rw [hword, toInt_toInt64, hflipped, if_neg (by omega)]
    omega

/-- The total order is the order of the words as signed integers. -/
theorem compare_eq_signedWord (x y : Binary64) : compare x y = compare x.signedWord y.signedWord := by
  rw [compare_def, ← toInt_signedWord, ← toInt_signedWord]
  change compareOfLessAndEq _ _ = compareOfLessAndEq _ _
  simp only [compareOfLessAndEq, Int64.lt_iff_toInt_lt, Int64.toInt_inj]

/-! ## Numbers in order -/

/-- The size of a number in units of the least positive one.  The infinities count as `2 ^ 1024`. -/
def steps (x : Binary64) : Nat := x.significand * Nat.pow 2 (x.exponentField - 1)

theorem signedUnits_steps (x : Binary64) :
    x.signedUnits (-1074) = if x.isNegative then -(x.steps : Int) else x.steps := by
  have hunit : (x.scale - -1074).toNat = x.exponentField - 1 := by
    unfold scale
    omega
  unfold signedUnits Ratio.scale steps
  rw [hunit]

theorem fractionField_lt (x : Binary64) : x.fractionField < exponentWeight :=
  Nat.mod_lt _ (by decide)

theorem magnitude_eq_fields (x : Binary64) :
    x.magnitude = exponentWeight * x.exponentField + x.fractionField := (Nat.div_add_mod _ _).symm

/-- A size is below those of all numbers with a greater exponent field. -/
theorem steps_lt_weight (x : Binary64) : x.steps < exponentWeight * Nat.pow 2 x.exponentField := by
  have hf := x.fractionField_lt
  unfold steps significand
  cases he : x.exponentField with
  | zero =>
    rw [if_pos rfl]
    exact Nat.mul_lt_mul_of_pos_right hf Nat.one_pos
  | succ e =>
    rw [if_neg (Nat.succ_ne_zero e), Nat.add_sub_cancel]
    calc (exponentWeight + x.fractionField) * Nat.pow 2 e
        < (exponentWeight * 2) * Nat.pow 2 e :=
          Nat.mul_lt_mul_of_pos_right (by omega) (Nat.two_pow_pos e)
      _ = exponentWeight * Nat.pow 2 (e + 1) := by rw [Nat.mul_assoc, Nat.mul_comm 2]; rfl

/-- Sizes grow with the magnitude. -/
theorem steps_lt_steps (h : x.magnitude < y.magnitude) : x.steps < y.steps := by
  have hfx := x.fractionField_lt
  have hfy := y.fractionField_lt
  rw [magnitude_eq_fields, magnitude_eq_fields] at h
  rcases Nat.lt_trichotomy x.exponentField y.exponentField with hlt | heq | hgt
  · have hpow : Nat.pow 2 x.exponentField ≤ Nat.pow 2 (y.exponentField - 1) :=
      Nat.pow_le_pow_right (by decide) (by omega)
    have hlow : exponentWeight ≤ y.significand := by
      unfold significand
      rw [if_neg (by omega)]
      omega
    calc x.steps < exponentWeight * Nat.pow 2 x.exponentField := x.steps_lt_weight
      _ ≤ exponentWeight * Nat.pow 2 (y.exponentField - 1) := Nat.mul_le_mul_left _ hpow
      _ ≤ y.steps := Nat.mul_le_mul_right _ hlow
  · have hsig : x.significand < y.significand := by
      unfold significand
      rw [heq] at h ⊢
      split <;> omega
    unfold steps
    rw [heq]
    exact Nat.mul_lt_mul_of_pos_right hsig (Nat.two_pow_pos _)
  · unfold exponentWeight at *
    omega

theorem steps_lt_steps_iff : x.steps < y.steps ↔ x.magnitude < y.magnitude := by
  refine ⟨fun h => ?_, steps_lt_steps⟩
  rcases Nat.lt_trichotomy x.magnitude y.magnitude with hlt | heq | hgt
  · exact hlt
  · have hsame : x.steps = y.steps := by
      unfold steps significand exponentField fractionField
      rw [heq]
    omega
  · have := steps_lt_steps hgt
    omega

/-! ## The total order of IEEE 754 -/

/-- The one comes before the other in the total order of IEEE 754.  Numbers and infinities are in the order
of their values, and `-0.0` comes before `0.0`.  Negative NaNs come before all of them and the others
after.  NaNs of one sign are in the order of their words, negative ones the other way round. -/
def Precedes (x y : Binary64) : Prop :=
  match x.isNaN, y.isNaN with
  | false, false => x.signedUnits (-1074) < y.signedUnits (-1074) ∨
      x.signedUnits (-1074) = y.signedUnits (-1074) ∧ x.isNegative = true ∧ y.isNegative = false
  | true, false => x.isNegative = true
  | false, true => y.isNegative = false
  | true, true =>
    match x.isNegative, y.isNegative with
    | true, false => True
    | false, true => False
    | false, false => x.magnitude < y.magnitude
    | true, true => y.magnitude < x.magnitude

/-- The total order is that of IEEE 754. -/
theorem compare_eq_lt_iff : compare x y = .lt ↔ x.Precedes y := by
  have hsizes : x.steps < y.steps ↔ x.magnitude < y.magnitude := steps_lt_steps_iff
  have hsizes' : y.steps < x.steps ↔ y.magnitude < x.magnitude := steps_lt_steps_iff
  rw [compare_def, Int.compare_eq_lt, rank, rank, Precedes, signedUnits_steps, signedUnits_steps]
  -- NaNs have the greatest magnitudes, so in each of the cases the signs and magnitudes decide.
  cases hx : x.isNaN <;> cases hy : y.isNaN <;>
    simp only [isNaN, decide_eq_true_eq, decide_eq_false_iff_not] at hx hy <;>
    cases x.isNegative <;> cases y.isNegative <;> simp <;> omega

end RowStore.Binary64
