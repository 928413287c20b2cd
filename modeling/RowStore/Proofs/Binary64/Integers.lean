import RowStore.Proofs.Value.Order

/-!
# Integers as doubles

* `nearest_of_lt` : the magnitude of a positive integer of at most 53 bits, which is not rounded;
* `nearest_lt_nearest` : it grows with the integer;
* `compare_ofInt` : such integers compare as doubles as they do as integers.
-/

namespace RowStore.Binary64

/-- The weight of a bit above the leading one of a significand, `2 ^ 53`. -/
def significandLimit : Nat := 0x20000000000000

variable {m n : Nat}

theorem log2_le (h : n < significandLimit) : n.log2 ≤ 52 := by
  rcases Nat.eq_zero_or_pos n with rfl | hpos
  · decide
  · have hlog : n.log2 < 53 := (Nat.log2_lt (Nat.ne_of_gt hpos)).2 h
    omega

/-- Shifted until its leading bit is the 53rd, an integer is at least `2 ^ 52` and below `2 ^ 53`. -/
theorem aligned_bounds (hpos : 0 < n) (h : n < significandLimit) :
    exponentWeight ≤ n * Nat.pow 2 (52 - n.log2) ∧
      n * Nat.pow 2 (52 - n.log2) < 2 * exponentWeight := by
  have hk := log2_le h
  have hweight : Nat.pow 2 n.log2 * Nat.pow 2 (52 - n.log2) = exponentWeight := by
    show 2 ^ n.log2 * 2 ^ (52 - n.log2) = exponentWeight
    rw [← Nat.pow_add, Nat.add_sub_cancel' hk]
    rfl
  have hlow : Nat.pow 2 n.log2 ≤ n := Nat.log2_self_le (Nat.ne_of_gt hpos)
  have hhigh : n < 2 * Nat.pow 2 n.log2 := by
    have := Nat.lt_log2_self (n := n)
    rw [Nat.pow_succ] at this
    simpa [Nat.mul_comm] using this
  have hunit : 0 < Nat.pow 2 (52 - n.log2) := Nat.two_pow_pos _
  constructor
  · calc exponentWeight = Nat.pow 2 n.log2 * Nat.pow 2 (52 - n.log2) := hweight.symm
      _ ≤ n * Nat.pow 2 (52 - n.log2) := Nat.mul_le_mul_right _ hlow
  · calc n * Nat.pow 2 (52 - n.log2)
        < 2 * Nat.pow 2 n.log2 * Nat.pow 2 (52 - n.log2) :=
          Nat.mul_lt_mul_of_pos_right hhigh hunit
      _ = 2 * exponentWeight := by rw [Nat.mul_assoc, hweight]

theorem binaryExponent_natural (hpos : 0 < n) :
    binaryExponent { num := n } = n.log2 := by
  have hreaches : (Ratio.scale { num := n } 2 (-(n.log2 : Int))).reachesOne = true := by
    apply decide_eq_true
    have hlow : 2 ^ n.log2 ≤ n := Nat.log2_self_le (Nat.ne_of_gt hpos)
    simpa [Ratio.scale] using hlow
  have hexponent : ((n.log2 : Int) - Nat.log2 1) = n.log2 := by rw [show Nat.log2 1 = 0 from rfl]; omega
  unfold binaryExponent
  dsimp only
  rw [hexponent, if_pos hreaches]

theorem nearest_of_lt (hpos : 0 < n) (h : n < significandLimit) :
    nearest { num := n } = (n.log2 + 1022) * exponentWeight + n * Nat.pow 2 (52 - n.log2) := by
  have hk := log2_le h
  have hbounds := (aligned_bounds hpos h).2
  have hunit : max (-1074) ((n.log2 : Int) - 52) = (n.log2 : Int) - 52 := by omega
  have hfield : ((n.log2 : Int) - 52 + 1074).toNat = n.log2 + 1022 := by omega
  have hscale : Ratio.scale { num := n } 2 (-((n.log2 : Int) - 52)) =
      ⟨n * Nat.pow 2 (52 - n.log2), 1⟩ := by
    have hup : (-((n.log2 : Int) - 52)).toNat = 52 - n.log2 := by omega
    have hdown : (-(-((n.log2 : Int) - 52))).toNat = 0 := by omega
    rw [Ratio.scale, hup, hdown]
    rfl
  have hexact (x : Nat) : Ratio.halfEven ⟨x, 1⟩ = x := by
    simp [Ratio.halfEven, Ratio.floor, Nat.mod_one]
  unfold nearest
  rw [if_neg (Nat.ne_of_gt hpos)]
  dsimp only
  rw [binaryExponent_natural hpos, hunit, hfield, hscale, hexact]
  apply Nat.min_eq_left
  unfold exponentWeight infinityMagnitude at *
  omega

theorem nearest_lt_nearest (hmn : m < n) (h : n < significandLimit) :
    nearest { num := m } < nearest { num := n } := by
  have hn := nearest_of_lt (by omega) h
  have hnlow := (aligned_bounds (by omega) h).1
  have hunit : 0 < Nat.pow 2 (52 - n.log2) := Nat.two_pow_pos _
  rcases Nat.eq_zero_or_pos m with rfl | hpos
  · have hzero : nearest { num := 0 } = 0 := rfl
    unfold exponentWeight at *
    omega
  · have hm := nearest_of_lt hpos (by omega)
    have hmhigh := (aligned_bounds hpos (by omega)).2
    have hlog : m.log2 ≤ n.log2 := by
      have hself : 2 ^ m.log2 ≤ m := Nat.log2_self_le (Nat.ne_of_gt hpos)
      exact (Nat.le_log2 (by omega)).2 (by omega)
    rw [hm, hn]
    rcases Nat.eq_or_lt_of_le hlog with heq | hlt
    · rw [heq]
      exact Nat.add_lt_add_left (Nat.mul_lt_mul_of_pos_right hmn hunit) _
    · -- The exponent field alone decides.
      unfold exponentWeight at *
      omega

theorem nearest_lt_signWeight (n : Nat) : nearest { num := n } < signWeight := by
  have hinfinite : infinityMagnitude < signWeight := by decide
  unfold nearest
  split
  · decide
  · exact Nat.lt_of_le_of_lt (Nat.min_le_right _ _) hinfinite

theorem rank_ofInt (n : Nat) : (ofInt n).rank = nearest { num := n } := by
  have hlt := nearest_lt_signWeight n
  have hbits : (ofInt n).bits.toNat = nearest { num := n } := by
    have hsign : decide ((n : Int) < 0) = false := by simp
    rw [ofInt, hsign, ofMagnitude]
    exact Nat.mod_eq_of_lt (Nat.lt_trans hlt (by decide))
  rw [rank_of_nonnegative (by omega), hbits]

/-- Integers of at most 53 bits compare as doubles as they do as integers. -/
theorem compare_ofInt (hm : m < significandLimit) (hn : n < significandLimit) :
    compare (ofInt m) (ofInt n) = compare m n := by
  rw [compare_def, rank_ofInt, rank_ofInt]
  rcases Nat.lt_trichotomy m n with hlt | rfl | hlt
  · have := nearest_lt_nearest hlt hn
    rw [Nat.compare_eq_lt.2 hlt]
    exact Int.compare_eq_lt.2 (by omega)
  · simp
  · have := nearest_lt_nearest hlt hm
    rw [Nat.compare_eq_gt.2 hlt]
    exact Int.compare_eq_gt.2 (by omega)

end RowStore.Binary64
