import RowStore.Value.Basic

/-!
# The order of values

* `Binary64.rank_injective`, `DataType.rank_injective` : the total order of doubles tells all words apart,
  and so does that of types the types;
* `Value.compare_of_rank_ne` : values of different types are in the order of their types;
* `Value.sameType` : what holds of values of each one type holds of any that agree in type;
* instances : the orders of doubles and of values are total orders whose equality is `=`; so is, by
  the instances for lists, the order of the keys of an index.
-/

namespace RowStore

namespace Binary64

theorem toNat_bits_lt (x : Binary64) : x.bits.toNat < 2 * signWeight := x.bits.toNat_lt

theorem rank_of_negative {x : Binary64} (h : signWeight ≤ x.bits.toNat) :
    x.rank = signWeight - 1 - x.bits.toNat := by
  have hx := x.toNat_bits_lt
  have negative : x.isNegative = true := decide_eq_true h
  rw [rank, if_pos negative, magnitude, Nat.mod_eq_sub_mod h, Nat.mod_eq_of_lt (by omega)]
  omega

theorem rank_of_nonnegative {x : Binary64} (h : x.bits.toNat < signWeight) :
    x.rank = x.bits.toNat := by
  rw [rank, if_neg (by simpa [isNegative] using h), magnitude, Nat.mod_eq_of_lt h]

theorem rank_injective {x y : Binary64} (h : x.rank = y.rank) : x = y := by
  have bits : x.bits.toNat = y.bits.toNat := by
    rcases Nat.lt_or_ge x.bits.toNat signWeight with hx | hx <;>
      rcases Nat.lt_or_ge y.bits.toNat signWeight with hy | hy <;>
      simp only [rank_of_negative, rank_of_nonnegative, hx, hy] at h <;> omega
  cases x
  cases y
  exact congrArg Binary64.mk (UInt64.toNat_inj.1 bits)

theorem compare_def (x y : Binary64) : compare x y = compare x.rank y.rank := rfl

instance : Std.TransOrd Binary64 where
  eq_swap {x y} := Std.OrientedOrd.eq_swap (a := x.rank) (b := y.rank)
  isLE_trans {x y z} h₁ h₂ :=
    Std.TransOrd.isLE_trans (a := x.rank) (b := y.rank) (c := z.rank) h₁ h₂

instance : Std.LawfulEqOrd Binary64 where
  compare_self {x} := Std.ReflOrd.compare_self (a := x.rank)
  eq_of_compare h := rank_injective (Std.LawfulEqCmp.eq_of_compare (compare_def _ _ ▸ h))

end Binary64

theorem DataType.rank_injective {a b : DataType} (h : a.rank = b.rank) : a = b := by
  cases a <;> cases b <;> first | rfl | cases h

namespace Value

theorem dataType_ne_unknown (v : Value) : v.dataType ≠ .unknown := by
  cases v <;> exact nofun

theorem compare_of_rank_ne {a b : Value} (h : a.dataType.rank ≠ b.dataType.rank) :
    compare a b = compare a.dataType.rank b.dataType.rank := by
  cases a <;> cases b <;> first | rfl | exact absurd rfl h

/-- What holds of any three values of each one type holds of any three that agree in type. -/
theorem sameType {motive : Value → Value → Value → Prop} (null : motive null null null)
    (boolean : ∀ a b c, motive (boolean a) (boolean b) (boolean c))
    (int : ∀ a b c, motive (int a) (int b) (int c))
    (bigInt : ∀ a b c, motive (bigInt a) (bigInt b) (bigInt c))
    (double : ∀ a b c, motive (double a) (double b) (double c))
    (text : ∀ a b c, motive (text a) (text b) (text c)) {a b c : Value}
    (hab : a.dataType.rank = b.dataType.rank) (hbc : b.dataType.rank = c.dataType.rank) :
    motive a b c := by
  cases a <;> cases b <;> simp [dataType, DataType.rank] at hab <;>
    cases c <;> simp [dataType, DataType.rank] at hbc <;> grind

/-- Values that compare as less or equal have types in that order. -/
theorem rank_le_of_isLE {a b : Value} (h : (compare a b).isLE) :
    a.dataType.rank ≤ b.dataType.rank := by
  by_cases hr : a.dataType.rank = b.dataType.rank
  · exact Nat.le_of_eq hr
  · rw [compare_of_rank_ne hr] at h
    exact Nat.isLE_compare.1 h

instance : Std.OrientedOrd Value where
  eq_swap {a b} := by
    by_cases hr : a.dataType.rank = b.dataType.rank
    · refine sameType (motive := fun a b _ => compare a b = (compare b a).swap) rfl ?_ ?_ ?_ ?_ ?_
        hr rfl
      all_goals exact fun a b _ => Std.OrientedOrd.eq_swap (a := a) (b := b)
    · rw [compare_of_rank_ne hr, compare_of_rank_ne (Ne.symm hr)]
      exact Std.OrientedOrd.eq_swap

instance : Std.TransOrd Value where
  isLE_trans {a b c} h₁ h₂ := by
    have hab := rank_le_of_isLE h₁
    have hbc := rank_le_of_isLE h₂
    by_cases hr : a.dataType.rank = c.dataType.rank
    · -- All three are of one type, whose order is transitive.
      refine sameType (motive := fun a b c => (compare a b).isLE → (compare b c).isLE →
        (compare a c).isLE) (fun _ _ => rfl) ?_ ?_ ?_ ?_ ?_ (by omega) (by omega) h₁ h₂
      all_goals exact fun a b c =>
        Std.TransOrd.isLE_trans (a := a) (b := b) (c := c)
    · rw [compare_of_rank_ne hr]
      exact Nat.isLE_compare.2 (by omega)

instance : Std.LawfulEqOrd Value where
  compare_self {a} := by
    cases a <;> exact Std.ReflOrd.compare_self
  eq_of_compare {a b} h := by
    by_cases hr : a.dataType.rank = b.dataType.rank
    · refine sameType (motive := fun a b _ => compare a b = .eq → a = b) (fun _ => rfl)
        ?_ ?_ ?_ ?_ ?_ hr rfl h
      all_goals exact fun a b _ h =>
        congrArg _ (Std.LawfulEqOrd.eq_of_compare (a := a) (b := b) h)
    · rw [compare_of_rank_ne hr] at h
      exact absurd (Std.LawfulEqOrd.eq_of_compare h) hr

end Value
end RowStore
