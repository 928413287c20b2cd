import RowStore.Proofs.Column
import RowStore.Proofs.Expr.Sums
import RowStore.Proofs.Value.Order

/-!
# Conversions

* `DataType.later_comm`, `Value.common_dataType` : the type in which two values meet;
* `fit32?_eq_some_iff`, `fit64?_eq_some_iff` : an integer fits a word just if it is one;
* `Value.convertTo_eq_ok_iff` : a conversion to another type yields the counterpart in it, if there is one;
* `counterpart?_int_iff`, `counterpart?_bigInt_iff` : the counterparts among integers;
* `exists_convertTo` : no conversion to a later type is refused.
-/

namespace RowStore

namespace DataType

theorem later_comm (a b : DataType) : a.later b = b.later a := by
  cases a <;> cases b <;> rfl

theorem later_self (a : DataType) : a.later a = a := by
  cases a <;> rfl

theorem rank_le_later (a b : DataType) : a.rank ≤ (a.later b).rank := by
  unfold later
  split <;> omega

end DataType

theorem fit32?_eq_some_iff {n : Int} {m : Int32} : fit32? n = some m ↔ m.toInt = n := by
  unfold fit32?
  constructor
  · intro h
    split at h
    · rename_i hfits
      cases h
      simp only [Int32.toInt_minValue, Int32.toInt_maxValue] at hfits
      exact Int32.toInt_ofInt_of_le (by omega) (by omega)
    · cases h
  · rintro rfl
    rw [if_pos ⟨m.minValue_le_toInt, m.toInt_le⟩, Int32.ofInt_toInt]

theorem fit64?_eq_some_iff {n : Int} {m : Int64} : fit64? n = some m ↔ m.toInt = n := by
  unfold fit64?
  constructor
  · intro h
    split at h
    · rename_i hfits
      cases h
      exact toInt_ofInt_of_isWord hfits
    · cases h
  · rintro rfl
    rw [if_pos ⟨m.minValue_le_toInt, m.toInt_le⟩, Int64.ofInt_toInt]

namespace Value
variable {v w : Value} {type : DataType}

theorem common_dataType (v w : Value) :
    DataType.common v.dataType w.dataType = .ok (v.dataType.later w.dataType) :=
  if_neg (not_or.2 ⟨v.dataType_ne_unknown, w.dataType_ne_unknown⟩)

theorem convertTo_eq_ok_iff (htype : v.dataType ≠ type) (hnull : v ≠ .null) :
    v.convertTo type = .ok w ↔ v.counterpart? type = some w := by
  unfold convertTo
  rw [if_neg (not_or.2 ⟨htype, hnull⟩)]
  cases v.counterpart? type with
  | none => exact ⟨nofun, nofun⟩
  | some x => exact ⟨fun h => congrArg some (Except.ok.inj h), fun h => congrArg Except.ok (Option.some.inj h)⟩

theorem eq_null_of_converted (h : null.convertTo type = .ok w) : w = .null :=
  Except.ok.inj (h.symm.trans (if_pos (Or.inr rfl)))

theorem counterpart?_int_iff :
    v.counterpart? .int = some w ↔ ∃ m : Int32, v.toInteger? = some m.toInt ∧ w = .int m := by
  change (v.toInteger?.bind fit32?).map int = some w ↔ _
  simp only [Option.map_eq_some_iff, Option.bind_eq_some_iff, fit32?_eq_some_iff]
  constructor
  · rintro ⟨m, ⟨n, hn, rfl⟩, rfl⟩
    exact ⟨m, hn, rfl⟩
  · rintro ⟨m, hm, rfl⟩
    exact ⟨m, ⟨_, hm, rfl⟩, rfl⟩

theorem counterpart?_bigInt_iff :
    v.counterpart? .bigInt = some w ↔ ∃ m : Int64, v.toInteger? = some m.toInt ∧ w = .bigInt m := by
  change (v.toInteger?.bind fit64?).map bigInt = some w ↔ _
  simp only [Option.map_eq_some_iff, Option.bind_eq_some_iff, fit64?_eq_some_iff]
  constructor
  · rintro ⟨m, ⟨n, hn, rfl⟩, rfl⟩
    exact ⟨m, hn, rfl⟩
  · rintro ⟨m, hm, rfl⟩
    exact ⟨m, ⟨_, hm, rfl⟩, rfl⟩

/-- Every value but NULL has a counterpart in every later type. -/
theorem exists_counterpart? (h : v.dataType.rank < type.rank) (hnull : v ≠ .null) :
    ∃ w, v.counterpart? type = some w := by
  cases v with
  | null => exact absurd rfl hnull
  | boolean b =>
    cases type with
    | int => exact ⟨_, counterpart?_int_iff.2 ⟨if b then 1 else 0, by cases b <;> rfl, rfl⟩⟩
    | bigInt => exact ⟨_, counterpart?_bigInt_iff.2 ⟨if b then 1 else 0, by cases b <;> rfl, rfl⟩⟩
    | double | text => exact ⟨_, rfl⟩
    | unknown | null | boolean => simp [dataType, DataType.rank] at h
  | int n =>
    cases type with
    | bigInt =>
      have hword : (Int64.ofInt n.toInt).toInt = n.toInt :=
        toInt_ofInt_of_isWord (isWord_of_toInt? (v := int n) rfl)
      exact ⟨_, counterpart?_bigInt_iff.2 ⟨_, congrArg some hword.symm, rfl⟩⟩
    | double | text => exact ⟨_, rfl⟩
    | unknown | null | boolean | int => simp [dataType, DataType.rank] at h
  | bigInt n =>
    cases type with
    | double | text => exact ⟨_, rfl⟩
    | unknown | null | boolean | int | bigInt => simp [dataType, DataType.rank] at h
  | double x =>
    cases type with
    | text => exact ⟨_, rfl⟩
    | unknown | null | boolean | int | bigInt | double => simp [dataType, DataType.rank] at h
  | text s => cases type <;> simp [dataType, DataType.rank] at h

theorem exists_convertTo (h : v.dataType.rank ≤ type.rank) : ∃ w, v.convertTo type = .ok w := by
  by_cases hsame : v.dataType = type ∨ v = .null
  · exact ⟨v, if_pos hsame⟩
  · obtain ⟨htype, hnull⟩ := not_or.1 hsame
    have hlt : v.dataType.rank < type.rank :=
      Nat.lt_of_le_of_ne h fun hrank => htype (DataType.rank_injective hrank)
    obtain ⟨w, hw⟩ := exists_counterpart? hlt hnull
    exact ⟨w, (convertTo_eq_ok_iff htype hnull).2 hw⟩

end Value

end RowStore
