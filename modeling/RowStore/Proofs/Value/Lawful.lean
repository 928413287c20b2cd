import RowStore.Proofs.Binary64.TotalOrder
import RowStore.Value.Hash

/-!
# The order of values is lawful, and agrees with equality and hashing

* `littleEndian_inj` : a number is known from its bytes;
* `Value.hashBytes_eq` : what a value writes to a hasher is its kind, in eight bytes, and what it holds;
* `Value.hashBytes_inj` : values that write the same bytes are equal;
* `Value.order_is_lawful` : the order is total, its equality is that of the values, bit for bit, and that of
  what they write to a hasher; types come before all else, and doubles are in the total order of IEEE 754.
-/

namespace RowStore

/-! ## Bytes -/

/-- A number is known from its bytes. -/
theorem littleEndian_inj {count m n : Nat} (hm : m < Nat.pow 256 count) (hn : n < Nat.pow 256 count)
    (h : littleEndian count m = littleEndian count n) : m = n := by
  induction count generalizing m n with
  | zero =>
    change m < 1 at hm
    change n < 1 at hn
    omega
  | succ count ih =>
    change m < Nat.pow 256 count * 256 at hm
    change n < Nat.pow 256 count * 256 at hn
    obtain ⟨hlow, hrest⟩ := List.cons.inj h
    have hmod : m % 256 = n % 256 := by simpa using congrArg UInt8.toNat hlow
    have hdiv : m / 256 = n / 256 := ih (by omega) (by omega) hrest
    omega

theorem length_littleEndian (count n : Nat) : (littleEndian count n).length = count := by
  induction count generalizing n with
  | zero => rfl
  | succ count ih => rw [littleEndian, List.length_cons, ih]

namespace Value

def payloadBytes (v : Value) : List UInt8 := v.hashWrites.tail.flatMap HashWrite.stream

/-- A value writes its kind, in eight bytes, and what it holds. -/
theorem hashBytes_eq (v : Value) :
    v.hashBytes = littleEndian 8 (v.dataType.rank - 1) ++ v.payloadBytes := by
  cases v <;> rfl

/-- Values of one type are known from the bytes of what they hold. -/
theorem payloadBytes_inj {a b : Value} (ht : a.dataType.rank = b.dataType.rank)
    (h : a.payloadBytes = b.payloadBytes) : a = b := by
  refine sameType (motive := fun a b _ => a.payloadBytes = b.payloadBytes → a = b)
    (fun _ => rfl) ?boolean ?int ?bigInt ?double ?text ht rfl h
  case boolean =>
    intro a b _ h
    cases a <;> cases b <;> first | rfl | exact absurd h (by decide)
  case int =>
    intro m n _ h
    have hwords : littleEndian 4 m.toUInt32.toNat = littleEndian 4 n.toUInt32.toNat := by
      simpa [payloadBytes, hashWrites, HashWrite.stream] using h
    have hnat := littleEndian_inj m.toUInt32.toNat_lt n.toUInt32.toNat_lt hwords
    exact congrArg (int ∘ Int32.ofUInt32) (UInt32.toNat_inj.1 hnat)
  case bigInt =>
    intro m n _ h
    have hwords : littleEndian 8 m.toUInt64.toNat = littleEndian 8 n.toUInt64.toNat := by
      simpa [payloadBytes, hashWrites, HashWrite.stream] using h
    have hnat := littleEndian_inj m.toUInt64.toNat_lt n.toUInt64.toNat_lt hwords
    exact congrArg (bigInt ∘ Int64.ofUInt64) (UInt64.toNat_inj.1 hnat)
  case double =>
    intro x y _ h
    have hwords : littleEndian 8 x.bits.toNat = littleEndian 8 y.bits.toNat := by
      simpa [payloadBytes, hashWrites, HashWrite.stream] using h
    have hnat := littleEndian_inj x.bits.toNat_lt y.bits.toNat_lt hwords
    exact congrArg (double ∘ Binary64.mk) (UInt64.toNat_inj.1 hnat)
  case text =>
    intro s t _ h
    have hbytes : s.toUTF8.data.toList = t.toUTF8.data.toList := by
      simpa [payloadBytes, hashWrites, HashWrite.stream] using h
    exact congrArg text (String.toByteArray_inj.1 (ByteArray.ext (Array.toList_inj.1 hbytes)))

/-- Values that write the same bytes to a hasher are equal. -/
theorem hashBytes_inj {a b : Value} (h : a.hashBytes = b.hashBytes) : a = b := by
  rw [hashBytes_eq, hashBytes_eq] at h
  obtain ⟨hkind, hpayload⟩ := List.append_inj h (by rw [length_littleEndian, length_littleEndian])
  have hbound (v : Value) : 1 ≤ v.dataType.rank ∧ v.dataType.rank - 1 < Nat.pow 256 8 := by
    cases v <;> simp [dataType, DataType.rank]
  have hrank := littleEndian_inj (hbound a).2 (hbound b).2 hkind
  have ha := (hbound a).1
  have hb := (hbound b).1
  exact payloadBytes_inj (by omega) hpayload

/-- What two values write to a hasher is the same just if they are equal. -/
theorem hashWrites_inj {a b : Value} : a.hashWrites = b.hashWrites ↔ a = b :=
  ⟨fun h => hashBytes_inj (congrArg (List.flatMap HashWrite.stream) h), congrArg hashWrites⟩

/-! ## The laws -/

/-- The order of values is reflexive, transitive and total, and turns round with its arguments.  Values are
equal in it just if they are the same value of the same type, doubles bit for bit, which is so just if they
write the same to a hasher.  Values of different types are in the order of the types.  Doubles are in the
total order of IEEE 754, which is that of their words as signed integers. -/
theorem order_is_lawful (a b c : Value) :
    compare a a = .eq ∧ compare b a = (compare a b).swap ∧
    ((compare a b).isLE → (compare b c).isLE → (compare a c).isLE) ∧
    ((compare a b).isLE ∨ (compare b a).isLE) ∧
    (compare a b = .eq ↔ a = b) ∧
    (compare a b = .eq ↔ a.hashWrites = b.hashWrites) ∧
    (compare a b = .eq ↔ a.hashBytes = b.hashBytes) ∧
    (a.dataType ≠ b.dataType →
      compare a b = compare a.dataType.rank b.dataType.rank ∧ compare a b ≠ .eq) ∧
    ∀ x y : Binary64, (compare (double x) (double y) = .lt ↔ x.Precedes y) ∧
      compare (double x) (double y) = compare x.signedWord y.signedWord := by
  have hequal : compare a b = .eq ↔ a = b := Std.LawfulEqOrd.compare_eq_iff_eq
  refine ⟨Std.ReflOrd.compare_self, Std.OrientedOrd.eq_swap, Std.TransOrd.isLE_trans, ?total, hequal,
    hequal.trans hashWrites_inj.symm, hequal.trans ⟨congrArg hashBytes, hashBytes_inj⟩, ?types, ?doubles⟩
  case total =>
    rw [Std.OrientedOrd.eq_swap (a := b)]
    cases compare a b <;> decide
  case types =>
    intro ht
    have hne : a ≠ b := fun he => ht (congrArg dataType he)
    refine ⟨compare_of_rank_ne fun hr => ht ?_, mt hequal.1 hne⟩
    exact DataType.rank_injective hr
  case doubles =>
    exact fun x y => ⟨Binary64.compare_eq_lt_iff, Binary64.compare_eq_signedWord x y⟩

/-- The zeros are told apart, and both come before every text. -/
theorem order_is_lawful_of_zeros :
    let a := double (Binary64.zero true)
    let b := double (Binary64.zero false)
    let c := text "0"
    (compare a b).isLE ∧ (compare b c).isLE ∧ (compare a c).isLE ∧ compare a b ≠ .eq ∧
      a.hashBytes ≠ b.hashBytes ∧ b.dataType ≠ c.dataType ∧ compare b c = compare 5 6 := by
  intro a b c
  have hab : (compare a b).isLE := by decide
  have hbc : (compare b c).isLE := by decide
  have hne : compare a b ≠ .eq := by decide
  have ht : b.dataType ≠ c.dataType := by decide
  obtain ⟨-, -, htrans, -, -, -, hhash, -⟩ := order_is_lawful a b c
  obtain ⟨-, -, -, -, -, -, -, htypes, -⟩ := order_is_lawful b c a
  exact ⟨hab, hbc, htrans hab hbc, hne, mt hhash.2 hne, ht, (htypes ht).1⟩

end Value
end RowStore
