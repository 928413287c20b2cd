import RowStore.Proofs.Value.Convert
import RowStore.Table.Basic

/-!
# Comparisons across types

* `Value.collate_swap` : values that are exchanged stand in the opposite order;
* `Value.Counts` : the place of NULL, a truth value or an integer among the integers, NULL below all;
* `Counts.convertTo` : which it keeps in every later type up to the integers of 64 bits;
* `Table.compare_of_converted`, `Expr.eval_compare` : a table and an expression compare the same counterparts;
* `CompareOp.Asks` : what each relation says of an order;
* `comparisons_are_coherent` : tables compare any two values, in opposite orders when they are exchanged,
  integers as such; and expressions agree with tables that compare texts by code point.
-/

namespace RowStore
open RowStore.Action

namespace Value
variable {v w : Value} {type : DataType} {j k : Option Int}

/-! ## The order under a collation -/

theorem collate_of_not_texts (c : Collation) (h : v.dataType ≠ .text ∨ w.dataType ≠ .text) :
    v.collate c w = v.compare w := by
  unfold collate
  split
  · exact absurd rfl (h.resolve_left fun hv => hv rfl)
  · rfl

theorem collate_binary (v w : Value) : v.collate .binary w = v.compare w := by
  unfold collate
  split <;> rfl

theorem collate_swap (c : Collation) (v w : Value) : w.collate c v = (v.collate c w).swap := by
  by_cases htexts : v.dataType = .text ∧ w.dataType = .text
  · cases v <;> cases htexts.1
    cases w <;> cases htexts.2
    exact Std.OrientedOrd.eq_swap (a := c.key _)
  · have hnot := not_and_or.1 htexts
    rw [collate_of_not_texts c hnot, collate_of_not_texts c hnot.symm]
    exact Std.OrientedOrd.eq_swap (a := w)

/-! ## Integers of any type -/

/-- The place of a value among the integers: truth values count as 0 and 1, and NULL stands before all. -/
inductive Counts : Value → Option Int → Prop where
  | null : Counts .null none
  | boolean (b : Bool) : Counts (.boolean b) (some (cond b 1 0))
  | int (n : Int32) : Counts (.int n) (some n.toInt)
  | bigInt (n : Int64) : Counts (.bigInt n) (some n.toInt)

theorem compare_int (m n : Int32) : (int m).compare (int n) = compare m.toInt n.toInt := by
  change compareOfLessAndEq m n = compareOfLessAndEq m.toInt n.toInt
  simp only [compareOfLessAndEq, Int32.lt_iff_toInt_lt, Int32.toInt_inj]

theorem compare_bigInt (m n : Int64) : (bigInt m).compare (bigInt n) = compare m.toInt n.toInt := by
  change compareOfLessAndEq m n = compareOfLessAndEq m.toInt n.toInt
  simp only [compareOfLessAndEq, Int64.lt_iff_toInt_lt, Int64.toInt_inj]

namespace Counts

theorem rank_le (h : v.Counts j) : v.dataType.rank ≤ DataType.bigInt.rank := by
  cases h <;> simp [dataType, DataType.rank]

theorem toInteger?_eq (h : v.Counts j) (hnull : v ≠ .null) : v.toInteger? = j := by
  cases h with
  | null => exact absurd rfl hnull
  | boolean b => cases b <;> rfl
  | int | bigInt => rfl

/-- Among these types, conversion to a later one keeps the integer. -/
theorem convertTo (h : v.Counts j) (hlater : v.dataType.rank ≤ type.rank)
    (htype : type.rank ≤ DataType.bigInt.rank) (hw : v.convertTo type = .ok w) : w.Counts j := by
  by_cases hsame : v.dataType = type ∨ v = .null
  · rw [Value.convertTo, if_pos hsame] at hw
    cases hw
    exact h
  obtain ⟨hother, hnull⟩ := not_or.1 hsame
  rw [convertTo_eq_ok_iff hother hnull] at hw
  rw [← h.toInteger?_eq hnull]
  cases type with
  | int =>
    obtain ⟨m, hm, rfl⟩ := counterpart?_int_iff.1 hw
    exact hm ▸ Counts.int m
  | bigInt =>
    obtain ⟨m, hm, rfl⟩ := counterpart?_bigInt_iff.1 hw
    exact hm ▸ Counts.bigInt m
  | boolean => cases h <;> first | exact absurd rfl hother | simp [dataType, DataType.rank] at hlater hnull
  | unknown | null => cases hw
  | double | text => simp [DataType.rank] at htype

/-- Values of one type, or with a NULL among them, stand in the order of what they count as. -/
theorem compare_eq (hv : v.Counts j) (hw : w.Counts k)
    (h : v = .null ∨ w = .null ∨ v.dataType = w.dataType) : v.compare w = compare j k := by
  cases hv with
  | null => cases hw <;> rfl
  | boolean a =>
    cases hw with
    | null => rfl
    | boolean b => cases a <;> cases b <;> rfl
    | int | bigInt => simp [dataType] at h
  | int m =>
    cases hw with
    | null => rfl
    | int n => exact compare_int m n
    | boolean | bigInt => simp [dataType] at h
  | bigInt m =>
    cases hw with
    | null => rfl
    | bigInt n => exact compare_bigInt m n
    | boolean | int => simp [dataType] at h

end Counts

end Value

namespace Table
variable {table : Table} {v w x y : Value}

/-- A table compares the counterparts in the common type. -/
theorem compare_of_converted (hx : v.convertTo (v.dataType.later w.dataType) = .ok x)
    (hy : w.convertTo (v.dataType.later w.dataType) = .ok y) :
    table.compare v w = .ok (x.collate table.collation y) := by
  unfold compare
  rw [Value.common_dataType]
  change (v.convertTo _ >>= fun a => w.convertTo _ >>= fun b => pure (a.collate table.collation b)) = _
  rw [hx, hy]
  rfl

/-- Values of one type are compared as they are. -/
theorem compare_of_type (h : v.dataType = w.dataType) :
    table.compare v w = .ok (v.collate table.collation w) := by
  apply compare_of_converted
  · exact if_pos (Or.inl (by rw [h, DataType.later_self]))
  · exact if_pos (Or.inl (by rw [h, DataType.later_self]))

/-- Any two values have counterparts, in whose order the table takes them. -/
theorem exists_compare_eq (v w : Value) : ∃ x y, v.convertTo (v.dataType.later w.dataType) = .ok x ∧
    w.convertTo (v.dataType.later w.dataType) = .ok y ∧
    ∀ table : Table, table.compare v w = .ok (x.collate table.collation y) := by
  obtain ⟨x, hx⟩ := Value.exists_convertTo (DataType.rank_le_later v.dataType w.dataType)
  obtain ⟨y, hy⟩ := Value.exists_convertTo (DataType.rank_le_later w.dataType v.dataType)
  rw [DataType.later_comm] at hy
  exact ⟨x, y, hx, hy, fun _ => compare_of_converted hx hy⟩

theorem compare_swap (table : Table) (v w : Value) :
    ∃ o, table.compare v w = .ok o ∧ table.compare w v = .ok o.swap := by
  obtain ⟨x, y, hx, hy, hvw⟩ := exists_compare_eq v w
  refine ⟨_, hvw table, ?_⟩
  rw [DataType.later_comm] at hx hy
  rw [compare_of_converted hy hx, Value.collate_swap]

/-- NULL stands below every other value, of whatever type. -/
theorem compare_null (table : Table) (h : w ≠ .null) : table.compare .null w = .ok .lt := by
  obtain ⟨x, y, hx, hy, hcompare⟩ := exists_compare_eq .null w
  have hynull := (Value.type_of_converted h hy).1
  rw [hcompare, Value.eq_null_of_converted hx, Value.collate_of_not_texts _ (Or.inl (by decide))]
  cases y with
  | null => exact absurd rfl hynull
  | boolean | int | bigInt | double | text => rfl

/-- NULL, truth values and integers stand as the integers they count as. -/
theorem compare_of_counts {j k : Option Int} (table : Table) (hv : v.Counts j) (hw : w.Counts k) :
    table.compare v w = .ok (Ord.compare j k) := by
  obtain ⟨x, y, hx, hy, hcompare⟩ := exists_compare_eq v w
  have hlater : (v.dataType.later w.dataType).rank ≤ DataType.bigInt.rank := by
    unfold DataType.later
    split
    · exact hw.rank_le
    · exact hv.rank_le
  have hlaterw := DataType.rank_le_later w.dataType v.dataType
  rw [DataType.later_comm] at hlaterw
  have hxj := hv.convertTo (DataType.rank_le_later _ _) hlater hx
  have hyk := hw.convertTo hlaterw hlater hy
  have hmeet : x = .null ∨ y = .null ∨ x.dataType = y.dataType := by
    by_cases hvnull : v = .null
    · exact Or.inl (Value.eq_null_of_converted (hvnull ▸ hx))
    by_cases hwnull : w = .null
    · exact Or.inr (Or.inl (Value.eq_null_of_converted (hwnull ▸ hy)))
    · exact Or.inr (Or.inr ((Value.type_of_converted hvnull hx).2.trans
        (Value.type_of_converted hwnull hy).2.symm))
  rw [hcompare, Value.collate_of_not_texts, hxj.compare_eq hyk hmeet]
  refine Or.inl fun htext => ?_
  have := hxj.rank_le
  rw [htext] at this
  exact absurd this (by decide)

end Table

/-- What a relation says of two values that stand in the given order. -/
def CompareOp.Asks : CompareOp → Ordering → Prop
  | equal, o => o = .eq
  | notEqual, o => o ≠ .eq
  | less, o => o = .lt
  | lessOrEqual, o => o = .lt ∨ o = .eq
  | greater, o => o = .gt
  | greaterOrEqual, o => o = .gt ∨ o = .eq

theorem CompareOp.holds_iff (op : CompareOp) (o : Ordering) : op.holds o = true ↔ op.Asks o := by
  cases op <;> cases o <;> simp [holds, Asks]

namespace Expr
variable {row : Option Row} {e f : Expr} {n n' n'' : Numbering} {v w : Value} {table : Table}

/-- A comparison of two values that are not NULL takes them in the order of a table that compares
texts by code point. -/
theorem eval_compare (htable : table.collation = .binary) (op : CompareOp) (he : e.eval row n = .ok v n')
    (hf : f.eval row n' = .ok w n'') (hv : v ≠ .null) (hw : w ≠ .null) :
    ∃ o, table.compare v w = .ok o ∧
      (Expr.compare op e f).eval row n = .ok (.boolean (op.holds o)) n'' := by
  obtain ⟨x, y, hx, hy, hcompare⟩ := Table.exists_compare_eq v w
  refine ⟨_, hcompare table, ?_⟩
  have hlifted : lifted (fun v w => .ok (.boolean (op.holds (v.compare w)))) v w =
      .ok (.boolean (op.holds (x.compare y))) :=
    lifted_of_common _ (by cases v <;> first | rfl | exact absurd rfl hv)
      (by cases w <;> first | rfl | exact absurd rfl hw) (Value.common_dataType v w) hx hy
  rw [htable, Value.collate_binary]
  unfold eval
  refine (bind_of_ok he).trans ((bind_of_ok hf).trans ?_)
  rw [hlifted]
  rfl

end Expr

/-- Every table compares any two values, and values that are exchanged stand in the opposite order; NULL,
truth values and integers stand as the integers they count as, and NULL below every other value; and where a
table compares texts by code point, a comparison of two values that are not NULL is true just if it asks for
the order in which the table takes them. -/
theorem comparisons_are_coherent (table : Table) :
    (∀ v w, ∃ o, table.compare v w = .ok o ∧ table.compare w v = .ok o.swap) ∧
    (∀ v w j k, v.Counts j → w.Counts k → table.compare v w = .ok (compare j k)) ∧
    (∀ w, w ≠ .null → table.compare .null w = .ok .lt) ∧
    (table.collation = .binary → ∀ (op : CompareOp) (e f : Expr) (row : Option Row) (n n' n'' : Numbering)
      (v w : Value), e.eval row n = .ok v n' → f.eval row n' = .ok w n'' → v ≠ .null → w ≠ .null →
      ∃ o b, table.compare v w = .ok o ∧ (Expr.compare op e f).eval row n = .ok (.boolean b) n'' ∧
        (b = true ↔ op.Asks o)) := by
  refine ⟨table.compare_swap, fun v w j k hv hw => table.compare_of_counts hv hw,
    fun w hw => table.compare_null hw, ?_⟩
  intro htable op e f row n n' n'' v w he hf hv hw
  obtain ⟨o, ho, heval⟩ := Expr.eval_compare htable op he hf hv hw
  exact ⟨o, op.holds o, ho, heval, op.holds_iff o⟩

/-- TRUE is below the BIGINT 2 for a table, which is above TRUE, and so is not at least as great for an
expression. -/
theorem truth_value_below_two :
    let table := Table.empty 7 "T"
    let e : Expr := .compare .greaterOrEqual (.literal (.boolean true)) (.literal (.bigInt 2))
    table.compare (.boolean true) (.bigInt 2) = .ok .lt ∧ table.compare (.bigInt 2) (.boolean true) = .ok .gt ∧
      e.eval none {} = .ok (.boolean false) {} := by
  intro table e
  obtain ⟨hswap, hcounts, -, hexpr⟩ := comparisons_are_coherent table
  have hlt : table.compare (.boolean true) (.bigInt 2) = .ok .lt :=
    hcounts _ _ _ _ (.boolean true) (.bigInt 2)
  refine ⟨hlt, ?_, ?_⟩
  · obtain ⟨o, ho, hback⟩ := hswap (.boolean true) (.bigInt 2)
    cases hlt.symm.trans ho
    exact hback
  · obtain ⟨o, b, ho, heval, hb⟩ := hexpr rfl .greaterOrEqual (.literal (.boolean true)) (.literal (.bigInt 2))
      none {} {} {} _ _ rfl rfl nofun nofun
    cases hlt.symm.trans ho
    cases b with
    | false => exact heval
    | true => exact absurd (hb.1 rfl) (by simp [CompareOp.Asks])

end RowStore
