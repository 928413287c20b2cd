import RowStore.Proofs.Text.Numeral
import RowStore.Proofs.Value.Convert

/-!
# Integers and truth values as texts

* `readBoolean?_of_padded`, `readInteger?_eq_some_iff` : what a text between blanks spells;
* `convertTo_bigInt_iff`, `convertTo_int_iff`, `narrow_iff` : the integers that a text, or a wider integer, is
  converted to;
* `convertTo_of_padded` : the text of a truth value or an integer is converted back to it;
* `integers_survive_as_texts` : truth values and integers come back from their texts; texts are converted to
  integers of 64 bits just if they spell one, and to integers of 32 bits by way of those.
-/

namespace RowStore

namespace Value
variable {v w : Value} {s : String} {n : Int}

theorem readInteger?_eq_some_iff : readInteger? s = some n ↔ ∃ cs, Text.Padded cs s ∧ Text.Numeral cs n := by
  unfold readInteger?
  rw [Text.readInt?_eq_some_iff]
  constructor
  · intro h
    exact ⟨_, Text.padded_trimChars s, h⟩
  · rintro ⟨cs, hpadded, h⟩
    rwa [Text.trimChars_of_padded hpadded h.ne_nil h.isBlank_eq_false]

theorem readBoolean?_of_padded {b : Bool} (h : Text.Padded (boolean b).render.toList s) :
    readBoolean? s = some b := by
  have hblank : (boolean b).render.toList.any Text.isBlank = false := by cases b <;> decide
  have hword : Text.trimChars s.toList = (boolean b).render.toList :=
    Text.trimChars_of_padded h (by cases b <;> decide) fun c hc =>
      Bool.eq_false_iff.2 (List.any_eq_false.1 hblank c hc)
  unfold readBoolean?
  rw [hword]
  cases b <;> rfl

theorem convertTo_text (hv : v.dataType ≠ .text) (hnull : v ≠ .null) : v.convertTo .text = .ok (.text v.render) :=
  (convertTo_eq_ok_iff hv hnull).2 rfl

/-- A text is converted to the integer of 64 bits that it spells between blanks. -/
theorem convertTo_bigInt_iff : (text s).convertTo .bigInt = .ok w ↔
    ∃ m : Int64, (∃ cs, Text.Padded cs s ∧ Text.Numeral cs m.toInt) ∧ w = .bigInt m := by
  have hcounterpart : (text s).convertTo .bigInt = .ok w ↔ (text s).counterpart? .bigInt = some w :=
    convertTo_eq_ok_iff nofun nofun
  rw [hcounterpart, counterpart?_bigInt_iff]
  simp only [toInteger?, readInteger?_eq_some_iff]

/-- A text is converted to the integer of 32 bits that it spells between blanks. -/
theorem convertTo_int_iff : (text s).convertTo .int = .ok w ↔
    ∃ m : Int32, (∃ cs, Text.Padded cs s ∧ Text.Numeral cs m.toInt) ∧ w = .int m := by
  have hcounterpart : (text s).convertTo .int = .ok w ↔ (text s).counterpart? .int = some w :=
    convertTo_eq_ok_iff nofun nofun
  rw [hcounterpart, counterpart?_int_iff]
  simp only [toInteger?, readInteger?_eq_some_iff]

/-- Between blanks, the text of a truth value or an integer is converted back to it. -/
theorem convertTo_of_padded (hv : v.dataType = .boolean ∨ v.dataType = .int ∨ v.dataType = .bigInt)
    (h : Text.Padded v.render.toList s) : (text s).convertTo v.dataType = .ok v := by
  cases v with
  | boolean b =>
    exact Iff.mpr (convertTo_eq_ok_iff nofun nofun) (congrArg (Option.map boolean) (readBoolean?_of_padded h))
  | int n =>
    exact Iff.mpr convertTo_int_iff ⟨n, ⟨_, h, Text.numeral_toString n.toInt⟩, rfl⟩
  | bigInt n =>
    exact Iff.mpr convertTo_bigInt_iff ⟨n, ⟨_, h, Text.numeral_toString n.toInt⟩, rfl⟩
  | null | double | text => simp [dataType] at hv

/-- An integer of 64 bits is converted to the one of 32 bits that is equal to it. -/
theorem narrow_iff {n : Int64} : (bigInt n).convertTo .int = .ok w ↔
    ∃ m : Int32, m.toInt = n.toInt ∧ w = .int m := by
  have hcounterpart : (bigInt n).convertTo .int = .ok w ↔ (bigInt n).counterpart? .int = some w :=
    convertTo_eq_ok_iff nofun nofun
  rw [hcounterpart, counterpart?_int_iff]
  simp only [toInteger?, Option.some.injEq, eq_comm]

end Value

/-- Truth values and integers come back from their texts, also between blanks.  A text is converted to an
integer of 64 bits just if it spells one between blanks, and to an integer of 32 bits just if that integer is
one of 32 bits. -/
theorem integers_survive_as_texts :
    (∀ (v : Value) (before after : String),
      v.dataType = .boolean ∨ v.dataType = .int ∨ v.dataType = .bigInt →
      (∀ c ∈ before.toList, Text.isBlank c = true) → (∀ c ∈ after.toList, Text.isBlank c = true) →
      ∃ s, v.convertTo .text = .ok (.text s) ∧
        (Value.text (before ++ s ++ after)).convertTo v.dataType = .ok v) ∧
    (∀ (s : String) (w : Value), (Value.text s).convertTo .bigInt = .ok w ↔
      ∃ cs n, Text.Padded cs s ∧ Text.Numeral cs n ∧ IsWord n ∧ ∃ m : Int64, m.toInt = n ∧ w = .bigInt m) ∧
    (∀ (s : String) (w : Value), (Value.text s).convertTo .int = .ok w ↔
      ∃ n, (Value.text s).convertTo .bigInt = .ok (.bigInt n) ∧ (Value.bigInt n).convertTo .int = .ok w) ∧
    ∀ (n : Int64) (w : Value), (Value.bigInt n).convertTo .int = .ok w ↔
      (Int32.minValue.toInt ≤ n.toInt ∧ n.toInt ≤ Int32.maxValue.toInt) ∧
        ∃ m : Int32, m.toInt = n.toInt ∧ w = .int m := by
  refine ⟨fun v before after hv hbefore hafter => ?_, fun s w => ?_, fun s w => ?_, fun n w => ?_⟩
  · have hnull : v ≠ .null := by
      rintro rfl
      simp [Value.dataType] at hv
    have htext : v.dataType ≠ .text := by
      rcases hv with h | h | h <;> rw [h] <;> decide
    refine ⟨v.render, Value.convertTo_text htext hnull, Value.convertTo_of_padded hv ?_⟩
    exact ⟨_, _, hbefore, hafter, by rw [String.toList_append, String.toList_append]⟩
  · rw [Value.convertTo_bigInt_iff]
    constructor
    · rintro ⟨m, ⟨cs, hpadded, hnumeral⟩, rfl⟩
      exact ⟨cs, m.toInt, hpadded, hnumeral, ⟨m.minValue_le_toInt, m.toInt_le⟩, m, rfl, rfl⟩
    · rintro ⟨cs, n, hpadded, hnumeral, -, m, rfl, rfl⟩
      exact ⟨m, ⟨cs, hpadded, hnumeral⟩, rfl⟩
  · rw [Value.convertTo_int_iff]
    constructor
    · rintro ⟨m, hspelled, rfl⟩
      have hword : (Int64.ofInt m.toInt).toInt = m.toInt :=
        toInt_ofInt_of_isWord (Value.isWord_of_toInt? (v := .int m) rfl)
      exact ⟨Int64.ofInt m.toInt, Value.convertTo_bigInt_iff.2 ⟨_, hword.symm ▸ hspelled, rfl⟩,
        Value.narrow_iff.2 ⟨m, hword.symm, rfl⟩⟩
    · rintro ⟨n, hn, hw⟩
      obtain ⟨m, hm, rfl⟩ := Value.narrow_iff.1 hw
      obtain ⟨_, hspelled, hsame⟩ := Value.convertTo_bigInt_iff.1 hn
      cases hsame
      exact ⟨m, hm.symm ▸ hspelled, rfl⟩
  · rw [Value.narrow_iff]
    constructor
    · rintro ⟨m, hm, rfl⟩
      exact ⟨hm ▸ ⟨m.minValue_le_toInt, m.toInt_le⟩, m, hm, rfl⟩
    · exact fun h => h.2

/-- The least integer of 64 bits comes back from its text with a tab before it and an ideographic space after
it. -/
theorem least_integer_survives : ∃ s, (Value.bigInt Int64.minValue).convertTo .text = .ok (.text s) ∧
    (Value.text ("\t" ++ s ++ "\u3000")).convertTo .bigInt = .ok (.bigInt Int64.minValue) :=
  integers_survive_as_texts.1 _ "\t" "\u3000" (Or.inr (Or.inr rfl)) (List.all_eq_true.1 (by decide))
    (List.all_eq_true.1 (by decide))

end RowStore
