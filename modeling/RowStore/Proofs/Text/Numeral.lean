import Mathlib.Data.List.DropRight
import RowStore.Text.Blank
import RowStore.Text.Numeral

/-!
# Numerals between blanks

* `span_append` : characters of a kind are taken up to the next one of another;
* `Padded` : a text is given characters between blanks; `padded_trimChars`, `trimChars_of_padded` : these are
  what trimming leaves;
* `Decimal`, `Numeral` : the natural number that digits denote, the integer with a sign or without;
* `readNat?_eq_some_iff`, `readInt?_eq_some_iff` : just these are read; `numeral_toString` : they are written.
-/

namespace RowStore.Text

/-- The text is the given characters, with nothing but blanks before and after them. -/
def Padded (cs : List Char) (s : String) : Prop := ∃ before after : List Char,
  (∀ c ∈ before, isBlank c = true) ∧ (∀ c ∈ after, isBlank c = true) ∧ s.toList = before ++ cs ++ after

/-- One or more decimal digits and the number they denote. -/
inductive Decimal : List Char → Nat → Prop where
  | digit {d : Nat} (hd : d < 10) : Decimal [d.digitChar] d
  | append {cs : List Char} {m d : Nat} (h : Decimal cs m) (hd : d < 10) :
    Decimal (cs ++ [d.digitChar]) (10 * m + d)

/-- An optional sign and one or more decimal digits, and the integer they denote. -/
inductive Numeral : List Char → Int → Prop where
  | bare {cs : List Char} {m : Nat} (h : Decimal cs m) : Numeral cs m
  | plus {cs : List Char} {m : Nat} (h : Decimal cs m) : Numeral ('+' :: cs) m
  | minus {cs : List Char} {m : Nat} (h : Decimal cs m) : Numeral ('-' :: cs) (-m)

variable {s : String} {cs rest : List Char} {c : Char} {m : Nat} {n : Int} {p : Char → Bool}

/-- Characters of a kind, up to one that is not of it. -/
theorem span_append (hcs : ∀ c ∈ cs, p c = true) (hrest : ∀ c ∈ rest.head?, p c = false) :
    (cs ++ rest).takeWhile p = cs ∧ (cs ++ rest).dropWhile p = rest := by
  have hstop : rest.takeWhile p = [] ∧ rest.dropWhile p = rest := by
    cases rest with
    | nil => exact ⟨rfl, rfl⟩
    | cons c rest =>
      have hc : ¬ p c = true := by simp [hrest c rfl]
      exact ⟨List.takeWhile_cons_of_neg hc, List.dropWhile_cons_of_neg hc⟩
  rw [List.takeWhile_append_of_pos hcs, List.dropWhile_append_of_pos hcs, hstop.1, hstop.2, List.append_nil]
  exact ⟨rfl, rfl⟩

/-! ## Blanks around a text -/

theorem padded_trimChars (s : String) : Padded (trimChars s.toList) s := by
  refine ⟨s.toList.takeWhile isBlank, (s.toList.dropWhile isBlank).rtakeWhile isBlank,
    fun c hc => List.mem_takeWhile_imp hc, fun c hc => List.mem_rtakeWhile_imp hc, ?_⟩
  have hrest := List.rdropWhile_append_rtakeWhile (p := isBlank) (l := s.toList.dropWhile isBlank)
  rw [List.append_assoc]
  exact List.takeWhile_append_dropWhile.symm.trans (congrArg (_ ++ ·) hrest.symm)

theorem dropWhile_isBlank_append (hne : cs ≠ []) (h : ∀ c ∈ cs, isBlank c = false) :
    (cs ++ rest).dropWhile isBlank = cs ++ rest := by
  cases cs with
  | nil => exact absurd rfl hne
  | cons c cs => exact List.dropWhile_cons_of_neg (by simp [h c List.mem_cons_self])

/-- Characters without blanks are what trimming leaves of them between blanks. -/
theorem trimChars_of_padded (h : Padded cs s) (hne : cs ≠ []) (hcs : ∀ c ∈ cs, isBlank c = false) :
    trimChars s.toList = cs := by
  obtain ⟨before, after, hbefore, hafter, hs⟩ := h
  have hback : (cs.reverse ++ []).dropWhile isBlank = cs.reverse ++ [] :=
    dropWhile_isBlank_append (List.reverse_ne_nil_iff.2 hne) fun c hc => hcs c (List.mem_reverse.1 hc)
  rw [List.append_nil] at hback
  unfold trimChars
  rw [hs, List.append_assoc, List.dropWhile_append_of_pos hbefore, dropWhile_isBlank_append hne hcs,
    List.reverse_append, List.dropWhile_append_of_pos fun c hc => hafter c (List.mem_reverse.1 hc), hback,
    List.reverse_reverse]

/-! ## Numerals -/

theorem exists_digitChar (h : c.isDigit = true) : ∃ d < 10, c = d.digitChar := by
  obtain ⟨hlow, hhigh⟩ := Char.isDigit_iff_toNat.1 h
  have hlow : 48 ≤ c.toNat := hlow
  have hhigh : c.toNat ≤ 57 := hhigh
  refine ⟨c.toNat - 48, by omega, Char.toNat_inj.1 ?_⟩
  rw [Nat.toNat_digitChar_of_lt_ten (by omega)]
  omega

namespace Decimal

theorem ne_nil (h : Decimal cs m) : cs ≠ [] := by
  cases h <;> simp

theorem isDigit (h : Decimal cs m) : ∀ c ∈ cs, c.isDigit = true := by
  induction h with
  | digit hd => simp [hd]
  | append h hd ih =>
    intro c hc
    rcases List.mem_append.1 hc with hc | hc
    · exact ih c hc
    · simp [List.mem_singleton.1 hc, hd]

theorem ofDigitChars_eq (h : Decimal cs m) : Nat.ofDigitChars 10 cs 0 = m := by
  induction h with
  | digit hd => simp [Nat.ofDigitChars_cons_digitChar_of_lt_ten hd]
  | append h hd ih =>
    rw [Nat.ofDigitChars_append, ih, Nat.ofDigitChars_cons_digitChar_of_lt_ten hd, Nat.ofDigitChars_nil]

end Decimal

theorem decimal_ofDigitChars (hne : cs ≠ []) (h : ∀ c ∈ cs, c.isDigit = true) :
    Decimal cs (Nat.ofDigitChars 10 cs 0) := by
  induction cs using List.reverseRecOn with
  | nil => exact absurd rfl hne
  | append_singleton cs c ih =>
    obtain ⟨d, hd, rfl⟩ := exists_digitChar (h c (by simp))
    rw [Nat.ofDigitChars_append, Nat.ofDigitChars_cons_digitChar_of_lt_ten hd, Nat.ofDigitChars_nil]
    rcases eq_or_ne cs [] with rfl | hcs
    · simpa using Decimal.digit hd
    · exact (ih hcs fun c hc => h c (List.mem_append_left _ hc)).append hd

theorem decimal_toDigits (m : Nat) : Decimal (Nat.toDigits 10 m) m := by
  have h : Decimal (Nat.toDigits 10 m) (Nat.ofDigitChars 10 (Nat.toDigits 10 m) 0) :=
    decimal_ofDigitChars Nat.toDigits_ne_nil
      fun c hc => Nat.isDigit_of_mem_toDigits (by decide) (by decide) hc
  rwa [Nat.ofDigitChars_ten_toDigits] at h

theorem readNat?_eq_some_iff : readNat? cs = some m ↔ Decimal cs m := by
  unfold readNat?
  constructor
  · intro h
    split at h
    · rename_i hdigits
      cases h
      simp only [Bool.and_eq_true, Bool.not_eq_true', List.isEmpty_eq_false_iff, List.all_eq_true] at hdigits
      exact decimal_ofDigitChars hdigits.1 hdigits.2
    · cases h
  · intro h
    rw [if_pos, h.ofDigitChars_eq]
    simp only [Bool.and_eq_true, Bool.not_eq_true', List.isEmpty_eq_false_iff, List.all_eq_true]
    exact ⟨h.ne_nil, h.isDigit⟩

theorem map_readNat?_eq_some_iff {f : Int → Int} :
    Option.map f (do pure ((← readNat? cs : Nat) : Int)) = some n ↔ ∃ m : Nat, Decimal cs m ∧ f m = n := by
  cases hm : readNat? cs with
  | none =>
    refine iff_of_false nofun ?_
    rintro ⟨m, h, -⟩
    cases hm.symm.trans (readNat?_eq_some_iff.2 h)
  | some m =>
    constructor
    · intro h
      exact ⟨m, readNat?_eq_some_iff.1 hm, Option.some.inj h⟩
    · rintro ⟨m', h, rfl⟩
      cases hm.symm.trans (readNat?_eq_some_iff.2 h)
      rfl

theorem readInt?_eq_some_iff : readInt? cs = some n ↔ Numeral cs n := by
  constructor
  · intro h
    unfold readInt? at h
    split at h <;> obtain ⟨m, hm, rfl⟩ := map_readNat?_eq_some_iff.1 h
    · exact .minus hm
    · exact .plus hm
    · exact .bare hm
  · intro h
    cases h with
    | plus h | minus h => exact map_readNat?_eq_some_iff.2 ⟨_, h, rfl⟩
    | bare h =>
      unfold readInt?
      split
      · exact absurd (h.isDigit '-' List.mem_cons_self) (by decide)
      · exact absurd (h.isDigit '+' List.mem_cons_self) (by decide)
      · exact map_readNat?_eq_some_iff.2 ⟨_, h, rfl⟩

theorem numeral_toString (n : Int) : Numeral (toString n).toList n := by
  rw [Int.toString_eq_repr, Int.repr_eq_if]
  split
  · have hdecimal := Numeral.bare (decimal_toDigits n.toNat)
    rwa [Int.toNat_of_nonneg (by omega), ← Nat.toList_repr] at hdecimal
  · have hdecimal := Numeral.minus (decimal_toDigits (-n).toNat)
    rw [Int.toNat_of_nonneg (by omega), Int.neg_neg, ← Nat.toList_repr] at hdecimal
    rw [String.toList_append]
    exact hdecimal

theorem isBlank_of_isDigit (h : c.isDigit = true) : isBlank c = false := by
  obtain ⟨d, hd, rfl⟩ := exists_digitChar h
  have hall : ∀ d < 10, isBlank d.digitChar = false := by decide
  exact hall d hd

namespace Numeral

theorem ne_nil (h : Numeral cs n) : cs ≠ [] := by
  cases h with
  | bare h => exact h.ne_nil
  | plus | minus => exact List.cons_ne_nil _ _

theorem isBlank_eq_false (h : Numeral cs n) : ∀ c ∈ cs, isBlank c = false := by
  have hdigits {cs : List Char} {m : Nat} (h : Decimal cs m) : ∀ c ∈ cs, isBlank c = false :=
    fun c hc => isBlank_of_isDigit (h.isDigit c hc)
  cases h with
  | bare h => exact hdigits h
  | plus h | minus h => exact List.forall_mem_cons.2 ⟨by decide, hdigits h⟩

end Numeral

end RowStore.Text
