import Mathlib.Algebra.Ring.Nat
import RowStore.Options.Duration
import RowStore.Proofs.Text.Numeral

/-!
# Durations come back from their texts

* `Names` : a word stands for a unit of time and can be told from the number before it;
* `Amount` : a number of units, as it is written; `Amount.Sound` : one that can be read back;
* `readPart?_chars`, `readParts_amounts` : a list of amounts is read as such;
* `foldlM_addPart` : and added up, if the sum stays below the bounds;
* `amounts`, `parts`, `write_eq` : the amounts a span is written as; `sum_parts` : they add up to it;
* `read_write` : a span is read from its text;
* `isSpanChar_of_mem_write` : what that text is made of.
-/

namespace RowStore

namespace Duration

/-- The word stands for the unit, and is made of characters that no number has. -/
def Names (word : String) (unit : TimeUnit) : Prop :=
  TimeUnit.named? word = some unit ∧ word.toList.all fun c => isUnitChar c && !isNumberChar c

instance (word : String) (unit : TimeUnit) : Decidable (Names word unit) :=
  inferInstanceAs (Decidable (_ ∧ _))

namespace Names

variable {word : String} {unit : TimeUnit}

theorem chars (h : Names word unit) : ∀ c ∈ word.toList, isUnitChar c = true ∧ isNumberChar c = false := by
  simpa using h.2

theorem exists_cons (h : Names word unit) :
    ∃ c cs, word.toList = c :: cs ∧ isUnitChar c = true ∧ isNumberChar c = false := by
  cases hword : word.toList with
  | nil =>
    have hempty : word = "" := String.toList_inj.1 hword
    have hnamed : TimeUnit.named? "" = some unit := hempty ▸ h.1
    nomatch hnamed
  | cons c cs => exact ⟨c, cs, rfl, h.chars c (hword ▸ List.mem_cons_self)⟩

end Names

/-- A number of units, with the word for the unit. -/
structure Amount where
  count : Nat
  unit : TimeUnit
  word : String

namespace Amount

def text (a : Amount) : String := toString a.count ++ a.word

def chars (a : Amount) : List Char := Nat.toDigits 10 a.count ++ a.word.toList

def part (a : Amount) : Part := ⟨a.count, [], a.unit⟩

/-- The seconds of an amount of a unit of a second or more. -/
def seconds (a : Amount) : Nat := a.count * a.unit.seconds

/-- The nanoseconds of an amount of a smaller unit. -/
def nanos (a : Amount) : Nat := a.count * a.unit.nanos

/-- The amount can be read. -/
structure Sound (a : Amount) : Prop where
  names : Names a.word a.unit
  bounded : a.count < limit

end Amount

variable {a : Amount} {as : List Amount} {cs rest : List Char} {d : Duration} {c : Char} {fuel s n : Nat}

/-! ## Reading amounts -/

theorem Amount.exists_chars (a : Amount) : ∃ c cs, a.chars = c :: cs ∧ c.isDigit = true := by
  have hdecimal := Text.decimal_toDigits a.count
  cases hdigits : Nat.toDigits 10 a.count with
  | nil => exact absurd hdigits hdecimal.ne_nil
  | cons c cs =>
    refine ⟨c, cs ++ a.word.toList, by rw [chars, hdigits, List.cons_append], ?_⟩
    exact hdecimal.isDigit c (hdigits ▸ List.mem_cons_self)

/-- The number of an amount ends where its word begins. -/
theorem span_chars (h : Names a.word a.unit) :
    (a.chars ++ rest).takeWhile isNumberChar = Nat.toDigits 10 a.count ∧
      (a.chars ++ rest).dropWhile isNumberChar = a.word.toList ++ rest := by
  obtain ⟨u, us, hword, -, hu⟩ := h.exists_cons
  have hdigits : ∀ c ∈ Nat.toDigits 10 a.count, isNumberChar c = true := fun c hc => by
    simp [isNumberChar, (Text.decimal_toDigits a.count).isDigit c hc]
  rw [Amount.chars, List.append_assoc]
  refine Text.span_append hdigits fun c hc => ?_
  rw [hword] at hc
  cases hc
  exact hu

/-- No fraction stands before a unit. -/
theorem splitFraction?_word {word : String} {unit : TimeUnit} (h : Names word unit) :
    splitFraction? (word.toList ++ rest) = some ([], word.toList ++ rest) := by
  obtain ⟨u, us, hword, hu, -⟩ := h.exists_cons
  rw [hword]
  unfold splitFraction?
  split
  · rename_i heq
    rw [(List.cons.inj heq).1] at hu
    exact absurd hu (by decide)
  · rfl

/-- An amount is read from its characters, up to the end or the next space. -/
theorem readPart?_chars (h : a.Sound) (hrest : ∀ c ∈ rest.head?, c = ' ') :
    readPart? (a.chars ++ rest) = some (a.part, rest) := by
  have hfirst : (!(a.chars ++ rest).head?.any Char.isDigit) = false := by
    obtain ⟨c, cs, hchars, hc⟩ := a.exists_chars
    simp [hchars, hc]
  have hcount : Nat.ofDigitChars 10 ((Nat.toDigits 10 a.count).filter Char.isDigit) 0 = a.count := by
    rw [List.filter_eq_self.2 (Text.decimal_toDigits a.count).isDigit, Nat.ofDigitChars_ten_toDigits]
  have hbounded : bounded? a.count = some a.count := if_pos h.bounded
  have hunit := Text.span_append (fun c hc => (h.names.chars c hc).1) fun c hc =>
    (hrest c hc ▸ by decide : isUnitChar c = false)
  have hend : rest.head?.all isNumberChar = true :=
    Option.all_eq_true _ _ |>.2 fun c hc => (hrest c hc ▸ by decide : isNumberChar c = true)
  unfold readPart?
  simp only [hfirst, span_chars h.names, hcount, hbounded, splitFraction?_word h.names, hunit, h.names.1, hend,
    String.ofList_toList, bind, Option.bind_some, Bool.false_eq_true, if_false, if_true]
  rfl

theorem dropWhile_amount (h : Text.isBlank c = true) :
    (c :: (a.chars ++ rest)).dropWhile Text.isBlank = a.chars ++ rest := by
  obtain ⟨d, ds, hchars, hd⟩ := a.exists_chars
  rw [List.dropWhile_cons_of_pos h, hchars]
  exact List.dropWhile_cons_of_neg (by simp [Text.isBlank_of_isDigit hd])

theorem readParts_amount (h : a.Sound) (hrest : ∀ c ∈ rest.head?, c = ' ') :
    readParts (fuel + 1) d (' ' :: (a.chars ++ rest)) = d.addPart a.part >>= (readParts fuel · rest) := by
  have hpart := readPart?_chars h hrest
  have hskip : (' ' :: (a.chars ++ rest)).dropWhile Text.isBlank = a.chars ++ rest := dropWhile_amount rfl
  obtain ⟨c, cs, hchars, -⟩ := a.exists_chars
  rw [hchars, List.cons_append] at hpart hskip
  rw [hchars, List.cons_append]
  conv_lhs => unfold readParts
  rw [hskip]
  change OptionsError.orMalformed (readPart? (c :: (cs ++ rest))) >>= _ = _
  rw [hpart]
  rfl

theorem readParts_amounts (h : ∀ a ∈ as, a.Sound) (hfuel : as.length ≤ fuel) :
    readParts fuel d (as.flatMap fun a => ' ' :: a.chars) = as.foldlM (fun d a => d.addPart a.part) d := by
  induction as generalizing d fuel with
  | nil => cases fuel <;> rfl
  | cons a as ih =>
    cases fuel with
    | zero => exact absurd hfuel (Nat.not_succ_le_zero _)
    | succ fuel =>
      -- What follows an amount is the space before the next one, if anything.
      have hrest : ∀ c ∈ (as.flatMap fun a => ' ' :: a.chars).head?, c = ' ' := by
        cases as <;> simp
      rw [List.flatMap_cons, List.cons_append, readParts_amount (h a List.mem_cons_self) hrest, List.foldlM_cons]
      refine bind_congr fun d => ?_
      exact ih (fun a ha => h a (List.mem_cons_of_mem _ ha)) (Nat.le_of_succ_le_succ hfuel)

/-! ## Adding amounts -/

theorem add_eq (hs : d.seconds + s < limit) (hn : d.nanos + n < 1000000000) :
    d.add s n = .ok ⟨d.seconds + s, d.nanos + n⟩ := by
  have hlimit : 1000000000 ≤ limit := by decide
  have hcarry : (d.nanos + n) / 1000000000 = 0 := Nat.div_eq_of_lt hn
  have hnanos : bounded? (d.nanos + n) = some (d.nanos + n) := if_pos (hn.trans_le hlimit)
  have hseconds : bounded? (d.seconds + s) = some (d.seconds + s) := if_pos hs
  unfold add
  rw [hnanos, hseconds]
  simp only [OptionsError.orMalformed, Except.bind, bind]
  rw [hcarry, Nat.add_zero, hseconds, Nat.mod_eq_of_lt hn]
  rfl

theorem addPart_eq (hs : d.seconds + a.seconds < limit) (hn : d.nanos + a.nanos < 1000000000) :
    d.addPart a.part = .ok ⟨d.seconds + a.seconds, d.nanos + a.nanos⟩ := by
  have hlimit : 1000000000 ≤ limit := by decide
  have hseconds : bounded? (a.count * a.unit.seconds) = some a.seconds :=
    if_pos ((Nat.le_add_left _ _).trans_lt hs)
  have hnanos : bounded? (a.count * a.unit.nanos) = some a.nanos :=
    if_pos (((Nat.le_add_left _ _).trans_lt hn).trans_le hlimit)
  unfold addPart
  simp only [Amount.part, hseconds, hnanos, OptionsError.orMalformed]
  change (d.add a.seconds a.nanos >>= pure) = _
  rw [bind_pure, add_eq hs hn]

theorem foldlM_addPart (hs : d.seconds + (as.map Amount.seconds).sum < limit)
    (hn : d.nanos + (as.map Amount.nanos).sum < 1000000000) :
    as.foldlM (fun d a => d.addPart a.part) d =
      .ok ⟨d.seconds + (as.map Amount.seconds).sum, d.nanos + (as.map Amount.nanos).sum⟩ := by
  induction as generalizing d with
  | nil => rfl
  | cons a as ih =>
    simp only [List.map_cons, List.sum_cons, ← Nat.add_assoc] at hs hn ⊢
    rw [List.foldlM_cons, addPart_eq (by omega) (by omega)]
    exact ih hs hn

/-! ## The amounts of a span -/

def plural (count : Nat) (unit : TimeUnit) (word : String) : Amount :=
  ⟨count, unit, if count = 1 then word else word ++ "s"⟩

def amounts (d : Duration) : List Amount :=
  let ofYear := d.seconds % 31557600
  let ofMonth := ofYear % 2630016
  let ofDay := ofMonth % 86400
  [plural (d.seconds / 31557600) .year "year", plural (ofYear / 2630016) .month "month",
    plural (ofMonth / 86400) .day "day", ⟨ofDay / 3600, .hour, "h"⟩, ⟨ofDay % 3600 / 60, .minute, "m"⟩,
    ⟨ofDay % 60, .second, "s"⟩, ⟨d.nanos / 1000000, .millisecond, "ms"⟩,
    ⟨d.nanos / 1000 % 1000, .microsecond, "us"⟩, ⟨d.nanos % 1000, .nanosecond, "ns"⟩]

-- Without explicit proofs, the kernel would multiply by these numbers of seconds in unary.
theorem sum_seconds (d : Duration) : (d.amounts.map Amount.seconds).sum = d.seconds := by
  simp -implicitDefEqProofs [amounts, plural, Amount.seconds, TimeUnit.seconds]
  omega

theorem sum_nanos (d : Duration) : (d.amounts.map Amount.nanos).sum = d.nanos := by
  simp -implicitDefEqProofs [amounts, plural, Amount.nanos, TimeUnit.nanos]
  omega

def parts (d : Duration) : List Amount := d.amounts.filter fun a => a.count ≠ 0

theorem sound_mk {count : Nat} {unit : TimeUnit} {word : String} (h : Names word unit) (hcount : count < limit) :
    Amount.Sound ⟨count, unit, word⟩ := ⟨h, hcount⟩

theorem sound_plural {count : Nat} {unit : TimeUnit} {word : String} (hone : Names word unit)
    (hmany : Names (word ++ "s") unit) (hcount : count < limit) : (plural count unit word).Sound := by
  refine sound_mk ?_ hcount
  split
  · exact hone
  · exact hmany

theorem sound_of_mem_parts (hs : d.seconds < limit) (hn : d.nanos < 1000000000) : ∀ a ∈ d.parts, a.Sound := by
  have hlimit : 1000000000 ≤ limit := by decide
  suffices h : ∀ a ∈ d.amounts, a.Sound from fun a ha => h a (List.mem_of_mem_filter ha)
  simp only [amounts, List.forall_mem_cons]
  exact ⟨sound_plural (by decide) (by decide) (by omega), sound_plural (by decide) (by decide) (by omega),
    sound_plural (by decide) (by decide) (by omega), sound_mk (by decide) (by omega), sound_mk (by decide) (by omega),
    sound_mk (by decide) (by omega), sound_mk (by decide) (by omega), sound_mk (by decide) (by omega),
    sound_mk (by decide) (by omega), nofun⟩

/-- Amounts of zero add nothing. -/
theorem sum_map_filter {f : Amount → Nat} (hf : ∀ a, a.count = 0 → f a = 0) :
    ((as.filter fun a => a.count ≠ 0).map f).sum = (as.map f).sum := by
  induction as with
  | nil => rfl
  | cons a as ih =>
    rw [List.filter_cons, List.map_cons, List.sum_cons, ← ih]
    by_cases ha : a.count = 0
    · rw [if_neg (by simp [ha]), hf a ha, Nat.zero_add]
    · rw [if_pos (by simp [ha]), List.map_cons, List.sum_cons]

theorem sum_parts (d : Duration) :
    (d.parts.map Amount.seconds).sum = d.seconds ∧ (d.parts.map Amount.nanos).sum = d.nanos := by
  refine ⟨(sum_map_filter ?_).trans d.sum_seconds, (sum_map_filter ?_).trans d.sum_nanos⟩
  · intro a ha
    rw [Amount.seconds, ha, Nat.zero_mul]
  · intro a ha
    rw [Amount.nanos, ha, Nat.zero_mul]

theorem flatMap_part (as : List Amount) :
    (as.filter fun a => a.count ≠ 0).map Amount.text = as.flatMap fun a => part a.count a.word := by
  induction as with
  | nil => rfl
  | cons a as ih =>
    rw [List.flatMap_cons, ← ih, List.filter_cons, part]
    by_cases ha : a.count = 0
    · rw [if_neg (by simp [ha]), if_pos ha, List.nil_append]
    · rw [if_pos (by simp [ha]), if_neg ha]
      rfl

theorem write_eq (hd : ¬ (d.seconds = 0 ∧ d.nanos = 0)) : d.write = " ".intercalate (d.parts.map Amount.text) := by
  rw [parts, flatMap_part, write, if_neg hd]
  simp [amounts, plural, pluralPart]

theorem parts_ne_nil (hd : ¬ (d.seconds = 0 ∧ d.nanos = 0)) : d.parts ≠ [] := by
  intro hparts
  obtain ⟨hseconds, hnanos⟩ := d.sum_parts
  rw [hparts] at hseconds hnanos
  exact hd ⟨hseconds.symm, hnanos.symm⟩

/-! ## Reading a span -/

theorem toList_text (a : Amount) : a.text.toList = a.chars := by
  rw [Amount.text, Amount.chars, String.toList_append, Nat.toString_eq_repr, Nat.toList_repr]

theorem cons_intercalate (h : as ≠ []) :
    ' ' :: (" ".intercalate (as.map Amount.text)).toList = as.flatMap fun a => ' ' :: a.chars := by
  have htexts : (as.map Amount.text).map String.toList = as.map Amount.chars := by simp [toList_text]
  rw [String.toList_intercalate, htexts]
  clear htexts
  induction as with
  | nil => exact absurd rfl h
  | cons a as ih =>
    cases as with
    | nil => simp [List.intercalate]
    | cons b as =>
      rw [List.flatMap_cons, ← ih (List.cons_ne_nil _ _), List.map_cons, List.map_cons, List.intercalate_cons_cons]
      simp

theorem length_chars (h : a.Sound) : 2 ≤ a.chars.length := by
  obtain ⟨u, us, hword, -⟩ := h.names.exists_cons
  have hdigits := List.length_pos_iff.2 (Text.decimal_toDigits a.count).ne_nil
  rw [Amount.chars, List.length_append, hword, List.length_cons]
  omega

theorem length_flatMap_chars (h : ∀ a ∈ as, a.Sound) :
    3 * as.length ≤ (as.flatMap fun a => ' ' :: a.chars).length := by
  induction as with
  | nil => exact Nat.zero_le _
  | cons a as ih =>
    have ha := length_chars (h a List.mem_cons_self)
    have has := ih fun a ha => h a (List.mem_cons_of_mem _ ha)
    rw [List.flatMap_cons, List.length_append, List.length_cons, List.length_cons]
    omega

theorem readParts_cons_space (fuel : Nat) (d : Duration) (cs : List Char) :
    readParts fuel d (' ' :: cs) = readParts fuel d cs := by
  have hskip : (' ' :: cs).dropWhile Text.isBlank = cs.dropWhile Text.isBlank := List.dropWhile_cons_of_pos rfl
  unfold readParts
  rw [hskip]

/-- The text of a span that is not zero, after a space. -/
theorem cons_write (hd : ¬ (d.seconds = 0 ∧ d.nanos = 0)) :
    ' ' :: d.write.toList = d.parts.flatMap fun a => ' ' :: a.chars := by
  rw [write_eq hd, cons_intercalate (parts_ne_nil hd)]

/-- The text of a span begins with a digit. -/
theorem exists_write (d : Duration) : ∃ c cs, d.write.toList = c :: cs ∧ c.isDigit = true := by
  by_cases hd : d.seconds = 0 ∧ d.nanos = 0
  · rw [write, if_pos hd]
    exact ⟨'0', ['s'], rfl, rfl⟩
  · have hwrite := cons_write hd
    cases hparts : d.parts with
    | nil => exact absurd hparts (parts_ne_nil hd)
    | cons a as =>
      obtain ⟨c, cs, hchars, hc⟩ := a.exists_chars
      rw [hparts, List.flatMap_cons, hchars, List.cons_append] at hwrite
      exact ⟨c, _, (List.cons.inj hwrite).2, hc⟩

/-- A span is read from its text. -/
theorem read_write (hs : d.seconds < limit) (hn : d.nanos < 1000000000) : read d.write = .ok d := by
  by_cases hd : d.seconds = 0 ∧ d.nanos = 0
  · obtain ⟨seconds, nanos⟩ := d
    obtain ⟨rfl, rfl⟩ := hd
    rfl
  have hwrite := cons_write hd
  have hsound := sound_of_mem_parts hs hn
  -- An amount takes a space, a digit and a letter: the fuel suffices, and the text is no bare zero.
  have hlength : 3 * d.parts.length ≤ d.write.length + 1 := by
    have h := length_flatMap_chars hsound
    rwa [← hwrite, List.length_cons, String.length_toList] at h
  have hparts := List.length_pos_iff.2 (parts_ne_nil hd)
  have hzero : d.write ≠ "0" := by
    intro h
    have hone : d.write.length = 1 := congrArg String.length h
    omega
  have hblank : d.write.toList.all Text.isBlank = false := by
    obtain ⟨c, cs, hcs, hc⟩ := d.exists_write
    rw [hcs, List.all_cons, Text.isBlank_of_isDigit hc, Bool.false_and]
  obtain ⟨hseconds, hnanos⟩ := d.sum_parts
  rw [read, if_neg hzero, if_neg (by simp [hblank]), ← readParts_cons_space, hwrite,
    readParts_amounts hsound (by omega),
    foldlM_addPart (by rwa [hseconds, Nat.zero_add]) (by rwa [hnanos, Nat.zero_add]), hseconds, hnanos,
    Nat.zero_add, Nat.zero_add]

/-! ## The characters of a span -/

def isSpanChar (c : Char) : Bool := c == ' ' || c.isDigit || isUnitChar c

theorem isSpanChar_of_mem_chars (h : a.Sound) : ∀ c ∈ a.chars, isSpanChar c = true := by
  intro c hc
  rcases List.mem_append.1 hc with hc | hc
  · simp [isSpanChar, (Text.decimal_toDigits a.count).isDigit c hc]
  · simp [isSpanChar, (h.names.chars c hc).1]

theorem isSpanChar_of_mem_write (hs : d.seconds < limit) (hn : d.nanos < 1000000000) :
    ∀ c ∈ d.write.toList, isSpanChar c = true := by
  by_cases hd : d.seconds = 0 ∧ d.nanos = 0
  · rw [write, if_pos hd]
    exact List.all_eq_true.1 (by decide)
  · intro c hc
    have hmem : c ∈ d.parts.flatMap fun a => ' ' :: a.chars := cons_write hd ▸ List.mem_cons_of_mem _ hc
    obtain ⟨a, ha, hc⟩ := List.mem_flatMap.1 hmem
    rcases List.mem_cons.1 hc with rfl | hc
    · rfl
    · exact isSpanChar_of_mem_chars (sound_of_mem_parts hs hn a ha) c hc

end Duration

end RowStore
