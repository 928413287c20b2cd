import RowStore.Proofs.Sequence

/-!
# The numbers of a sequence

* `Sequence.Event`, `Sequence.Run` : what a sequence handed out, refused and stepped past since it was
  created;
* `Sequence.Sound`, `Run.sound` : the next number lies between the bounds, also when the sequence comes
  round at them;
* `Run.past` : what a sequence that does not come round handed out or stepped past is past;
* `Run.last_number` : a sequence that is exhausted has handed out or stepped past the last of its numbers;
* `checkedDraw?`, `checkedObserve?` : drawing and observing with arithmetic that fails outside 128 bits,
  which never happens;
* `Run.numbers_in_order` : all of that, for every run.

A sequence that is exhausted keeps the number that was next before, and may even get another one when it
steps past a number.  It hands out neither.
-/

namespace RowStore

/-! ## Rules -/

def IsWord (n : Int) : Prop := Int64.minValue.toInt ≤ n ∧ n ≤ Int64.maxValue.toInt
deriving Decidable

namespace SequenceRule

variable {r : SequenceRule} {v : Int}

/-- All numbers of the rule are words. -/
structure Words (r : SequenceRule) : Prop where
  start : IsWord r.start
  increment : IsWord r.increment
  least : IsWord r.least
  greatest : IsWord r.greatest

/-- The second number lies beyond the first one, on the way that the sequence goes. -/
def Precedes (r : SequenceRule) (v w : Int) : Prop := if 0 < r.increment then v < w else w < v

theorem inBounds_iff : r.inBounds v = true ↔ r.least ≤ v ∧ v ≤ r.greatest := by
  simp [inBounds]

theorem fault?_eq_none_iff :
    r.fault? = none ↔ r.increment ≠ 0 ∧ r.least < r.greatest ∧ r.inBounds r.start = true := by
  unfold fault?
  split_ifs with hmoves hspan hstart
  · exact iff_of_false nofun fun h => h.1 hmoves
  · exact iff_of_false nofun fun h => Int.not_lt.2 hspan h.2.1
  · exact iff_of_false nofun fun h => by simp [h.2.2] at hstart
  · exact iff_of_true rfl ⟨hmoves, Int.not_le.1 hspan, by simpa using hstart⟩

theorem emod_span (hr : r.fault? = none) (n : Int) :
    0 ≤ n % (r.greatest - r.least + 1) ∧
      n % (r.greatest - r.least + 1) < r.greatest - r.least + 1 := by
  obtain ⟨-, hspan, -⟩ := fault?_eq_none_iff.1 hr
  exact ⟨Int.emod_nonneg _ (by omega), Int.emod_lt_of_pos _ (by omega)⟩

theorem inBounds_successor (hr : r.fault? = none) (hv : r.inBounds v = true) :
    r.inBounds (r.successor v) = true := by
  rw [inBounds_iff] at hv ⊢
  have hup := emod_span hr (v + r.increment - r.greatest - 1)
  have hdown := emod_span hr (r.least - (v + r.increment) - 1)
  unfold successor
  dsimp only
  split_ifs <;> omega

end SequenceRule

namespace Sequence

variable {r : SequenceRule} {q q' : Sequence} {v : Int}

/-! ## Sound sequences -/

/-- The rule has no fault, and the next number lies between the bounds. -/
structure Sound (q : Sequence) : Prop where
  faultless : q.rule.fault? = none
  bounds : q.rule.inBounds q.next = true

theorem create_eq_ok (h : create r = .ok q) : r.fault? = none ∧ q = ⟨r, r.start, none, false⟩ := by
  unfold create at h
  cases hr : r.fault? with
  | some what =>
    rw [hr] at h
    cases h
  | none =>
    rw [hr] at h
    cases h
    exact ⟨rfl, rfl⟩

theorem draw?_eq_some (h : q.draw? = some (v, q')) :
    q.exhausted = false ∧ v = q.next ∧ q' = q.advance v := by
  unfold draw? at h
  split_ifs at h with hq
  cases h
  exact ⟨eq_false_of_ne_true hq, rfl, rfl⟩

theorem draw?_eq_none (h : q.draw? = none) : q.exhausted = true := by
  unfold draw? at h
  split_ifs at h with hq
  exact hq

theorem step_of_draw (h : q.draw? = some (v, q')) : q.Step q' := by
  obtain ⟨hq, rfl, rfl⟩ := draw?_eq_some h
  exact .draw hq

theorem sound_of_create (h : create r = .ok q) : q.Sound := by
  obtain ⟨hr, rfl⟩ := create_eq_ok h
  exact ⟨hr, (SequenceRule.fault?_eq_none_iff.1 hr).2.2⟩

theorem Sound.advance (h : q.Sound) (hv : q.rule.inBounds v = true) : (q.advance v).Sound where
  faultless := by rw [rule_advance, h.faultless]
  bounds := by
    rw [rule_advance]
    unfold Sequence.advance
    dsimp only
    split_ifs with hnext hcycles
    · exact hnext
    · exact SequenceRule.inBounds_successor h.faultless hv
    · exact h.bounds

theorem Sound.step (h : q.Sound) (hs : q.Step q') : q'.Sound := by
  rcases step_cases hs with rfl | ⟨v, rfl, -, rfl | hv⟩
  · exact h
  · exact h.advance h.bounds
  · exact h.advance hv

theorem Sound.onward (h : q.Sound) (ho : q.Onward q') : q'.Sound := by
  induction ho with
  | refl => exact h
  | tail _ hs ih => exact ih.step hs

theorem rule_onward (ho : q.Onward q') : q'.rule = q.rule := by
  induction ho with
  | refl => rfl
  | tail _ hs ih =>
    rcases step_cases hs with rfl | ⟨v, rfl, -⟩
    · exact ih
    · rw [rule_advance, ih]

theorem exhausted_step (h : q.exhausted = true) (hs : q.Step q') : q'.exhausted = true := by
  rcases step_cases hs with rfl | ⟨v, rfl, -⟩
  · exact h
  · exact exhausted_advance h v

/-- A sequence comes to its end at the last number of its way that lies between the bounds. -/
theorem exhausted_advance_iff : (q.advance v).exhausted = true ↔ q.exhausted = true ∨
    q.rule.cycles = false ∧ q.rule.inBounds (v + q.rule.increment) = false := by
  unfold advance
  dsimp only
  split_ifs with hnext hcycles <;> simp [*]

/-- Stepping past a number again does nothing. -/
theorem advance_advance (q : Sequence) (v : Int) : (q.advance v).advance v = q.advance v := by
  unfold advance
  dsimp only
  split_ifs <;> rfl

theorem observe_advance (q : Sequence) (v : Int) : (q.advance v).observe v = q.advance v := by
  rcases observe_cases (q.advance v) v with ⟨-, he⟩ | ⟨-, he⟩ <;> rw [he]
  exact advance_advance q v

/-! ## Runs -/

/-- What happens to a sequence. -/
inductive Event where
  /-- A number is handed out. -/
  | drawn (v : Int)
  /-- There is no number to hand out. -/
  | refused
  /-- A word is supplied from outside. -/
  | observed (v : Int64)
deriving DecidableEq

namespace Event

def number? : Event → Option Int
  | drawn v => some v
  | refused => none
  | observed v => some v.toInt

/-- What a number that is handed out has to do with an earlier event: it lies beyond all that were handed
out, and is none that was supplied. -/
def Follows (r : SequenceRule) : Event → Event → Prop
  | drawn w, drawn v => r.Precedes v w
  | drawn w, observed v => w ≠ v.toInt
  | _, _ => True

end Event

/-- The events, latest first, have led the rule to the sequence. -/
inductive Run (r : SequenceRule) : List Event → Sequence → Prop where
  | start {q : Sequence} (h : create r = .ok q) : Run r [] q
  | drawn {history : List Event} {q q' : Sequence} {v : Int} (h : Run r history q) (hd : q.draw? = some (v, q')) :
    Run r (.drawn v :: history) q'
  | refused {history : List Event} {q : Sequence} (h : Run r history q) (hd : q.draw? = none) :
    Run r (.refused :: history) q
  | observed {history : List Event} {q : Sequence} (h : Run r history q) (v : Int64) :
    Run r (.observed v :: history) (q.observe v.toInt)

variable {history : List Event}

/-- A run is a sequence of steps from the start. -/
theorem Run.onward (h : Run r history q) : ∃ start, create r = .ok start ∧ start.Onward q := by
  induction h with
  | start h => exact ⟨_, h, .refl⟩
  | drawn _ hd ih =>
    obtain ⟨start, hstart, ho⟩ := ih
    exact ⟨start, hstart, ho.tail (step_of_draw hd)⟩
  | refused _ _ ih => exact ih
  | observed _ v ih =>
    obtain ⟨start, hstart, ho⟩ := ih
    exact ⟨start, hstart, ho.tail (.observe v.toInt)⟩

theorem Run.sound (h : Run r history q) : q.Sound := by
  obtain ⟨start, hstart, ho⟩ := h.onward
  exact (sound_of_create hstart).onward ho

theorem Run.rule (h : Run r history q) : q.rule = r := by
  obtain ⟨start, hstart, ho⟩ := h.onward
  obtain ⟨-, rfl⟩ := create_eq_ok hstart
  exact rule_onward ho

theorem Run.steady (h : Run r history q) (hc : r.cycles = false) : q.Steady := by
  obtain ⟨start, hstart, ho⟩ := h.onward
  exact (steady_of_create hstart hc).onward ho

theorem Run.inBounds_of_drawn (h : Run r history q) (hv : .drawn v ∈ history) :
    r.inBounds v = true := by
  induction h with
  | start _ => cases hv
  | drawn h hd ih =>
    rcases List.mem_cons.1 hv with heq | hv
    · cases heq
      obtain ⟨-, rfl, -⟩ := draw?_eq_some hd
      rw [← h.rule]
      exact h.sound.bounds
    · exact ih hv
  | refused _ _ ih => exact ih ((List.mem_cons.1 hv).resolve_left nofun)
  | observed _ _ ih => exact ih ((List.mem_cons.1 hv).resolve_left nofun)

/-- A sequence that refused once has come to its end. -/
theorem Run.exhausted_of_refused (h : Run r history q) (hr : .refused ∈ history) :
    q.exhausted = true := by
  induction h with
  | start _ => cases hr
  | drawn _ hd ih =>
    exact exhausted_step (ih ((List.mem_cons.1 hr).resolve_left nofun)) (step_of_draw hd)
  | refused _ hd _ => exact draw?_eq_none hd
  | observed _ v ih =>
    exact exhausted_step (ih ((List.mem_cons.1 hr).resolve_left nofun)) (.observe v.toInt)

/-- A sequence comes to its end at a number that was handed out or supplied. -/
theorem Run.last_number (h : Run r history q) (hq : q.exhausted = true) : r.cycles = false ∧
    ∃ event ∈ history, ∃ v, event.number? = some v ∧ r.inBounds (v + r.increment) = false := by
  induction h with
  | start h =>
    obtain ⟨-, rfl⟩ := create_eq_ok h
    cases hq
  | drawn h hd ih =>
    obtain ⟨hbefore, -, rfl⟩ := draw?_eq_some hd
    rcases exhausted_advance_iff.1 hq with hend | hlast
    · cases hbefore.symm.trans hend
    · rw [h.rule] at hlast
      exact ⟨hlast.1, _, List.mem_cons_self, _, rfl, hlast.2⟩
  | refused _ _ ih =>
    obtain ⟨hcycles, event, hevent, hlast⟩ := ih hq
    exact ⟨hcycles, event, List.mem_cons_of_mem _ hevent, hlast⟩
  | @observed history q h w ih =>
    have hearlier (hend : q.exhausted = true) : r.cycles = false ∧ ∃ event ∈ Event.observed w :: history,
        ∃ v, event.number? = some v ∧ r.inBounds (v + r.increment) = false := by
      obtain ⟨hcycles, event, hevent, hlast⟩ := ih hend
      exact ⟨hcycles, event, List.mem_cons_of_mem _ hevent, hlast⟩
    rcases observe_cases q w.toInt with ⟨-, he⟩ | ⟨-, he⟩
    · rw [he] at hq
      rcases exhausted_advance_iff.1 hq with hend | hlast
      · exact hearlier hend
      · rw [h.rule] at hlast
        exact ⟨hlast.1, _, List.mem_cons_self, _, rfl, hlast.2⟩
    · exact hearlier (he ▸ hq)

/-- Whatever was handed out or supplied is past. -/
theorem Run.past (h : Run r history q) (hc : r.cycles = false) {event : Event}
    (he : event ∈ history) (hv : event.number? = some v) : q.Past v := by
  induction h with
  | start _ => cases he
  | drawn h hd ih =>
    have hsteady := h.steady hc
    rcases List.mem_cons.1 he with rfl | he
    · cases hv
      obtain ⟨-, rfl, rfl⟩ := draw?_eq_some hd
      exact past_advance hsteady (reaches_next _) (.inr rfl)
    · exact (ih he).step hsteady (step_of_draw hd)
  | refused _ _ ih =>
    rcases List.mem_cons.1 he with rfl | he
    · cases hv
    · exact ih he
  | observed h w ih =>
    have hsteady := h.steady hc
    rcases List.mem_cons.1 he with rfl | he
    · cases hv
      exact past_observe hsteady w.toInt
    · exact (ih he).step hsteady (.observe w.toInt)

/-- What is past and within the bounds lies before the next number. -/
theorem Past.precedes_next (hq : q.exhausted = false) (hv : q.Past v)
    (hb : q.rule.inBounds v = true) : q.rule.Precedes v q.next := by
  rcases hv with hend | hv
  · rw [hq] at hend
    cases hend
  · rw [hb, Bool.and_true] at hv
    unfold reaches at hv
    unfold SequenceRule.Precedes
    split_ifs at hv ⊢ <;> simpa using hv

theorem Run.follows (h : Run r history q) (hc : r.cycles = false) :
    history.Pairwise (Event.Follows r) := by
  induction h with
  | start _ => exact .nil
  | drawn h hd ih =>
    obtain ⟨hq, rfl, -⟩ := draw?_eq_some hd
    refine .cons (fun event he => ?_) ih
    cases event with
    | drawn v =>
      have hb := h.inBounds_of_drawn he
      rw [← h.rule] at hb
      have hbefore := (h.past hc he rfl).precedes_next hq hb
      rwa [h.rule] at hbefore
    | refused => exact trivial
    | observed v =>
      intro heq
      exact (h.steady hc).not_past_next hq (heq ▸ h.past hc he rfl)
  | refused _ _ ih => exact .cons (fun _ _ => trivial) ih
  | observed _ _ ih => exact .cons (fun _ _ => trivial) ih

/-! ## Checked arithmetic -/

/-- The first number that is too large for 128 bits, `2 ^ 127`. -/
def wideLimit : Int := 0x80000000000000000000000000000000

def wide? (n : Int) : Option Int := if -wideLimit ≤ n ∧ n < wideLimit then some n else none

def word? (n : Int) : Option Int := if IsWord n then some n else none

def plus? (a b : Int) : Option Int := wide? (a + b)

def minus? (a b : Int) : Option Int := wide? (a - b)

/-- What a division that rounds towards zero leaves.  It fails with the quotient. -/
def rem? (a b : Int) : Option Int :=
  if b = 0 then none else (wide? (a.tdiv b)).map fun _ => a.tmod b

def checkedSuccessor? (r : SequenceRule) (v : Int) : Option Int := do
  let next ← plus? v r.increment
  if 0 < r.increment then
    if r.greatest < next then
      let beyond ← minus? (← minus? next r.greatest) 1
      let span ← plus? (← minus? r.greatest r.least) 1
      plus? r.least (← rem? beyond span)
    else pure next
  else if next < r.least then
    let beyond ← minus? (← minus? r.least next) 1
    let span ← plus? (← minus? r.greatest r.least) 1
    minus? r.greatest (← rem? beyond span)
  else pure next

def checkedAdvance? (q : Sequence) (v : Int) : Option Sequence := do
  let q := { q with current := some (← word? v) }
  let next ← plus? v q.rule.increment
  if q.rule.inBounds next then pure { q with next := next }
  else if q.rule.cycles then pure { q with next := ← checkedSuccessor? q.rule v }
  else pure { q with exhausted := true }

/-- `Sequence.draw?`, checked. -/
def checkedDraw? (q : Sequence) : Option (Option (Int × Sequence)) :=
  if q.exhausted then some none
  else do
    let q' ← q.checkedAdvance? q.next
    pure (some (← word? q.next, q'))

/-- `Sequence.observe`, checked. -/
def checkedObserve? (q : Sequence) (v : Int) : Option Sequence :=
  if q.reaches v && q.rule.inBounds v then q.checkedAdvance? v else some q

theorem wide?_of_bounds {n : Int} (h : -wideLimit ≤ n ∧ n < wideLimit) : wide? n = some n := if_pos h

theorem rem?_of_nonneg {a b : Int} (ha : 0 ≤ a) (hlt : a < wideLimit) (hb : 0 < b) :
    rem? a b = some (a % b) := by
  have hle : a / b ≤ a := Int.ediv_le_self b ha
  have hge : 0 ≤ a / b := Int.ediv_nonneg ha (Int.le_of_lt hb)
  unfold rem?
  rw [if_neg (by omega), Int.tdiv_eq_ediv_of_nonneg ha, wide?_of_bounds (by omega),
    Int.tmod_eq_emod_of_nonneg ha]
  rfl

section Checked
variable (hw : r.Words) (hr : r.fault? = none) (hv : r.inBounds v = true)
include hw hv

theorem isWord_of_inBounds : IsWord v := by
  obtain ⟨hlow, hhigh⟩ := SequenceRule.inBounds_iff.1 hv
  exact ⟨Int.le_trans hw.least.1 hlow, Int.le_trans hhigh hw.greatest.2⟩

theorem plus?_increment : plus? v r.increment = some (v + r.increment) := by
  have hword := isWord_of_inBounds hw hv
  have hstep := hw.increment
  unfold IsWord at hword hstep
  simp only [Int64.toInt_minValue, Int64.toInt_maxValue] at hword hstep
  have hlimit : wideLimit = 0x80000000000000000000000000000000 := rfl
  exact wide?_of_bounds (by omega)

include hr

theorem checkedSuccessor?_eq_some : checkedSuccessor? r v = some (r.successor v) := by
  obtain ⟨-, hspan, -⟩ := SequenceRule.fault?_eq_none_iff.1 hr
  obtain ⟨hlow, hhigh⟩ := SequenceRule.inBounds_iff.1 hv
  have hstep := hw.increment
  have hleast := hw.least
  have hgreatest := hw.greatest
  unfold IsWord at hstep hleast hgreatest
  simp only [Int64.toInt_minValue, Int64.toInt_maxValue] at hstep hleast hgreatest
  have hlimit : wideLimit = 0x80000000000000000000000000000000 := rfl
  have hup := SequenceRule.emod_span hr (v + r.increment - r.greatest - 1)
  have hdown := SequenceRule.emod_span hr (r.least - (v + r.increment) - 1)
  unfold checkedSuccessor? SequenceRule.successor
  rw [plus?_increment hw hv, Option.bind_eq_bind, Option.bind_some]
  dsimp only
  unfold plus? minus?
  split_ifs with hsign hover hunder
  · simp (disch := omega) only [wide?_of_bounds, rem?_of_nonneg, Option.bind_some]
  · rfl
  · simp (disch := omega) only [wide?_of_bounds, rem?_of_nonneg, Option.bind_some]
  · rfl

end Checked

theorem Sound.checkedAdvance?_eq_some (h : q.Sound) (hw : q.rule.Words)
    (hv : q.rule.inBounds v = true) : q.checkedAdvance? v = some (q.advance v) := by
  have hword : word? v = some v := if_pos (isWord_of_inBounds hw hv)
  unfold checkedAdvance? Sequence.advance
  simp only [hword, plus?_increment hw hv, checkedSuccessor?_eq_some hw h.faultless hv,
    Option.bind_eq_bind, Option.bind_some]
  split_ifs <;> rfl

theorem Sound.checkedDraw?_eq_some (h : q.Sound) (hw : q.rule.Words) :
    q.checkedDraw? = some q.draw? := by
  have hword : word? q.next = some q.next := if_pos (isWord_of_inBounds hw h.bounds)
  unfold checkedDraw? draw?
  rw [h.checkedAdvance?_eq_some hw h.bounds, hword]
  split_ifs <;> rfl

theorem Sound.checkedObserve?_eq_some (h : q.Sound) (hw : q.rule.Words) (v : Int) :
    q.checkedObserve? v = some (q.observe v) := by
  unfold checkedObserve? observe
  split_ifs with hv
  · exact h.checkedAdvance?_eq_some hw (Bool.and_eq_true_iff.1 hv).2
  · rfl

/-! ## The result -/

/-- All numbers that are handed out lie between the bounds, and no step towards them leaves 128 bits.
Without coming round at its bounds, a sequence hands out numbers each beyond the ones before and none that
was supplied before.  It refuses only when one of these was the last on its way, and from then on for
ever.  To be supplied with the number just handed out changes nothing. -/
theorem Run.numbers_in_order (hw : r.Words) (h : Run r history q) :
    (∀ v, .drawn v ∈ history → r.least ≤ v ∧ v ≤ r.greatest) ∧
    (q.checkedDraw? = some q.draw? ∧
      ∀ v : Int64, q.checkedObserve? v.toInt = some (q.observe v.toInt)) ∧
    (r.cycles = false → history.Pairwise (Event.Follows r)) ∧
    (.refused ∈ history → q.draw? = none) ∧
    (q.draw? = none → r.cycles = false ∧ ∃ event ∈ history, ∃ v, event.number? = some v ∧
      r.inBounds (v + r.increment) = false) ∧
    ∀ v q', q.draw? = some (v, q') → q'.observe v = q' := by
  have hwords : q.rule.Words := by
    rw [h.rule]
    exact hw
  refine ⟨?_, ⟨?_, ?_⟩, h.follows, ?_, ?_, ?_⟩
  · exact fun v hv => SequenceRule.inBounds_iff.1 (h.inBounds_of_drawn hv)
  · exact h.sound.checkedDraw?_eq_some hwords
  · exact fun v => h.sound.checkedObserve?_eq_some hwords v.toInt
  · exact fun hr => if_pos (h.exhausted_of_refused hr)
  · exact fun hnone => h.last_number (draw?_eq_none hnone)
  · intro v q' hd
    obtain ⟨-, -, rfl⟩ := draw?_eq_some hd
    exact observe_advance q v

/-- A sequence of every third number is supplied with one that it passes over, and goes on from there to
its end.  A number that is supplied after that does not bring it back. -/
theorem Run.numbers_to_the_end :
    let r : SequenceRule := ⟨1, "BY_THREE", 7, 3, 1, 20, false, false⟩
    let history : List Event :=
      [.refused, .observed 20, .refused, .drawn 18, .drawn 15, .observed 12, .drawn 7]
    let q : Sequence := ⟨r, 18, some 20, true⟩
    r.Words ∧ Run r history q ∧ history.Pairwise (Event.Follows r) ∧ q.draw? = none ∧
      q.checkedDraw? = some none := by
  intro r history q
  have hwords : r.Words := ⟨by decide, by decide, by decide, by decide⟩
  have hseven : Run r [.drawn 7] ⟨r, 10, some 7, false⟩ := .drawn (.start rfl) rfl
  have htwelve : Run r [.observed 12, .drawn 7] ⟨r, 15, some 12, false⟩ := .observed hseven 12
  have heighteen : Run r [.drawn 18, .drawn 15, .observed 12, .drawn 7] ⟨r, 18, some 18, true⟩ :=
    .drawn (.drawn htwelve rfl) rfl
  have hrun : Run r history q := .refused (.observed (.refused heighteen rfl) 20) rfl
  obtain ⟨-, ⟨hchecked, -⟩, hfollows, hrefused, -, -⟩ := hrun.numbers_in_order hwords
  have hend : q.draw? = none := hrefused List.mem_cons_self
  exact ⟨hwords, hrun, hfollows rfl, hend, hend ▸ hchecked⟩

end Sequence

end RowStore
