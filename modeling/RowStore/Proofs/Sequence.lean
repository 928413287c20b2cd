import Mathlib.Logic.Relation
import Mathlib.Tactic.SplitIfs
import RowStore.Sequence

/-!
# How far a sequence has come

* `Sequence.Step`, `Sequence.Onward` : a sequence hands out a number or steps past one, again and
  again;
* `Sequence.Steady` : a sequence that can go on and does not come round; `steady_of_create`,
  `Steady.onward` : one that was created is steady, and stays so;
* `Sequence.Past` : a number that is not handed out any more; `past_observe`, `Past.onward` : one that
  was stepped past is past from then on;
* `Steady.not_past_next` : the next number is not.
-/

namespace RowStore.Sequence

variable {q q' : Sequence} {v : Int}

/-- One step of a sequence: it hands out its next number, or steps past a number from outside. -/
inductive Step (q : Sequence) : Sequence → Prop where
  | draw (h : q.exhausted = false) : Step q (q.advance q.next)
  | observe (v : Int) : Step q (q.observe v)

def Onward : Sequence → Sequence → Prop := Relation.ReflTransGen Step

/-- The sequence does not come round at its bounds, and its next number lies between them. -/
structure Steady (q : Sequence) : Prop where
  straight : q.rule.cycles = false
  moves : q.rule.increment ≠ 0
  bounds : q.rule.inBounds q.next = true

/-- The number is not handed out any more: the sequence has come beyond it or to its end, or never
reaches it. -/
def Past (q : Sequence) (v : Int) : Prop :=
  q.exhausted = true ∨ (q.reaches v && q.rule.inBounds v) = false

theorem rule_advance (q : Sequence) (v : Int) : (q.advance v).rule = q.rule := by
  unfold advance
  dsimp only
  split_ifs <;> rfl

theorem exhausted_advance (h : q.exhausted = true) (v : Int) : (q.advance v).exhausted = true := by
  unfold advance
  dsimp only
  split_ifs <;> first | exact h | rfl

/-- A sequence that does not come round goes on by its increment, or is at its end. -/
theorem advance_cases (h : q.rule.cycles = false) (v : Int) :
    (q.advance v).next = v + q.rule.increment ∧ q.rule.inBounds (v + q.rule.increment) = true ∨
      (q.advance v).next = q.next ∧ (q.advance v).exhausted = true := by
  unfold advance
  dsimp only
  by_cases hb : q.rule.inBounds (v + q.rule.increment) = true
  · rw [if_pos hb]
    exact Or.inl ⟨rfl, hb⟩
  · rw [if_neg hb, h]
    exact Or.inr ⟨rfl, rfl⟩

theorem observe_cases (q : Sequence) (v : Int) :
    (q.reaches v && q.rule.inBounds v) = true ∧ q.observe v = q.advance v ∨
      (q.reaches v && q.rule.inBounds v) = false ∧ q.observe v = q := by
  unfold observe
  cases h : q.reaches v && q.rule.inBounds v with
  | true => exact Or.inl ⟨rfl, rfl⟩
  | false => exact Or.inr ⟨rfl, rfl⟩

theorem reaches_next (q : Sequence) : q.reaches q.next = true := by
  unfold reaches
  split_ifs <;> simp

/-- A step leads past the next number or past one that the sequence reaches, or nowhere. -/
theorem step_cases (hs : q.Step q') : q' = q ∨ ∃ v, q' = q.advance v ∧ q.reaches v = true ∧
    (v = q.next ∨ q.rule.inBounds v = true) := by
  cases hs with
  | draw _ => exact Or.inr ⟨q.next, rfl, q.reaches_next, Or.inl rfl⟩
  | observe v =>
    rcases observe_cases q v with ⟨hr, he⟩ | ⟨-, he⟩
    · obtain ⟨hreaches, hbounds⟩ := Bool.and_eq_true_iff.1 hr
      exact Or.inr ⟨v, he, hreaches, Or.inr hbounds⟩
    · exact Or.inl he

/-! ## Steady sequences -/

theorem steady_of_create {r : SequenceRule} (h : create r = .ok q) (hc : r.cycles = false) :
    q.Steady := by
  unfold create SequenceRule.fault? at h
  split_ifs at h with hmoves hbounds hstart
  cases h
  exact ⟨hc, hmoves, by simpa using hstart⟩

theorem Steady.advance (h : q.Steady) (v : Int) : (q.advance v).Steady where
  straight := by rw [rule_advance, h.straight]
  moves := by rw [rule_advance]; exact h.moves
  bounds := by
    rw [rule_advance]
    rcases advance_cases h.straight v with ⟨hnext, hb⟩ | ⟨hnext, -⟩
    · rw [hnext, hb]
    · rw [hnext, h.bounds]

theorem Steady.step (h : q.Steady) (hs : q.Step q') : q'.Steady := by
  rcases step_cases hs with rfl | ⟨v, rfl, -⟩
  · exact h
  · exact h.advance v

theorem Steady.onward (h : q.Steady) (ho : q.Onward q') : q'.Steady := by
  induction ho with
  | refl => exact h
  | tail _ hs ih => exact ih.step hs

/-! ## Numbers that are past -/

/-- A sequence that steps on from a number it reaches leaves behind that number and all before. -/
theorem past_advance (h : q.Steady) {w : Int} (hw : q.reaches w = true) (hv : q.Past v ∨ v = w) :
    (q.advance w).Past v := by
  have hmoves := h.moves
  rcases advance_cases h.straight w with ⟨hnext, -⟩ | ⟨-, hend⟩
  · rcases hv with (hend | hv) | rfl
    · exact Or.inl (exhausted_advance hend w)
    · refine Or.inr ?_
      simp only [reaches, rule_advance, hnext, Bool.and_eq_false_iff] at hv hw ⊢
      refine hv.imp_left fun hv => ?_
      split_ifs at hv hw ⊢ <;> simp only [decide_eq_true_eq, decide_eq_false_iff_not] at * <;> omega
    · refine Or.inr ?_
      simp only [reaches, rule_advance, hnext, Bool.and_eq_false_iff] at hw ⊢
      refine Or.inl ?_
      split_ifs <;> simp only [decide_eq_false_iff_not] <;> omega
  · exact Or.inl hend

theorem past_observe (h : q.Steady) (v : Int) : (q.observe v).Past v := by
  rcases observe_cases q v with ⟨hr, he⟩ | ⟨hr, he⟩ <;> rw [he]
  · exact past_advance h (Bool.and_eq_true_iff.1 hr).1 (Or.inr rfl)
  · exact Or.inr hr

theorem Past.step (hv : q.Past v) (h : q.Steady) (hs : q.Step q') : q'.Past v := by
  rcases step_cases hs with rfl | ⟨w, rfl, hw, -⟩
  · exact hv
  · exact past_advance h hw (Or.inl hv)

/-- What is past stays so. -/
theorem Past.onward (hv : q.Past v) (h : q.Steady) (ho : q.Onward q') : q'.Past v := by
  induction ho with
  | refl => exact hv
  | tail hfirst hs ih => exact ih.step (h.onward hfirst) hs

/-- What is handed out next has not been stepped past. -/
theorem Steady.not_past_next (h : q.Steady) (hq : q.exhausted = false) : ¬ q.Past q.next := by
  rintro (hend | hv)
  · rw [hq] at hend
    cases hend
  · rw [q.reaches_next, h.bounds] at hv
    cases hv

end RowStore.Sequence
