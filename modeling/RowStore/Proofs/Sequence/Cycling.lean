import RowStore.Proofs.Sequence.Numbers

/-!
# Sequences that come round

* `SequenceRule.around` : where a number comes to lie when the numbers are wound around the bounds;
* `SequenceRule.successor_eq_around` : upwards and downwards, the successor is the sum with the increment,
  wound around;
* `Sequence.nth?` : the number that a sequence hands out after so many others;
* `nth?_of_cycles` : how far a sequence comes from anywhere on its way;
* `number_of_cycling` : so every number of a sequence that comes round is known from its rule.
-/

namespace RowStore

namespace SequenceRule
variable {r : SequenceRule} {v : Int}

/-- Where a number comes to lie when the numbers are wound around the bounds, the least one next to the
greatest. -/
def around (r : SequenceRule) (v : Int) : Int :=
  r.least + (v - r.least) % (r.greatest - r.least + 1)

theorem around_of_inBounds (hv : r.inBounds v = true) : r.around v = v := by
  obtain ⟨hlow, hhigh⟩ := inBounds_iff.1 hv
  unfold around
  rw [Int.emod_eq_of_lt (by omega) (by omega)]
  omega

/-- To wind a number around before another is added to it makes no difference. -/
theorem around_around_add (r : SequenceRule) (v w : Int) :
    r.around (r.around v + w) = r.around (v + w) := by
  unfold around
  rw [show r.least + (v - r.least) % (r.greatest - r.least + 1) + w - r.least =
    (v - r.least) % (r.greatest - r.least + 1) + w by omega, Int.emod_add_emod,
    show v - r.least + w = v + w - r.least by omega]

/-- Beyond the greatest number the sequence goes on from the least. -/
theorem around_of_above (r : SequenceRule) (v : Int) :
    r.around v = r.least + (v - r.greatest - 1) % (r.greatest - r.least + 1) := by
  unfold around
  rw [show v - r.least = v - r.greatest - 1 + (r.greatest - r.least + 1) by omega, Int.add_emod_right]

/-- Below the least number it goes on from the greatest. -/
theorem around_of_below (hr : r.fault? = none) (v : Int) :
    r.around v = r.greatest - (r.least - v - 1) % (r.greatest - r.least + 1) := by
  have hrest := emod_span hr (r.least - v - 1)
  have hdiv := Int.emod_add_mul_ediv (r.least - v - 1) (r.greatest - r.least + 1)
  -- What is left of the way down counts from the other end.
  have hturned : v - r.least =
      r.greatest - r.least - (r.least - v - 1) % (r.greatest - r.least + 1) +
        (r.greatest - r.least + 1) * (-((r.least - v - 1) / (r.greatest - r.least + 1)) - 1) := by
    rw [Int.mul_sub, Int.mul_neg]
    omega
  unfold around
  rw [hturned, Int.add_mul_emod_self_left, Int.emod_eq_of_lt (by omega) (by omega)]
  omega

theorem successor_eq_around (hr : r.fault? = none) (hv : r.inBounds v = true) :
    r.successor v = r.around (v + r.increment) := by
  obtain ⟨hmoves, -, -⟩ := fault?_eq_none_iff.1 hr
  obtain ⟨hlow, hhigh⟩ := inBounds_iff.1 hv
  unfold successor
  dsimp only
  split_ifs with hup hover hunder
  · exact (r.around_of_above _).symm
  · exact (around_of_inBounds (inBounds_iff.2 (by omega))).symm
  · exact (around_of_below hr _).symm
  · exact (around_of_inBounds (inBounds_iff.2 (by omega))).symm

end SequenceRule

namespace Sequence
variable {r : SequenceRule} {q : Sequence} {v : Int}

/-- The number that is handed out after `n` others, if there are so many.  `draw` says how a number is
handed out. -/
def nth? (draw : Sequence → Option (Int × Sequence)) : Nat → Sequence → Option Int
  | 0, q => (draw q).map (·.1)
  | n + 1, q => (draw q).bind fun drawn => nth? draw n drawn.2

theorem next_advance_of_cycles (hr : q.rule.fault? = none) (hc : q.rule.cycles = true)
    (hv : q.rule.inBounds v = true) :
    (q.advance v).next = q.rule.around (v + q.rule.increment) := by
  unfold advance
  dsimp only
  split_ifs with hnext
  · exact (SequenceRule.around_of_inBounds hnext).symm
  · exact SequenceRule.successor_eq_around hr hv

theorem exhausted_advance_of_cycles (hc : q.rule.cycles = true) (hq : q.exhausted = false) (v : Int) :
    (q.advance v).exhausted = false := by
  refine eq_false_of_ne_true fun hend => ?_
  rcases exhausted_advance_iff.1 hend with hbefore | ⟨hstraight, -⟩
  · cases hbefore.symm.trans hq
  · cases hstraight.symm.trans hc

/-- From anywhere on its way, a sequence that comes round never ends, and each number is the next one with
so many increments, wound around. -/
theorem nth?_of_cycles (h : q.Sound) (hc : q.rule.cycles = true) (hq : q.exhausted = false) (n : Nat) :
    nth? draw? n q = some (q.rule.around (q.next + n * q.rule.increment)) := by
  induction n generalizing q with
  | zero =>
    have hdraw : q.draw? = some (q.next, q.advance q.next) := if_neg (by simp [hq])
    unfold nth?
    rw [hdraw, Int.natCast_zero, Int.zero_mul, Int.add_zero, SequenceRule.around_of_inBounds h.bounds]
    rfl
  | succ n ih =>
    have hdraw : q.draw? = some (q.next, q.advance q.next) := if_neg (by simp [hq])
    have hrest := ih (h.advance h.bounds) (by rw [rule_advance, hc]) (exhausted_advance_of_cycles hc hq _)
    rw [rule_advance, next_advance_of_cycles h.faultless hc h.bounds,
      SequenceRule.around_around_add] at hrest
    unfold nth?
    rw [hdraw, Option.bind_some, hrest, Int.natCast_succ, Int.add_mul, Int.one_mul]
    congr 2
    omega

/-- Arithmetic that fails outside 128 bits hands out the same numbers. -/
theorem nth?_checkedDraw? (h : q.Sound) (hw : q.rule.Words) (n : Nat) :
    nth? (fun q => q.checkedDraw?.join) n q = nth? draw? n q := by
  have hdraw {q : Sequence} (h : q.Sound) (hw : q.rule.Words) : q.checkedDraw?.join = q.draw? := by
    rw [h.checkedDraw?_eq_some hw]
    rfl
  induction n generalizing q with
  | zero =>
    unfold nth?
    rw [hdraw h hw]
  | succ n ih =>
    unfold nth?
    rw [hdraw h hw]
    cases hd : q.draw? with
    | none => rfl
    | some drawn =>
      have hstep := step_of_draw hd
      refine ih (h.step hstep) ?_
      rwa [rule_onward (.single hstep)]

/-- A sequence that comes round hands out one number after the other for ever: the start, and then one
increment further each time, however long and in whichever direction, counted around the bounds.  Where
the numbers of the rule are words, no step on the way leaves 128 bits and no number 64. -/
theorem number_of_cycling (h : create r = .ok q) (hc : r.cycles = true) (n : Nat) :
    nth? draw? n q = some (r.least +
      (r.start - r.least + n * r.increment) % (r.greatest - r.least + 1)) ∧
    (r.Words → nth? (fun q => q.checkedDraw?.join) n q = some (r.least +
      (r.start - r.least + n * r.increment) % (r.greatest - r.least + 1))) := by
  obtain ⟨hr, rfl⟩ := create_eq_ok h
  have hsound := sound_of_create h
  have hnth : nth? draw? n ⟨r, r.start, none, false⟩ = some (r.least +
      (r.start - r.least + n * r.increment) % (r.greatest - r.least + 1)) := by
    rw [nth?_of_cycles hsound hc rfl]
    unfold SequenceRule.around
    dsimp only
    congr 3
    omega
  exact ⟨hnth, fun hw => (nth?_checkedDraw? hsound hw n).trans hnth⟩

/-- Ten numbers, and backwards by 23: more than two rounds in each step. -/
theorem number_of_cycling_backwards :
    let r : SequenceRule := ⟨1, "ROUND", 4, -23, 1, 10, true, false⟩
    create r = .ok ⟨r, 4, none, false⟩ ∧ r.Words ∧
      nth? (fun q => q.checkedDraw?.join) 1 ⟨r, 4, none, false⟩ = some 1 ∧
      nth? (fun q => q.checkedDraw?.join) 2 ⟨r, 4, none, false⟩ = some 8 := by
  intro r
  have hwords : r.Words := ⟨by decide, by decide, by decide, by decide⟩
  have hcreate : create r = .ok ⟨r, 4, none, false⟩ := rfl
  have hone := (number_of_cycling hcreate rfl 1).2 hwords
  have htwo := (number_of_cycling hcreate rfl 2).2 hwords
  exact ⟨hcreate, hwords, hone.trans (by decide), htwo.trans (by decide)⟩

end Sequence

end RowStore
