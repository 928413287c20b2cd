import RowStore.Engine.Access
import RowStore.Proofs.Binary64.Integers
import Mathlib.Data.List.Induction

/-!
# The choice of a plan

* `Helps` : a condition on the leading column of an index can be used, or its order is the wanted one;
* `cost_lt_iff` : just such an index is estimated below the scan;
* `foldl_cheaper` : the first of the plans of least cost is kept;
* `cost?` : the estimate with subtractions that fail below zero and divisions that fail by zero, which
  `cost?_eq_some` shows do not;
* `cheapest_is_optimal` : all of that, for every engine.

Equality on a column leaves the rows divided by the number of distinct combinations of values.  However
the divisions truncate, that number is at least one percent of a total of a thousand or more, so at most a
tenth of the rows is left.
-/

namespace RowStore.Engine

variable {e : Engine} {ix : TreeIndex} {masks : List Condition} {sort : Option SortOrder}

/-! ## Shares -/

theorem selectivity_bounds (e : Engine) (ix : TreeIndex) (place : Nat) :
    1 ≤ e.selectivity ix place ∧ e.selectivity ix place ≤ 100 := by
  unfold selectivity
  split
  · decide
  · dsimp only
    omega

/-- The share of distinct combinations, with a column of which `f` percent are distinct. -/
def joined (s f : Nat) : Nat := 100 - (100 - s) * (100 - f) / 100

def perCombination (total share : Nat) : Nat := max (total / max (total * share / 100) 1) 1

theorem product_lt {s f : Nat} (hf : 1 ≤ f) : (100 - s) * (100 - f) / 100 ≤ 99 := by
  have hle : (100 - s) * (100 - f) ≤ 100 * 99 := Nat.mul_le_mul (by omega) (by omega)
  omega

theorem joined_bounds {s f : Nat} (hf : 1 ≤ f) : 1 ≤ joined s f ∧ joined s f ≤ 100 := by
  have := product_lt (s := s) hf
  unfold joined
  omega

theorem perCombination_lt {total share : Nat} (ht : costOffset ≤ total) (hs : 1 ≤ share) :
    2 + perCombination total share < total := by
  have hoffset : costOffset = 1000 := rfl
  have hmul : total ≤ total * share := Nat.le_mul_of_pos_right total hs
  have htenth : total / max (total * share / 100) 1 ≤ total / 10 :=
    Nat.div_le_div_left (by omega) (by decide)
  unfold perCombination
  omega

/-! ## Estimates -/

theorem estimateFrom_cons (total place : Nat) (est : Estimate) (c : IndexColumn)
    (rest : List IndexColumn) :
    e.estimateFrom ix masks total place est (c :: rest) =
      if ((masks[c.place]?).getD .none).hasEquality then
        if rest.isEmpty && ix.spec.type.unique then 3
        else
          let share := joined est.selectivity (e.selectivity ix place)
          let rows := perCombination total share
          e.estimateFrom ix masks total (place + 1) ⟨2 + rows, rows, share⟩ rest
      else if ((masks[c.place]?).getD .none).hasStart && ((masks[c.place]?).getD .none).hasEnd then
        2 + est.rows / 4
      else if ((masks[c.place]?).getD .none).hasStart then 2 + est.rows / 3
      else if ((masks[c.place]?).getD .none).hasEnd then est.rows / 3
      else est.cost := rfl

/-- What is asked of a column can be used by an index that it leads. -/
def Usable (masks : List Condition) (c : IndexColumn) : Prop :=
  ∃ mask, masks[c.place]? = some mask ∧
    (mask.hasEquality = true ∨ mask.hasStart = true ∨ mask.hasEnd = true)

/-- The leading column of the index has a usable condition, or the index yields its rows in the wanted
order. -/
def Helps (masks : List Condition) (sort : Option SortOrder) (ix : TreeIndex) : Prop :=
  (∃ c, ix.spec.columns.head? = some c ∧ Usable masks c) ∨
    ∃ order, sort = some order ∧ order.isServedBy ix.spec.columns = true

theorem usable_iff (masks : List Condition) (c : IndexColumn) :
    Usable masks c ↔
      ((masks[c.place]?).getD .none).hasEquality = true ∨
        ((masks[c.place]?).getD .none).hasStart = true ∨
        ((masks[c.place]?).getD .none).hasEnd = true := by
  unfold Usable
  cases masks[c.place]? with
  | none =>
    have hno : ¬ (Condition.none.hasEquality = true ∨ Condition.none.hasStart = true ∨
        Condition.none.hasEnd = true) := by decide
    exact ⟨fun ⟨_, h, _⟩ => (nomatch h), fun h => absurd h hno⟩
  | some mask => simp

section Columns
variable {total : Nat} {c : IndexColumn} {rest : List IndexColumn}

theorem estimateFrom_of_not_usable (place : Nat) (est : Estimate) (h : ¬ Usable masks c) :
    e.estimateFrom ix masks total place est (c :: rest) = est.cost := by
  rw [usable_iff] at h
  rw [estimateFrom_cons]
  simp_all

/-- A usable condition brings the estimate below the total, if what comes after keeps it there. -/
theorem estimateFrom_of_usable (ht : costOffset ≤ total)
    (hrest : ∀ place est, est.cost < total → 2 + est.rows < total →
      e.estimateFrom ix masks total place est rest < total)
    (place : Nat) {est : Estimate} (hrows : est.rows ≤ total) (h : Usable masks c) :
    e.estimateFrom ix masks total place est (c :: rest) < total := by
  have hoffset : costOffset = 1000 := rfl
  rw [usable_iff] at h
  rw [estimateFrom_cons]
  split
  · split
    · omega
    · have hshare := (joined_bounds (s := est.selectivity) (selectivity_bounds e ix place).1).1
      have hbelow := perCombination_lt ht hshare
      exact hrest _ _ hbelow hbelow
  · split
    · omega
    · split
      · omega
      · split
        · omega
        · simp_all

/-- Once the estimate is below the total, it stays there. -/
theorem estimateFrom_lt (ht : costOffset ≤ total) (columns : List IndexColumn) :
    ∀ (place : Nat) (est : Estimate), est.cost < total → 2 + est.rows < total →
      e.estimateFrom ix masks total place est columns < total := by
  induction columns with
  | nil => exact fun _ _ hcost _ => hcost
  | cons c rest ih =>
    intro place est hcost hrows
    by_cases h : Usable masks c
    · exact estimateFrom_of_usable ht ih place (by omega) h
    · rw [estimateFrom_of_not_usable place est h]
      exact hcost

end Columns

def unnarrowed (total : Nat) : Estimate := ⟨total, total, 0⟩

/-- The estimate of a query on an index, before the order is considered. -/
def estimate (e : Engine) (masks : List Condition) (ix : TreeIndex) : Nat :=
  e.estimateFrom ix masks (e.rowCount + costOffset) 0 (unnarrowed (e.rowCount + costOffset))
    ix.spec.columns

theorem estimate_cases (e : Engine) (masks : List Condition) (ix : TreeIndex) :
    (∃ c, ix.spec.columns.head? = some c ∧ Usable masks c) ∧
        e.estimate masks ix < e.rowCount + costOffset ∨
      (¬ ∃ c, ix.spec.columns.head? = some c ∧ Usable masks c) ∧
        e.estimate masks ix = e.rowCount + costOffset := by
  unfold estimate
  cases ix.spec.columns with
  | nil => exact .inr ⟨fun ⟨_, h, _⟩ => (nomatch h), rfl⟩
  | cons c rest =>
    by_cases h : Usable masks c
    · have ht : costOffset ≤ e.rowCount + costOffset := Nat.le_add_left _ _
      exact .inl ⟨⟨c, rfl, h⟩,
        estimateFrom_of_usable ht (estimateFrom_lt ht rest) 0 (Nat.le_refl _) h⟩
    · refine .inr ⟨?_, estimateFrom_of_not_usable 0 _ h⟩
      rintro ⟨c', hc, hu⟩
      cases hc
      exact h hu

theorem cost_tree (e : Engine) (masks : List Condition) (sort : Option SortOrder)
    (ix : TreeIndex) :
    e.cost (some masks) sort (.tree ix) =
      if (sort.map (·.isServedBy ix.spec.columns)).getD false then e.estimate masks ix - 1
      else e.estimate masks ix := rfl

theorem cost_le (e : Engine) (masks : Option (List Condition)) (sort : Option SortOrder)
    (a : Access) : e.cost masks sort a ≤ e.rowCount + costOffset := by
  cases a with
  | scan => exact Nat.le_refl _
  | tree ix =>
    cases masks with
    | none => exact Nat.le_refl _
    | some masks =>
      rw [cost_tree]
      have := estimate_cases e masks ix
      split <;> omega

/-- An index is estimated below the scan just if it helps. -/
theorem cost_lt_iff :
    e.cost (some masks) sort (.tree ix) < e.rowCount + costOffset ↔ Helps masks sort ix := by
  have hoffset : costOffset = 1000 := rfl
  have hserved : (sort.map (·.isServedBy ix.spec.columns)).getD false = true ↔
      ∃ order, sort = some order ∧ order.isServedBy ix.spec.columns = true := by
    cases sort <;> simp
  rw [cost_tree]
  unfold Helps
  rw [← hserved]
  rcases estimate_cases e masks ix with ⟨hhead, hlt⟩ | ⟨hhead, heq⟩
  · simp only [hhead, true_or, iff_true]
    split <;> omega
  · simp only [hhead, false_or]
    split <;> simp_all

/-! ## Plans -/

/-- Of several plans, the first of least cost is kept. -/
theorem foldl_cheaper (start : Plan) (plans : List Plan) :
    ∃ before after,
      start :: plans = before ++ plans.foldl Plan.cheaper start :: after ∧
      (∀ p ∈ before, (plans.foldl Plan.cheaper start).cost < p.cost) ∧
      ∀ p ∈ after, (plans.foldl Plan.cheaper start).cost ≤ p.cost := by
  induction plans using List.reverseRecOn with
  | nil => exact ⟨[], [], rfl, by simp, by simp⟩
  | append_singleton plans p ih =>
    obtain ⟨before, after, hsplit, hbefore, hafter⟩ := ih
    rw [List.foldl_append, List.foldl_cons, List.foldl_nil, ← List.cons_append, hsplit]
    generalize plans.foldl Plan.cheaper start = best at *
    unfold Plan.cheaper
    split
    · rename_i hlt
      refine ⟨before ++ best :: after, [], rfl, ?_, by simp⟩
      intro q hq
      rcases List.mem_append.1 hq with hq | hq
      · have := hbefore q hq
        omega
      · rcases List.mem_cons.1 hq with rfl | hq
        · exact hlt
        · have := hafter q hq
          omega
    · rename_i hge
      refine ⟨before, after ++ [p], by simp, hbefore, ?_⟩
      intro q hq
      rcases List.mem_append.1 hq with hq | hq
      · exact hafter q hq
      · rw [List.mem_singleton.1 hq]
        omega

def planOn (e : Engine) (masks : Option (List Condition)) (sort : Option SortOrder) (a : Access) :
    Plan := ⟨a, e.cost masks sort a⟩

theorem cheapest_some (e : Engine) (masks : List Condition) (sort : Option SortOrder) :
    e.cheapest (some masks) sort =
      (e.indexes.map fun ix => e.planOn (some masks) sort (.tree ix)).foldl Plan.cheaper
        (e.planOn (some masks) sort .scan) := by
  rw [List.foldl_map]
  rfl

/-- The plan is on the first of the ways of least cost. -/
theorem cheapest_first (e : Engine) (masks : List Condition) (sort : Option SortOrder) :
    ∃ before best after, e.accesses = before ++ best :: after ∧
      e.cheapest (some masks) sort = e.planOn (some masks) sort best ∧
      (∀ a ∈ before, e.cost (some masks) sort best < e.cost (some masks) sort a) ∧
      ∀ a ∈ after, e.cost (some masks) sort best ≤ e.cost (some masks) sort a := by
  obtain ⟨before, after, hsplit, hbefore, hafter⟩ := foldl_cheaper
    (e.planOn (some masks) sort .scan) (e.indexes.map fun ix => e.planOn (some masks) sort (.tree ix))
  rw [← cheapest_some] at hsplit hbefore hafter
  have hplans : e.planOn (some masks) sort .scan ::
      (e.indexes.map fun ix => e.planOn (some masks) sort (.tree ix)) =
      e.accesses.map (e.planOn (some masks) sort) := by
    simp [accesses]
  rw [hplans] at hsplit
  obtain ⟨before, rest, hways, rfl, hrest⟩ := List.map_eq_append_iff.1 hsplit
  obtain ⟨best, after, rfl, hbest, rfl⟩ := List.map_eq_cons_iff.1 hrest
  rw [← hbest] at hbefore hafter
  refine ⟨before, best, after, hways, hbest.symm, ?_, ?_⟩
  · exact fun a ha => hbefore _ (List.mem_map_of_mem ha)
  · exact fun a ha => hafter _ (List.mem_map_of_mem ha)

/-- The plan is on an index just if some index helps. -/
theorem cheapest_isTree_iff (e : Engine) (masks : List Condition) (sort : Option SortOrder) :
    (e.cheapest (some masks) sort).access ≠ .scan ↔ ∃ ix ∈ e.indexes, Helps masks sort ix := by
  obtain ⟨before, best, after, hways, hbest, hbefore, hafter⟩ := cheapest_first e masks sort
  rw [hbest]
  show best ≠ .scan ↔ _
  constructor
  · intro hne
    have hmem : best ∈ e.accesses := hways ▸ List.mem_append_right _ List.mem_cons_self
    rcases List.mem_cons.1 hmem with hfirst | hmem
    · exact absurd hfirst hne
    · obtain ⟨ix, hix, rfl⟩ := List.mem_map.1 hmem
      -- The scan is the first way of all, so it stands before the best one.
      have hin : Access.scan ∈ before := by
        cases before with
        | nil => exact absurd (List.cons.inj hways).1 Access.noConfusion
        | cons a before => exact (List.cons.inj hways).1 ▸ List.mem_cons_self
      exact ⟨ix, hix, cost_lt_iff.1 (hbefore .scan hin)⟩
  · rintro ⟨ix, hix, hhelps⟩ rfl
    have hlt : e.cost (some masks) sort (.tree ix) < e.rowCount + costOffset :=
      cost_lt_iff.2 hhelps
    have hmem : Access.tree ix ∈ before ++ Access.scan :: after :=
      hways ▸ List.mem_cons_of_mem _ (List.mem_map_of_mem hix)
    have hscan : e.cost (some masks) sort .scan = e.rowCount + costOffset := rfl
    rcases List.mem_append.1 hmem with hin | hin
    · have := hbefore _ hin
      omega
    · rcases List.mem_cons.1 hin with heq | hin
      · cases heq
      · have := hafter _ hin
        omega

/-! ## Checked arithmetic -/

/-- The difference, none below zero. -/
def minus? (a b : Nat) : Option Nat := if b ≤ a then some (a - b) else none

/-- The quotient, none by zero. -/
def over? (a b : Nat) : Option Nat := if b = 0 then none else some (a / b)

theorem minus?_of_le {a b : Nat} (h : b ≤ a) : minus? a b = some (a - b) := if_pos h

theorem over?_of_pos {b : Nat} (a : Nat) (h : 0 < b) : over? a b = some (a / b) :=
  if_neg (Nat.ne_of_gt h)

def selectivity? (e : Engine) (ix : TreeIndex) (place : Nat) : Option Nat :=
  if e.rowCount = 0 then some 50
  else
    let distinct :=
      if ix.spec.columns.length = 1 then ix.map.keyCount
      else runs (ix.map.toList.map fun entry => entry.1[place]?)
    (over? (distinct * 100) e.rowCount).map fun share => max 1 (min share 100)

def joined? (s f : Nat) : Option Nat := do
  let others ← minus? 100 s
  let equal ← minus? 100 f
  let left ← over? (others * equal) 100
  minus? 100 left

def perCombination? (total share : Nat) : Option Nat := do
  let distinct ← over? (total * share) 100
  let rows ← over? total (max distinct 1)
  pure (max rows 1)

/-- The estimate from a place of an index on, checked.  The place is compared with the last one. -/
def estimateFrom? (e : Engine) (ix : TreeIndex) (masks : List Condition) (total : Nat)
    (place : Nat) (est : Estimate) : List IndexColumn → Option Nat
  | [] => some est.cost
  | c :: rest => do
    let mask := (masks[c.place]?).getD .none
    if mask.hasEquality then
      let last ← minus? ix.spec.columns.length 1
      if place = last ∧ ix.spec.type.unique = true then pure 3
      else
        let share ← joined? est.selectivity (← e.selectivity? ix place)
        let rows ← perCombination? total share
        e.estimateFrom? ix masks total (place + 1) ⟨2 + rows, rows, share⟩ rest
    else if mask.hasStart && mask.hasEnd then (over? est.rows 4).map (2 + ·)
    else if mask.hasStart then (over? est.rows 3).map (2 + ·)
    else if mask.hasEnd then over? est.rows 3
    else pure est.cost

/-- The estimated cost of a query on a way, checked.  A served order takes one off, if there is one. -/
def cost? (e : Engine) (masks : Option (List Condition)) (sort : Option SortOrder) :
    Access → Option Nat
  | .scan => some (e.rowCount + costOffset)
  | .tree ix => do
    let total := e.rowCount + costOffset
    let some masks := masks | pure total
    let cost ← e.estimateFrom? ix masks total 0 (unnarrowed total) ix.spec.columns
    if (sort.map (·.isServedBy ix.spec.columns)).getD false then minus? cost (min cost 1)
    else pure cost

theorem selectivity?_eq_some (e : Engine) (ix : TreeIndex) (place : Nat) :
    e.selectivity? ix place = some (e.selectivity ix place) := by
  unfold selectivity? selectivity
  split
  · rfl
  · rename_i hrows
    dsimp only
    rw [over?_of_pos _ (Nat.pos_of_ne_zero hrows)]
    rfl

theorem joined?_eq_some {s f : Nat} (hs : s ≤ 100) (hf : f ≤ 100) (hpos : 1 ≤ f) :
    joined? s f = some (joined s f) := by
  have hleft := product_lt (s := s) hpos
  unfold joined?
  simp only [minus?_of_le hs, minus?_of_le hf, over?_of_pos _ (show 0 < 100 by decide),
    Option.bind_eq_bind, Option.bind_some]
  exact minus?_of_le (by omega)

theorem perCombination?_eq_some (total share : Nat) :
    perCombination? total share = some (perCombination total share) := by
  unfold perCombination?
  rw [over?_of_pos _ (by decide), Option.bind_eq_bind, Option.bind_some, over?_of_pos _ (by omega)]
  rfl

theorem estimateFrom?_eq_some {total : Nat} (columns : List IndexColumn) :
    ∀ (place : Nat) (est : Estimate), place + columns.length = ix.spec.columns.length →
      est.selectivity ≤ 100 →
      e.estimateFrom? ix masks total place est columns =
        some (e.estimateFrom ix masks total place est columns) := by
  induction columns with
  | nil => exact fun _ _ _ _ => rfl
  | cons c rest ih =>
    intro place est hplace hshare
    have hcount : place + (rest.length + 1) = ix.spec.columns.length := hplace
    obtain ⟨hlow, hhigh⟩ := selectivity_bounds e ix place
    have hlast : (place = ix.spec.columns.length - 1 ∧ ix.spec.type.unique = true) ↔
        (rest.isEmpty && ix.spec.type.unique) = true := by
      rw [Bool.and_eq_true, List.isEmpty_iff, ← List.length_eq_zero_iff]
      refine and_congr_left fun _ => ?_
      omega
    rw [estimateFrom_cons]
    unfold estimateFrom?
    dsimp only
    split
    · rw [minus?_of_le (by omega), Option.bind_eq_bind, Option.bind_some]
      by_cases hend : (rest.isEmpty && ix.spec.type.unique) = true
      · rw [if_pos (hlast.2 hend), if_pos hend]
        rfl
      · rw [if_neg (mt hlast.1 hend), if_neg hend]
        simp only [selectivity?_eq_some, joined?_eq_some hshare hhigh hlow, perCombination?_eq_some,
          Option.bind_some]
        exact ih _ _ (by omega) (joined_bounds hlow).2
    · repeat' split
      all_goals rfl

/-- No subtraction of an estimate goes below zero, and no division is by zero. -/
theorem cost?_eq_some (e : Engine) (masks : Option (List Condition)) (sort : Option SortOrder)
    (a : Access) : e.cost? masks sort a = some (e.cost masks sort a) := by
  cases a with
  | scan => rfl
  | tree ix =>
    cases masks with
    | none => rfl
    | some masks =>
      have hless (n : Nat) : minus? n (min n 1) = some (n - 1) := by
        rw [minus?_of_le (by omega)]
        congr 1
        omega
      unfold cost?
      dsimp only
      rw [estimateFrom?_eq_some _ _ _ (by omega) (Nat.zero_le 100), Option.bind_eq_bind,
        Option.bind_some, cost_tree, hless]
      split <;> rfl

/-! ## The result -/

/-- Without conditions the plan is the scan.  With conditions it is the first of the ways of least cost, the
scan being the first way of all, and it is an index just if some index helps.  The estimates neither
subtract below zero nor divide by zero, and as doubles they compare as they do as integers. -/
theorem cheapest_is_optimal (small : e.rowCount < 0x4000000000000) (sort : Option SortOrder) :
    e.cheapest none sort = ⟨.scan, e.rowCount + costOffset⟩ ∧
    (∀ masks, ∃ before best after, e.accesses = before ++ best :: after ∧
      e.cheapest (some masks) sort = ⟨best, e.cost (some masks) sort best⟩ ∧
      (∀ a ∈ before, e.cost (some masks) sort best < e.cost (some masks) sort a) ∧
      (∀ a ∈ after, e.cost (some masks) sort best ≤ e.cost (some masks) sort a) ∧
      (best ≠ .scan ↔ ∃ ix ∈ e.indexes, Helps masks sort ix)) ∧
    (∀ masks a, e.cost? masks sort a = some (e.cost masks sort a)) ∧
    ∀ masks a b,
      compare (Binary64.ofInt (e.cost masks sort a)) (Binary64.ofInt (e.cost masks sort b)) =
        compare (e.cost masks sort a) (e.cost masks sort b) := by
  refine ⟨rfl, fun masks => ?_, fun masks a => cost?_eq_some e masks sort a, fun masks a b => ?_⟩
  · obtain ⟨before, best, after, hways, hbest, hbefore, hafter⟩ := cheapest_first e masks sort
    have hindex := cheapest_isTree_iff e masks sort
    rw [hbest] at hindex
    exact ⟨before, best, after, hways, hbest, hbefore, hafter, hindex⟩
  · have hoffset : costOffset = 1000 := rfl
    have hsignificand (way : Access) : e.cost masks sort way < Binary64.significandLimit := by
      have := cost_le e masks sort way
      unfold Binary64.significandLimit
      omega
    exact Binary64.compare_ofInt (hsignificand a) (hsignificand b)

/-- Of two indexes on the column that is asked for, the first one is taken, and not the one before, which
does not help. -/
theorem cheapest_of_equal_indexes :
    let byName : TreeIndex := ⟨⟨1, "BY_NAME", [⟨1, false⟩], .plain, none⟩, "T", ∅⟩
    let byId : TreeIndex := ⟨⟨2, "BY_ID", [⟨0, false⟩], .distinct, none⟩, "T", ∅⟩
    let again : TreeIndex := ⟨⟨3, "BY_ID_2", [⟨0, false⟩], .distinct, none⟩, "T", ∅⟩
    let e : Engine := { table := 7, name := "T", indexes := [byName, byId, again] }
    e.rowCount < 0x4000000000000 ∧ Helps [⟨1⟩] none byId ∧
      (e.cheapest (some [⟨1⟩]) none).access ≠ .scan ∧
      (e.cheapest (some [⟨1⟩]) none).access.id = 2 := by
  intro byName byId again e
  have hhelps : Helps [⟨1⟩] none byId := .inl ⟨_, rfl, _, rfl, .inl rfl⟩
  obtain ⟨-, hchoice, -⟩ := cheapest_is_optimal (e := e) (by decide) none
  obtain ⟨before, best, after, -, hbest, -, -, hindex⟩ := hchoice [⟨1⟩]
  refine ⟨by decide, hhelps, ?_, by decide +kernel⟩
  rw [hbest]
  exact hindex.2 ⟨byId, by simp [e], hhelps⟩

end RowStore.Engine
