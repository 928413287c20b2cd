import RowStore.Proofs.Numbering

/-!
# What a column takes

* `Value.type_of_converted` : a value that is converted to a type has it, but for NULL;
* `Column.Takes` : a value that may stand in a column: NULL where that is allowed, or one of its type;
* `accept_cases`, `fit_ends` : however a value comes to be written, in the end it is accepted as it is;
* `fitColumns_slot` : a row is fitted cell by cell;
* `Row.Fits`, `fits_of_fitted` : a row that was fitted has a value in each slot, which its column takes.
-/

namespace RowStore
open RowStore.Action

/-! ## Conversion -/

theorem Value.type_of_counterpart {v w : Value} {target : DataType}
    (h : v.counterpart? target = some w) : w ≠ .null ∧ w.dataType = target := by
  cases target with
  | unknown | null => cases h
  | text =>
    cases h
    exact ⟨nofun, rfl⟩
  | boolean | int | bigInt | double =>
    obtain ⟨x, -, rfl⟩ := Option.map_eq_some_iff.1 h
    exact ⟨nofun, rfl⟩

theorem Value.type_of_converted {v w : Value} {target : DataType} (hv : v ≠ .null)
    (h : v.convertTo target = .ok w) : w ≠ .null ∧ w.dataType = target := by
  unfold convertTo at h
  split at h
  · rename_i hsame
    cases h
    exact ⟨hv, hsame.resolve_right hv⟩
  · split at h
    · rename_i hw
      cases h
      exact type_of_counterpart hw
    · cases h

/-! ## One cell -/

namespace Column
variable {c : Column} {given : Option Value} {fitted : Fitted} {n n' : Numbering} {v : Value}

def Takes (c : Column) (v : Value) : Prop :=
  v = .null ∧ c.nullable = true ∨ v ≠ .null ∧ v.dataType = c.dataType

/-- What is accepted is NULL, or is converted to the type of the column, whose sequence then steps past
it. -/
theorem accept_cases (h : c.accept v n = .ok fitted n') :
    fitted.value (some v) = .null ∧ c.nullable = true ∧ n' = n ∧ v = .null ∨
      v ≠ .null ∧ c.convert v = .ok (fitted.value (some v)) ∧
        c.observe (fitted.value (some v)) n = .ok () n' := by
  unfold accept at h
  split at h
  · rename_i hnull
    split at h
    · rename_i hnullable
      cases h
      cases v <;> cases hnull
      exact Or.inl ⟨rfl, hnullable, rfl, rfl⟩
    · cases h
  · rename_i hnull
    have hv : v ≠ .null := by
      rintro rfl
      exact hnull rfl
    right
    split at h
    · rename_i htype
      obtain ⟨_, n₁, hobserve, h⟩ := bind_eq_ok.1 h
      cases h
      refine ⟨hv, ?_, hobserve⟩
      exact if_pos (Or.inl htype)
    · obtain ⟨w, n₁, hconvert, h⟩ := bind_eq_ok.1 h
      obtain ⟨_, n₂, hobserve, h⟩ := bind_eq_ok.1 h
      cases h
      cases hc : c.convert v with
      | error cause =>
        rw [hc] at hconvert
        cases hconvert
      | ok w' =>
        rw [hc] at hconvert
        cases hconvert
        exact ⟨hv, rfl, hobserve⟩

theorem takes_of_accepted (h : c.accept v n = .ok fitted n') : c.Takes (fitted.value (some v)) := by
  rcases accept_cases h with ⟨hnull, hnullable, -⟩ | ⟨hv, hconvert, -⟩
  · exact Or.inl ⟨hnull, hnullable⟩
  · exact Or.inr (Value.type_of_converted hv hconvert)

/-- Whether a value is given, is a default or takes the place of NULL, it is accepted in the end, and is
written as it is then. -/
theorem fit_ends (h : c.fit given n = .ok fitted n') : ∃ v third n₁,
    c.accept v n₁ = .ok third n' ∧ fitted.value given = third.value (some v) ∧
      ∀ qs, Numbering.From qs n → Numbering.From qs n₁ := by
  have hrest {x : Action Numbering Value} (hx : ∀ qs, Stays (Numbering.From qs) x)
      {write : Value → Fitted → Fitted → Action Numbering Fitted}
      (hwrite : ∀ first n₀ second third n₂, x n = .ok first n₀ →
        write first second third n₂ = .ok fitted n' →
          n₂ = n' ∧ fitted.value given = third.value (some (second.value (some first))))
      (h : (do
        let first ← x
        let second ← c.replaceNull first
        let third ← c.accept (second.value (some first))
        write first second third) n = .ok fitted n') : ∃ v third n₁,
      c.accept v n₁ = .ok third n' ∧ fitted.value given = third.value (some v) ∧
        ∀ qs, Numbering.From qs n → Numbering.From qs n₁ := by
    obtain ⟨first, n₀, hfirst, h⟩ := bind_eq_ok.1 h
    obtain ⟨second, n₁, hsecond, h⟩ := bind_eq_ok.1 h
    obtain ⟨third, n₂, hthird, h⟩ := bind_eq_ok.1 h
    obtain ⟨rfl, hvalue⟩ := hwrite first n₀ second third n₂ hfirst h
    refine ⟨_, third, n₁, hthird, hvalue, fun qs hq => ?_⟩
    exact (c.stays_replaceNull first).of_ok ((hx qs).of_ok hq hfirst) hsecond
  unfold fit at h
  cases given with
  | some g =>
    refine hrest (fun _ => stays_pure g) (fun first n₀ second third n₂ hfirst hwrite => ?_) h
    cases hfirst
    cases second <;> cases third <;> cases hwrite <;> exact ⟨rfl, rfl⟩
  | none =>
    refine hrest (fun _ => c.stays_evalDefault) (fun first n₀ second third n₂ _ hwrite => ?_) h
    cases hwrite
    exact ⟨rfl, rfl⟩

/-- What was unset is never written as it is. -/
theorem fit_none_ne_unchanged (c : Column) (n n' : Numbering) : c.fit none n ≠ .ok .unchanged n' := by
  intro h
  obtain ⟨first, n₀, -, h⟩ := bind_eq_ok.1 h
  obtain ⟨second, n₁, -, h⟩ := bind_eq_ok.1 h
  obtain ⟨third, n₂, -, h⟩ := bind_eq_ok.1 h
  cases h

theorem takes_of_fitted (h : c.fit given n = .ok fitted n') : c.Takes (fitted.value given) := by
  obtain ⟨v, third, n₁, haccept, hvalue, -⟩ := fit_ends h
  rw [hvalue]
  exact takes_of_accepted haccept

end Column

/-! ## Whole rows -/

section Rows
variable {c : Column} {columns : List Column} {place i : Nat} {d d' : Draft Numbering}

theorem onState_eq_ok {α : Type} {act : Action Numbering α} {a : α}
    (h : Draft.onState act d = .ok a d') : act d.state = .ok a d'.state ∧ d'.row = d.row := by
  obtain ⟨n, hn, rfl⟩ := within_eq_ok.1 h
  exact ⟨hn, rfl⟩

theorem Row.set_of_slot {r : Row} {v : Value} (h : r.slots[place]? = some (some v)) :
    r.set place v = r := by
  obtain ⟨hlt, hv⟩ := List.getElem?_eq_some_iff.1 h
  unfold Row.set
  rw [← hv, List.set_getElem_self]

/-- A cell is set to the value that its column fits. -/
theorem fitColumn_eq_ok (h : fitColumn place c d = .ok () d') : ∃ given fitted n,
    c.fit given n = .ok fitted d'.state ∧ d'.row = d.row.set place (fitted.value given) ∧
      ∀ qs, Numbering.From qs d.state → Numbering.From qs n := by
  unfold fitColumn at h
  rw [get_bind] at h
  cases hcomputed : c.computed with
  | some e =>
    rw [hcomputed] at h
    obtain ⟨v, d₁, heval, h⟩ := bind_eq_ok.1 h
    obtain ⟨fitted, d₂, hfit, h⟩ := bind_eq_ok.1 h
    cases h
    obtain ⟨heval, hrow₁⟩ := onState_eq_ok heval
    obtain ⟨hfit, hrow₂⟩ := onState_eq_ok hfit
    refine ⟨some v, fitted, d₁.state, hfit, ?_, fun qs hq => (e.stays_eval _).of_ok hq heval⟩
    dsimp only
    rw [hrow₂, hrow₁]
  | none =>
    rw [hcomputed] at h
    obtain ⟨given, d₁, hslot, h⟩ := bind_eq_ok.1 h
    obtain ⟨fitted, d₂, hfit, h⟩ := bind_eq_ok.1 h
    obtain ⟨hfit, hrow⟩ := onState_eq_ok hfit
    cases hgiven : d.row.slots[place]? with
    | none =>
      rw [hgiven] at hslot
      cases hslot
    | some cell =>
      rw [hgiven] at hslot
      cases hslot
      refine ⟨given, fitted, d.state, ?_, ?_, fun _ hq => hq⟩
      · cases fitted <;> cases h <;> exact hfit
      · cases fitted with
        | replaced v =>
          cases h
          exact congrArg (·.set place v) hrow
        | unchanged =>
          cases h
          cases given with
          | some v => exact hrow.trans (Row.set_of_slot hgiven).symm
          | none => exact absurd hfit (c.fit_none_ne_unchanged _ _)

theorem slots_set_of_ne {r : Row} {v : Value} {j : Nat} (h : place ≠ j) :
    (r.set place v).slots[j]? = r.slots[j]? := List.getElem?_set_ne h

/-- The cells before a place stay as they are while those from it on are fitted. -/
theorem fitColumns_below (h : fitColumns place columns d = .ok () d') :
    d'.row.width = d.row.width ∧ ∀ j < place, d'.row.slots[j]? = d.row.slots[j]? := by
  induction columns generalizing place d with
  | nil =>
    cases h
    exact ⟨rfl, fun _ _ => rfl⟩
  | cons c rest ih =>
    obtain ⟨_, d₁, hfirst, hrest⟩ := bind_eq_ok.1 h
    obtain ⟨given, fitted, n, -, hrow, -⟩ := fitColumn_eq_ok hfirst
    obtain ⟨hwidth, hbelow⟩ := ih hrest
    refine ⟨?_, fun j hj => ?_⟩
    · rw [hwidth, hrow]
      exact List.length_set
    · rw [hbelow j (by omega), hrow, slots_set_of_ne (by omega)]

/-- Each cell of a row is fitted by its column, after the cells before it and before those after it. -/
theorem fitColumns_slot (h : fitColumns place columns d = .ok () d')
    (hw : d.row.width = place + columns.length) (hc : columns[i]? = some c) : ∃ given fitted n n',
    c.fit given n = .ok fitted n' ∧ d'.row.slots[place + i]? = some (some (fitted.value given)) ∧
      (∀ qs, Numbering.From qs d.state → Numbering.From qs n) ∧
      ∀ qs, Numbering.From qs n' → Numbering.From qs d'.state := by
  induction columns generalizing place i d with
  | nil => cases hc
  | cons first rest ih =>
    obtain ⟨_, d₁, hfirst, hrest⟩ := bind_eq_ok.1 h
    obtain ⟨given, fitted, n, hfit, hrow, hfrom⟩ := fitColumn_eq_ok hfirst
    cases i with
    | zero =>
      cases hc
      refine ⟨given, fitted, n, d₁.state, hfit, ?_, hfrom, fun qs hq => ?_⟩
      · rw [(fitColumns_below hrest).2 _ (by omega), hrow]
        exact List.getElem?_set_self (by rw [← Row.width, hw]; simp)
      · exact (stays_fitColumns (place + 1) rest).of_ok hq hrest
    | succ i =>
      have hw₁ : d₁.row.width = place + 1 + rest.length := by
        rw [hrow]
        simp [Row.width, Row.set] at hw ⊢
        omega
      obtain ⟨given', fitted', n', n'', hfit', hslot, hbefore, hafter⟩ := ih hrest hw₁ hc
      refine ⟨given', fitted', n', n'', hfit', ?_, fun qs hq => ?_, hafter⟩
      · rw [← hslot]
        congr 1
        omega
      · exact hbefore qs ((stays_fitColumn place first).of_ok hq hfirst)

/-- The row has a slot for each column, and in it a value that the column takes. -/
structure Row.Fits (columns : List Column) (r : Row) : Prop where
  width : r.width = columns.length
  slots : ∀ (i : Nat) (c : Column), columns[i]? = some c → ∃ v, r.slots[i]? = some (some v) ∧ c.Takes v

theorem fits_of_fitted (h : fitColumns 0 columns d = .ok () d') (hw : d.row.width = columns.length) :
    d'.row.Fits columns where
  width := (fitColumns_below h).1.trans hw
  slots i c hc := by
    obtain ⟨given, fitted, n, n', hfit, hslot, -, -⟩ := fitColumns_slot h (by omega) hc
    rw [Nat.zero_add] at hslot
    exact ⟨_, hslot, c.takes_of_fitted hfit⟩

end Rows

end RowStore
