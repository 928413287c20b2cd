import RowStore.Proofs.Column
import RowStore.Proofs.Condition
import RowStore.Proofs.Store.Onward

/-!
# What computed columns hold

* `Expr.places`, `Expr.eval_congr` : the columns that an expression reads, and all that it depends on;
* `Row.upTo` : a row that is finished before a place and as given from there on;
* `fitColumns_at` : the row as it is when the turn of a column comes, and as its cell is left then;
* `Column.Yields` : a value is what an expression gives on a row, converted to the type of the column;
* `computed_cells_agree` : that of a computed column with the row as it is at its turn, and with the
  finished row where the columns it reads from there on are as they were given.

A row is finished column by column.  A computed column sees the columns before it finished, but those
after it, and itself, as they were given.
-/

namespace RowStore
open RowStore.Action RowStore.Store

/-! ## What an expression reads -/

namespace Expr

/-- The places of the columns that an expression reads. -/
def places : Expr → List Nat
  | literal _ => []
  | column place _ => [place]
  | nextValue _ => []
  | add a b => a.places ++ b.places
  | compare _ a b => a.places ++ b.places

/-- Rows that agree on the columns that are read give the same value. -/
theorem eval_congr {e : Expr} {r r' : Row} (h : ∀ j ∈ e.places, r.value? j = r'.value? j) :
    e.eval (some r) = e.eval (some r') := by
  induction e with
  | literal v => rfl
  | column place name =>
    unfold eval
    dsimp only
    rw [h place (List.mem_singleton_self _)]
  | nextValue ref => rfl
  | add x y hx hy | compare op x y hx hy =>
    unfold eval
    rw [hx fun j hj => h j (List.mem_append_left _ hj), hy fun j hj => h j (List.mem_append_right _ hj)]

end Expr

/-! ## Rows that are half finished -/

namespace Row
variable {finished given r r' : Row} {place j : Nat}

/-- A row that is finished before a place and as given from there on. -/
def upTo (finished : Row) (place : Nat) (given : Row) : Row :=
  { given with slots := finished.slots.take place ++ given.slots.drop place }

theorem slots_upTo (h : place ≤ finished.width) (j : Nat) : (finished.upTo place given).slots[j]? =
    if j < place then finished.slots[j]? else given.slots[j]? := by
  have hlength : (finished.slots.take place).length = place := List.length_take_of_le h
  unfold upTo
  split
  · rename_i hj
    rw [List.getElem?_append_left (by omega), List.getElem?_take_of_lt hj]
  · rw [List.getElem?_append_right (by omega), hlength, List.getElem?_drop]
    congr 1
    omega

theorem value?_congr (h : r.slots[j]? = r'.slots[j]?) : r.value? j = r'.value? j :=
  congrArg (Option.map fun cell : Option Value => cell.getD .null) h

end Row

/-! ## The turn of a column -/

namespace Column
variable {c : Column} {e : Expr} {v w : Value} {n n' : Numbering} {fitted : Fitted}

/-- The value is what an expression gives on a row, however the sequences stand, converted to the type of
the column. -/
def Yields (c : Column) (e : Expr) (r : Row) (w : Value) : Prop :=
  ∃ v, e.eval (some r) = pure v ∧ c.convert v = .ok w

theorem Yields.congr {r r' : Row} (h : c.Yields e r w)
    (hr : ∀ j ∈ e.places, r.value? j = r'.value? j) : c.Yields e r' w := by
  obtain ⟨v, heval, hconvert⟩ := h
  exact ⟨v, (Expr.eval_congr hr).symm.trans heval, hconvert⟩

/-- A value that is accepted is converted to the type of the column, NULL too. -/
theorem convert_of_accepted (h : c.accept v n = .ok fitted n') :
    c.convert v = .ok (fitted.value (some v)) := by
  rcases accept_cases h with ⟨hvalue, -, -, rfl⟩ | ⟨-, hconvert, -⟩
  · rw [hvalue]
    have hnull : Value.null.dataType = c.dataType ∨ Value.null = .null := Or.inr rfl
    exact if_pos hnull
  · exact hconvert

theorem replaceNull_of_plain (plain : c.nullToDefault = false) (v : Value) :
    c.replaceNull v = pure .unchanged := by
  unfold replaceNull
  rw [plain, Bool.and_false]
  rfl

/-- Where NULL does not become the default, a given value is just accepted. -/
theorem fit_given (plain : c.nullToDefault = false) (h : c.fit (some v) n = .ok fitted n') :
    c.accept v n = .ok fitted n' := by
  obtain ⟨first, n₀, hfirst, h⟩ := bind_eq_ok.1 h
  cases hfirst
  obtain ⟨second, n₁, hsecond, h⟩ := bind_eq_ok.1 h
  rw [replaceNull_of_plain plain] at hsecond
  cases hsecond
  obtain ⟨third, n₂, haccept, h⟩ := bind_eq_ok.1 h
  cases third <;> cases h <;> exact haccept

end Column

section Turn
variable {c : Column} {e : Expr} {columns : List Column} {place i : Nat} {d d' : Draft Numbering}

/-- A computed cell is set to what the expression gives on the row so far. -/
theorem yields_of_fitColumn (h : fitColumn place c d = .ok () d') (he : c.computed = some e)
    (free : e.sequences = []) (plain : c.nullToDefault = false) :
    ∃ w, c.Yields e d.row w ∧ d'.row = d.row.set place w := by
  unfold fitColumn at h
  rw [get_bind, he] at h
  obtain ⟨v, d₁, heval, h⟩ := bind_eq_ok.1 h
  obtain ⟨fitted, d₂, hfit, h⟩ := bind_eq_ok.1 h
  cases h
  obtain ⟨heval, hrow₁⟩ := onState_eq_ok heval
  obtain ⟨hfit, hrow₂⟩ := onState_eq_ok hfit
  obtain ⟨came, hcame⟩ := Expr.eval_of_free free (some d.row)
  rw [hcame] at heval
  cases came with
  | error cause => cases heval
  | ok v' =>
    obtain ⟨rfl, -⟩ := EStateM.Result.ok.inj heval
    refine ⟨_, ⟨v', hcame, Column.convert_of_accepted (Column.fit_given plain hfit)⟩, ?_⟩
    dsimp only
    rw [hrow₂, hrow₁]

/-- When the turn of a column comes, the cells before it are as they will be in the end, and those from
it on as they were at first.  Then its own cell is left as it will be. -/
theorem fitColumns_at (h : fitColumns place columns d = .ok () d') (hc : columns[i]? = some c) :
    ∃ d₁ d₂, fitColumn (place + i) c d₁ = .ok () d₂ ∧ d₁.row.width = d.row.width ∧
      (∀ j < place + i, d₁.row.slots[j]? = d'.row.slots[j]?) ∧
      (∀ j, place + i ≤ j → d₁.row.slots[j]? = d.row.slots[j]?) ∧
      d'.row.slots[place + i]? = d₂.row.slots[place + i]? := by
  induction columns generalizing place i d with
  | nil => cases hc
  | cons first rest ih =>
    obtain ⟨_, d₁, hfirst, hrest⟩ := bind_eq_ok.1 h
    cases i with
    | zero =>
      cases hc
      obtain ⟨given, fitted, n, -, hrow, -⟩ := fitColumn_eq_ok hfirst
      have hbelow := (fitColumns_below hrest).2
      refine ⟨d, d₁, hfirst, rfl, fun j hj => ?_, fun _ _ => rfl, hbelow _ (by omega)⟩
      rw [hbelow j (by omega), hrow, slots_set_of_ne (by omega)]
    | succ i =>
      obtain ⟨given, fitted, n, -, hrow, -⟩ := fitColumn_eq_ok hfirst
      obtain ⟨d₂, d₃, hturn, hwidth, hbefore, hafter, hcell⟩ := ih hrest hc
      rw [show place + 1 + i = place + (i + 1) by omega] at hturn hbefore hafter hcell
      refine ⟨d₂, d₃, hturn, ?_, hbefore, fun j hj => ?_, hcell⟩
      · rw [hwidth, hrow]
        exact List.length_set
      · rw [hafter j hj, hrow, slots_set_of_ne (by omega)]

end Turn

/-! ## Rows of a table -/

/-- When a row is fitted, each computed column whose expression draws no number, and that keeps NULL, gets
what the expression gives on the row with the columns before it finished, and itself and the others as
they were given.  It is what the expression gives on the finished row where the columns that it reads,
apart from those before it, have the values that they were given. -/
theorem computed_cells_agree {t u i : Nat} {s s' : Store} {r fitted : Row} {c : Column} {e : Expr}
    (h : Draft.run (fitRow t u) r s = .ok ((), fitted) s')
    (hc : (s.table t).columns.get? i = some c) (he : c.computed = some e) (free : e.sequences = [])
    (plain : c.nullToDefault = false) :
    ∃ w, fitted.slots[i]? = some (some w) ∧ c.Yields e (fitted.upTo i r) w ∧
      ((∀ j ∈ e.places, i ≤ j → fitted.value? j = r.value? j) → c.Yields e fitted w) := by
  obtain ⟨n, hw, hfitted, -⟩ := fitRow_eq_ok h
  obtain ⟨d₁, d₂, hturn, hwidth, hbefore, hafter, hcell⟩ := fitColumns_at hfitted hc
  rw [Nat.zero_add] at hturn hbefore hafter hcell
  obtain ⟨w, hyields, hrow⟩ := yields_of_fitColumn hturn he free plain
  have hi : i < r.width := by
    rw [hw]
    exact (List.getElem?_eq_some_iff.1 hc).1
  have hi₁ : i < d₁.row.width := hwidth.symm ▸ hi
  have hsame : fitted.width = r.width := (fitColumns_below hfitted).1
  refine ⟨w, ?_, hyields.congr fun j _ => Row.value?_congr ?_, fun hkept => ?_⟩
  · rw [hcell, hrow]
    exact List.getElem?_set_self hi₁
  · rw [Row.slots_upTo (by omega)]
    split
    · rename_i hj
      exact hbefore j hj
    · rename_i hj
      exact hafter j (by omega)
  · refine hyields.congr fun j hj => ?_
    by_cases hji : j < i
    · exact Row.value?_congr (hbefore j hji)
    · exact (Row.value?_congr (hafter j (by omega))).trans (hkept j hj (by omega)).symm

def withColumns (columns : List Column) : Store where
  tables := ⟨[(7, { Table.empty 7 "T" with columns := { list := columns } })]⟩

def sumOfSides : Expr := .add (.column 0 "A") (.column 2 "C")

def sumColumn : Column := { name := "B", dataType := .bigInt, computed := some sumOfSides }

def summing : Store := withColumns
  [{ name := "A", dataType := .int, default := some (.literal (.text "7")) }, sumColumn,
    { name := "C", dataType := .int }]

/-- The sum counts the default on its left and the given value on its right, whatever it was given. -/
theorem sum_of_sides_agrees :
    Draft.run (fitRow 7 1) ⟨none, [none, some (.bigInt 99), some (.int 5)]⟩ summing =
        .ok ((), ⟨none, [some (.int 7), some (.bigInt 12), some (.int 5)]⟩)
          (summing.setNumbering 1 (summing.numbering 1)) ∧
      sumColumn.Yields sumOfSides ⟨none, [some (.int 7), some (.bigInt 12), some (.int 5)]⟩
        (.bigInt 12) := by
  have hrun : Draft.run (fitRow 7 1) ⟨none, [none, some (.bigInt 99), some (.int 5)]⟩ summing =
      .ok ((), ⟨none, [some (.int 7), some (.bigInt 12), some (.int 5)]⟩)
        (summing.setNumbering 1 (summing.numbering 1)) := rfl
  obtain ⟨w, hw, -, hfinished⟩ :=
    computed_cells_agree hrun (show (summing.table 7).columns.get? 1 = some sumColumn from rfl) rfl rfl rfl
  cases hw
  refine ⟨hrun, hfinished fun j hj hij => ?_⟩
  rcases List.mem_pair.1 hj with rfl | rfl
  · cases hij
  · rfl

/-- A computed column before a column that takes its default is computed from NULL. -/
theorem not_computed_cells_agree_anywhere : ¬ ∀ (t u i : Nat) (s s' : Store) (r fitted : Row)
    (c : Column) (e : Expr), Draft.run (fitRow t u) r s = .ok ((), fitted) s' →
      (s.table t).columns.get? i = some c → c.computed = some e → e.sequences = [] →
        c.nullToDefault = false → ∃ w, fitted.slots[i]? = some (some w) ∧ c.Yields e fitted w := by
  intro hall
  obtain ⟨w, hw, v, heval, hconvert⟩ := hall 7 1 0
    (withColumns [{ name := "A", dataType := .int, computed := some (.column 1 "B") },
      { name := "B", dataType := .int, default := some (.literal (.int 5)) }]) _
    ⟨none, [none, none]⟩ ⟨none, [some .null, some (.int 5)]⟩ _ _ rfl rfl rfl rfl rfl
  cases hw
  obtain ⟨rfl, -⟩ := EStateM.Result.ok.inj (congrFun heval ({} : Numbering))
  cases hconvert

end RowStore
