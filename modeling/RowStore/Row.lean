import RowStore.Value.Basic

/-!
# Rows

* `Row` : slots, some of them unset, and perhaps the key under which they are stored;
* `Row.value?` : a cell, with an unset slot read as NULL; `none` past the end;
* `Row.render` : the row as literals;
* `Row.sameValues` : equal cells, whatever the keys.
-/

namespace RowStore

abbrev RowKey := UInt64

def RowKey.render (k : RowKey) : String := "#" ++ toString k.toNat

/-- A row of slots.  An unset slot waits for a default or a computed value. -/
structure Row where
  /-- The key, once the row is stored. -/
  key : Option RowKey
  /-- The slots, in column order. -/
  slots : List (Option Value)
deriving DecidableEq

namespace Row

def template (width : Nat) : Row := ⟨none, List.replicate width none⟩

def nulls (width : Nat) : Row := ⟨none, List.replicate width (some .null)⟩

def width (r : Row) : Nat := r.slots.length

def values (r : Row) : List Value := r.slots.map (·.getD .null)

/-- The cell at a place, an unset slot read as NULL. -/
def value? (r : Row) (i : Nat) : Option Value := r.slots[i]?.map (·.getD .null)

/-- Sets a slot; past the end nothing changes. -/
def set (r : Row) (i : Nat) (v : Value) : Row := { r with slots := r.slots.set i (some v) }

def set? (r : Row) (i : Nat) (v : Value) : Option Row :=
  if i < r.width then some (r.set i v) else none

def sameValues (a b : Row) : Bool := a.values = b.values

def render (r : Row) : String := "( " ++ ", ".intercalate (r.values.map Value.sql) ++ " )"

end Row

end RowStore
