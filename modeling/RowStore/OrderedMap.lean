/-!
# Maps in key order

* `OrderedMap κ ν` : bindings in the order of their keys;
* `find?`, `insert`, `erase`, `adjust` : look up, bind, unbind, change a bound value.
-/

namespace RowStore

/-- Bindings in the order of their keys. -/
structure OrderedMap (κ ν : Type) where
  entries : List (κ × ν) := []

namespace OrderedMap

variable {κ ν : Type}

instance : EmptyCollection (OrderedMap κ ν) := ⟨⟨[]⟩⟩

instance : Inhabited (OrderedMap κ ν) := ⟨⟨[]⟩⟩

def keys (m : OrderedMap κ ν) : List κ := m.entries.map (·.1)

def values (m : OrderedMap κ ν) : List ν := m.entries.map (·.2)

def size (m : OrderedMap κ ν) : Nat := m.entries.length

variable [Ord κ]

def findIn (k : κ) : List (κ × ν) → Option ν
  | [] => none
  | e :: es => if compare k e.1 = .eq then some e.2 else findIn k es

/-- Binds a key in a list of bindings in key order. -/
def insertIn (k : κ) (v : ν) : List (κ × ν) → List (κ × ν)
  | [] => [(k, v)]
  | e :: es =>
    match compare k e.1 with
    | .lt => (k, v) :: e :: es
    | .eq => (k, v) :: es
    | .gt => e :: insertIn k v es

def find? (m : OrderedMap κ ν) (k : κ) : Option ν := findIn k m.entries

def contains (m : OrderedMap κ ν) (k : κ) : Bool := (m.find? k).isSome

/-- Binds a key, in place of its binding if it has one. -/
def insert (m : OrderedMap κ ν) (k : κ) (v : ν) : OrderedMap κ ν := ⟨insertIn k v m.entries⟩

def erase (m : OrderedMap κ ν) (k : κ) : OrderedMap κ ν :=
  ⟨m.entries.filter fun e => compare k e.1 ≠ .eq⟩

def adjust (m : OrderedMap κ ν) (k : κ) (f : ν → ν) : OrderedMap κ ν :=
  match m.find? k with
  | some v => m.insert k (f v)
  | none => m

/-- The map of a list of bindings; later ones win. -/
def ofList (bindings : List (κ × ν)) : OrderedMap κ ν :=
  bindings.foldl (fun m e => m.insert e.1 e.2) ∅

end OrderedMap

end RowStore
