/-!
# Catalog objects

* `ObjectKind`, `ObjectId` : a kind of object and an object of that kind, with its text;
* `ObjectSet` : a set of objects, by kind and then by number.
-/

namespace RowStore

inductive ObjectKind where
  | table
  | index
  | constraint
  | trigger
  | sequence
  | view
  | right
deriving DecidableEq

namespace ObjectKind

def rank : ObjectKind → Nat
  | table => 0
  | index => 1
  | constraint => 2
  | trigger => 3
  | sequence => 4
  | view => 5
  | right => 6

def name : ObjectKind → String
  | table => "table"
  | index => "index"
  | constraint => "constraint"
  | trigger => "trigger"
  | sequence => "sequence"
  | view => "view"
  | right => "right"

def all : List ObjectKind := [table, index, constraint, trigger, sequence, view, right]

def named? (s : String) : Option ObjectKind := all.find? (·.name == s)

end ObjectKind

structure ObjectId where
  kind : ObjectKind
  /-- Its number among the objects of its kind. -/
  number : Nat
deriving DecidableEq

namespace ObjectId

def render (o : ObjectId) : String := o.kind.name ++ " " ++ toString o.number

/-- The order of listings: by kind, then by number. -/
protected def compare (a b : ObjectId) : Ordering :=
  (compare a.kind.rank b.kind.rank).then (compare a.number b.number)

end ObjectId

/-- A set of objects, each once, in the order of listings. -/
structure ObjectSet where
  members : List ObjectId := []

namespace ObjectSet

instance : EmptyCollection ObjectSet := ⟨⟨[]⟩⟩

instance : Membership ObjectId ObjectSet := ⟨fun s o => o ∈ s.members⟩

instance (o : ObjectId) (s : ObjectSet) : Decidable (o ∈ s) :=
  inferInstanceAs (Decidable (o ∈ s.members))

def insertIn (o : ObjectId) : List ObjectId → List ObjectId
  | [] => [o]
  | p :: ps =>
    match o.compare p with
    | .lt => o :: p :: ps
    | .eq => p :: ps
    | .gt => p :: insertIn o ps

def insert (s : ObjectSet) (o : ObjectId) : ObjectSet := ⟨insertIn o s.members⟩

def insertAll (s : ObjectSet) (os : List ObjectId) : ObjectSet := os.foldl insert s

def ofList (os : List ObjectId) : ObjectSet := insertAll ∅ os

end ObjectSet

end RowStore
