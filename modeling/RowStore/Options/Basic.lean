import RowStore.Collation
import RowStore.Options.Duration
import RowStore.Toml.Reader

/-!
# Options

* `Options` : lock timeout, row versions and collation of a store;
* `Options.write` : options as a configuration file;
* `Options.read` : options from a configuration file; absent keys take their defaults and unknown
  ones are passed over.

Settings are read in the order of the file, so that the first one that cannot be read decides.
-/

namespace RowStore

structure Options where
  /-- How long a session waits for a lock. -/
  lockTimeout : Duration := ⟨1, 0⟩
  /-- Locks that are not forced are relaxed. -/
  multiVersion : Bool := false
  /-- How tables compare texts. -/
  collation : Collation := .binary
deriving DecidableEq

namespace Options

open OptionsError (orMalformed)

def write (o : Options) : String :=
  "lock-timeout = \"" ++ o.lockTimeout.write ++ "\"\nmulti-version = "
    ++ (if o.multiVersion then "true" else "false")
    ++ "\ncollation = \"" ++ o.collation.name ++ "\"\n"

def duration : Toml → Except OptionsError Duration
  | .string s => Duration.read s
  | _ => .error .malformed

def flag? : Toml → Option Bool
  | .boolean b => some b
  | _ => none

def isBare : Toml → Bool
  | .array items => items.isEmpty
  | .tables items => items.isEmpty
  | .table _ entries => entries.isEmpty
  | _ => false

/-- The collation under a key: its name, or a table with the name as its only key and nothing
below. -/
def collation? : Toml → Option Collation
  | .string s => Collation.named? s
  | .table _ [(name, node)] => if isBare node then Collation.named? name else none
  | _ => none

def assign (o : Options) (key : String) (node : Toml) : Except OptionsError Options := do
  match key with
  | "lock-timeout" => pure { o with lockTimeout := ← duration node }
  | "multi-version" => pure { o with multiVersion := ← orMalformed (flag? node) }
  | "collation" => pure { o with collation := ← orMalformed (collation? node) }
  | _ => pure o

def read (s : String) : Except OptionsError Options := do
  (← orMalformed (Toml.read? s)).foldlM (fun o entry => o.assign entry.1 entry.2) {}

end Options

end RowStore
