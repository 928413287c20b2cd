import RowStore.Value.Basic

/-!
# What a hash of a value is made of

* `HashWrite` : one write to a hasher;
* `HashWrite.stream` : the bytes that it comes to, those of a number from the lowest on;
* `Value.hashWrites` : what a value writes: its kind, then what it holds.
-/

namespace RowStore

def littleEndian : Nat → Nat → List UInt8
  | 0, _ => []
  | count + 1, n => UInt8.ofNat n :: littleEndian count (n / 256)

inductive HashWrite where
  /-- The place of a kind among the kinds, as a machine word. -/
  | kind (n : UInt64)
  | byte (b : UInt8)
  | int (n : Int32)
  | bigInt (n : Int64)
  | word (w : UInt64)
  | bytes (bs : List UInt8)
deriving DecidableEq

def HashWrite.stream : HashWrite → List UInt8
  | kind n => littleEndian 8 n.toNat
  | byte b => [b]
  | int n => littleEndian 4 n.toUInt32.toNat
  | bigInt n => littleEndian 8 n.toUInt64.toNat
  | word w => littleEndian 8 w.toNat
  | bytes bs => bs

namespace Value

/-- What a value writes to a hasher.  A text is closed by a byte that no text contains. -/
def hashWrites : Value → List HashWrite
  | null => [.kind 0]
  | boolean b => [.kind 1, .byte (if b then 1 else 0)]
  | int n => [.kind 2, .int n]
  | bigInt n => [.kind 3, .bigInt n]
  | double x => [.kind 4, .word x.bits]
  | text s => [.kind 5, .bytes s.toUTF8.data.toList, .byte 0xff]

def hashBytes (v : Value) : List UInt8 := v.hashWrites.flatMap HashWrite.stream

end Value

end RowStore
