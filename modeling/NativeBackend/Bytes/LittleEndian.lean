/-!
# Little-endian bytes

Machine code and file headers store numbers with the least significant byte
first. `littleEndian` writes a number in a fixed count of bytes; bits that do not
fit are dropped, as a machine word drops them.
-/

namespace NativeBackend

/-- The lowest `width` bytes of `n`, least significant first. -/
def littleEndian : Nat → Nat → List UInt8
  | 0, _ => []
  | width + 1, n => UInt8.ofNat n :: littleEndian width (n / 256)

/-- A fixed count of bytes is written whatever the number. -/
@[simp] theorem length_littleEndian (width n : Nat) : (littleEndian width n).length = width := by
  induction width generalizing n with
  | zero => rfl
  | succ width ih => simp [littleEndian, ih]

/-- The four bytes of a signed 32-bit word. -/
def dwordBytes (word : Int32) : List UInt8 := littleEndian 4 word.toUInt32.toNat

/-- The eight bytes of a 64-bit word. -/
def qwordBytes (word : UInt64) : List UInt8 := littleEndian 8 word.toNat

end NativeBackend
