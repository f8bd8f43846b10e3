import NativeBackend.Address

/-!
# Placement

Where the parts of an image lie: the file header, one segment header, then the code.
The whole file is mapped at the load address.
-/

namespace NativeBackend.Image

/-- The bytes of the file header. -/
def fileHeaderSize : Nat := 64

/-- The bytes of the segment header. -/
def segmentHeaderSize : Nat := 56

/-- The offset of the first byte of code in the file. -/
def codeOffset : Nat := fileHeaderSize + segmentHeaderSize

/-- The load address of an image unless another is asked for. -/
def defaultLoadAddress : UInt64 := 0x400000

/-- The address of a byte of code. -/
def codeAddress (loadAddress : UInt64) (offset : Nat) : UInt64 :=
  loadAddress + UInt64.ofNat (codeOffset + offset)

end NativeBackend.Image
