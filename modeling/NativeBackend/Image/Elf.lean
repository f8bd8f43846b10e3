import NativeBackend.Bytes.LittleEndian
import NativeBackend.Emission.Generation

/-!
# Executable images

The smallest static executable: a file header, one loadable segment that holds the
whole file, and the code. Data that starts as zeros takes up memory after the code,
from the next word boundary on, and no room in the file.
-/

namespace NativeBackend

namespace Image

/-- The first bytes of every file of this format. -/
def magic : List UInt8 := [0x7F, 0x45, 0x4C, 0x46]

/-- The format stores words of 64 bits, least significant byte first, in its first version, for a
plain system. -/
def identification : List UInt8 := [2, 1, 1, 0]

/-- The file is an executable. -/
def executableType : Nat := 2

/-- The code is for this machine. -/
def machineType : Nat := 62

/-- The segment is to be loaded. -/
def loadable : Nat := 1

/-- The segment can be run. -/
def canRun : Nat := 1

/-- The segment can be written. -/
def canWrite : Nat := 2

/-- The segment can be read. -/
def canRead : Nat := 4

end Image

/-- An executable image before it is written out. -/
structure Image where
  code : List UInt8
  entryOffset : Nat
  loadAddress : UInt64
  /-- The bytes of data that starts as zeros. -/
  zeroSize : Nat
  deriving DecidableEq, Repr

namespace Image

/-- Code at the default address without data. -/
def ofCode (code : List UInt8) (entryOffset : Nat) : Image :=
  ⟨code, entryOffset, defaultLoadAddress, 0⟩

/-- The image at another load address, which must lie on a page boundary. -/
def withLoadAddress (i : Image) (address : UInt64) : Except Fault Image :=
  if address.toNat % pageSize = 0 then .ok { i with loadAddress := address }
  else .error (.misalignedLoadAddress address)

/-- The image with data that starts as zeros. -/
def withZeros (i : Image) (size : Nat) : Image := { i with zeroSize := size }

/-- The image of generated code. -/
def ofGenerated (c : Code) (loadAddress : UInt64) : Except Fault Image :=
  match c.entry with
  | none => .error .missingEntry
  | some entry => do
    let image ← (ofCode c.stream.bytes entry).withLoadAddress loadAddress
    return image.withZeros c.staticSize

/-- The address at which the program starts. -/
def entryAddress (i : Image) : UInt64 := codeAddress i.loadAddress i.entryOffset

/-- The bytes of the file. -/
def fileSize (i : Image) : UInt64 := UInt64.ofNat (codeOffset + i.code.length)

/-- The bytes of memory. -/
def memorySize (i : Image) : UInt64 :=
  if i.zeroSize = 0 then i.fileSize
  else UInt64.ofNat (codeOffset + staticAreaOffset i.code.length + i.zeroSize)

/-- What may be done with the segment. Only an image with data can be written to. -/
def permissions (i : Image) : Nat :=
  if i.zeroSize = 0 then canRead + canRun else canRead + canWrite + canRun

/-- A half word of a header. -/
def half (n : Nat) : List UInt8 := littleEndian 2 n

/-- A double half word of a header. -/
def word (n : Nat) : List UInt8 := littleEndian 4 n

/-- The header of the file. -/
def fileHeader (i : Image) : List UInt8 :=
  magic ++ identification ++ List.replicate 8 0
    ++ half executableType ++ half machineType ++ word 1
    ++ qwordBytes i.entryAddress
    -- the segment header follows at once, and there are no sections
    ++ qwordBytes (UInt64.ofNat fileHeaderSize) ++ qwordBytes 0
    ++ word 0 ++ half fileHeaderSize ++ half segmentHeaderSize ++ half 1
    ++ half 0 ++ half 0 ++ half 0

/-- The header of the one segment. -/
def segmentHeader (i : Image) : List UInt8 :=
  word loadable ++ word i.permissions
    ++ qwordBytes 0 ++ qwordBytes i.loadAddress ++ qwordBytes i.loadAddress
    ++ qwordBytes i.fileSize ++ qwordBytes i.memorySize ++ qwordBytes (UInt64.ofNat pageSize)

/-- The bytes of the file. -/
def encode (i : Image) : List UInt8 := i.fileHeader ++ i.segmentHeader ++ i.code

end Image

/-- The image of generated code, unless problems were reported. -/
def Generation.image (g : Generation) (loadAddress : UInt64) : Except Fault Image := do
  let code ← g.result
  if g.reporter.hasErrors then throw (.compilationFailed g.reporter.diagnostics)
  Image.ofGenerated code loadAddress

/-- The image of a program. -/
def compile (p : Tree.Program) (o : Options) : Except Fault Image :=
  (generate p o).image o.loadAddress

end NativeBackend
