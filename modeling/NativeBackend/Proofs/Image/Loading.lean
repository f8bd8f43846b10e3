import NativeBackend.Proofs.Image.AddressSpace

/-!
# Images as a loader sees them

A reader of executable files takes every field from its place, in the byte order that the file
names, and as many segment headers as the file header counts. A loader puts what the file holds of
a segment at the addresses of the segment, and zeros behind it. For the file of an image both find
what the image was made of.
-/

namespace NativeBackend

open Machine

namespace Elf

/-- The order of the bytes of a number. -/
inductive ByteOrder
  | little | big
  deriving DecidableEq, Repr

/-- The order that a file names by a code. -/
def byteOrder? (code : Nat) : Option ByteOrder :=
  if code = 1 then some .little else if code = 2 then some .big else none

/-- The number of a count of bytes at an offset of a file. -/
def number? (order : ByteOrder) (file : List UInt8) (offset width : Nat) : Option Nat :=
  match order with
  | .little => Image.number? file offset width
  | .big => Image.number? ((file.drop offset).take width).reverse 0 width

/-- The header of a file. -/
structure Header where
  order : ByteOrder
  fileType : Nat
  machine : Nat
  version : Nat
  entry : Nat
  segmentTable : Nat
  sectionTable : Nat
  flags : Nat
  size : Nat
  segmentEntrySize : Nat
  segmentCount : Nat
  sectionEntrySize : Nat
  sectionCount : Nat
  sectionNames : Nat
  deriving DecidableEq, Repr

/-- The header of a segment. -/
structure Segment where
  kind : Nat
  flags : Nat
  offset : Nat
  address : Nat
  physicalAddress : Nat
  fileSize : Nat
  memorySize : Nat
  alignment : Nat
  deriving DecidableEq, Repr

/-- A file as far as it matters for loading. -/
structure Contents where
  header : Header
  segments : List Segment
  deriving DecidableEq, Repr

/-- The header of a file of the 64-bit format. -/
def readHeader? (file : List UInt8) : Option Header := do
  guard (file.take 4 = [0x7F, 0x45, 0x4C, 0x46])
  guard ((← Image.number? file 4 1) = 2)
  guard ((← Image.number? file 6 1) = 1)
  let order ← byteOrder? (← Image.number? file 5 1)
  return {
    order
    fileType := ← number? order file 16 2
    machine := ← number? order file 18 2
    version := ← number? order file 20 4
    entry := ← number? order file 24 8
    segmentTable := ← number? order file 32 8
    sectionTable := ← number? order file 40 8
    flags := ← number? order file 48 4
    size := ← number? order file 52 2
    segmentEntrySize := ← number? order file 54 2
    segmentCount := ← number? order file 56 2
    sectionEntrySize := ← number? order file 58 2
    sectionCount := ← number? order file 60 2
    sectionNames := ← number? order file 62 2 }

/-- The header of a segment that stands at an offset of a file. -/
def readSegment? (order : ByteOrder) (file : List UInt8) (start : Nat) : Option Segment := do
  return {
    kind := ← number? order file start 4
    flags := ← number? order file (start + 4) 4
    offset := ← number? order file (start + 8) 8
    address := ← number? order file (start + 16) 8
    physicalAddress := ← number? order file (start + 24) 8
    fileSize := ← number? order file (start + 32) 8
    memorySize := ← number? order file (start + 40) 8
    alignment := ← number? order file (start + 48) 8 }

/-- The headers of a file. -/
def read? (file : List UInt8) : Option Contents := do
  let header ← readHeader? file
  let segments ← (List.range header.segmentCount).mapM fun k ↦
    readSegment? header.order file (header.segmentTable + k * header.segmentEntrySize)
  return ⟨header, segments⟩

/-- The byte that a segment puts at an address, if any. What the file does not hold is zero, and
addresses wrap. -/
def Segment.byteAt? (s : Segment) (file : List UInt8) (address : UInt64) : Option UInt8 :=
  let distance := (address - UInt64.ofNat s.address).toNat
  if distance < s.fileSize then file[s.offset + distance]?
  else if distance < s.memorySize then some 0
  else none

/-- The byte at an address once the segments that are to be loaded have been. -/
def Contents.byteAt? (c : Contents) (file : List UInt8) (address : UInt64) : Option UInt8 :=
  (c.segments.filter (·.kind = 1)).findSome? (·.byteAt? file address)

/-- A file holds code, and zeros behind it, as one segment at a load address. -/
structure Holds (file code : List UInt8) (entryOffset zeros : Nat) (load : UInt64) (c : Contents)
    (s : Segment) : Prop where
  read : read? file = some c
  littleEndian : c.header.order = .little
  executable : c.header.fileType = 2 ∧ c.header.machine = 62
  version : c.header.version = 1
  headerSizes : c.header.size = 64 ∧ c.header.segmentEntrySize = 56
  noSections : c.header.sectionTable = 0 ∧ c.header.sectionCount = 0
  oneSegment : c.header.segmentTable = 64 ∧ c.segments = [s]
  mapping : s.kind = 1 ∧ s.offset = 0 ∧ s.address = load.toNat
  aligned : s.alignment = pageSize ∧ s.address ≡ s.offset [MOD s.alignment]
  fileSize : s.fileSize = file.length ∧ file.length = 120 + code.length
  memorySize : s.memorySize =
    if zeros = 0 then s.fileSize else 120 + (code.length + 7) / 8 * 8 + zeros
  fileSize_le : s.fileSize ≤ s.memorySize
  /-- The zeros take up the end of the memory, from a word boundary behind the file on. -/
  zeroed : 0 < zeros → ∃ start, start % 8 = 0 ∧ s.fileSize ≤ start ∧
    start + zeros = s.memorySize ∧
    ∀ k < zeros, c.byteAt? file (load + UInt64.ofNat (start + k)) = some 0
  writable : s.flags.testBit 1 = true ↔ 0 < zeros
  /-- The lowest bit lets the segment be run, the one of weight four lets it be read. -/
  runnable : s.flags.testBit 0 = true ∧ s.flags.testBit 2 = true
  entry : c.header.entry = (load.toNat + (120 + entryOffset)) % wordLimit
  codeBytes : file.drop 120 = code
  /-- The program starts with the byte of code at the entry. -/
  starts : ∀ b, code[entryOffset]? = some b →
    c.byteAt? file (UInt64.ofNat c.header.entry) = some b

end Elf

namespace Image

variable (i : Image)

/-- What a reader finds in the file header of an image. -/
def elfHeader : Elf.Header :=
  { order := .little, fileType := 2, machine := 62, version := 1, entry := i.entryAddress.toNat,
    segmentTable := 64, sectionTable := 0, flags := 0, size := 64, segmentEntrySize := 56,
    segmentCount := 1, sectionEntrySize := 0, sectionCount := 0, sectionNames := 0 }

/-- What it finds in the segment header. -/
def elfSegment : Elf.Segment :=
  { kind := 1, flags := i.permissions, offset := 0, address := i.loadAddress.toNat,
    physicalAddress := i.loadAddress.toNat, fileSize := i.fileSize.toNat,
    memorySize := i.memorySize.toNat, alignment := pageSize }

/-- What a reader finds in the headers of an image. -/
def elfContents : Elf.Contents := ⟨i.elfHeader, [i.elfSegment]⟩

private theorem number?_little {offset width n : Nat}
    (h : fieldAt? i.headerFields offset = some (width, n)) :
    Elf.number? .little i.encode offset width = some n :=
  i.number?_encode h

-- One step for each field: the reader finds it in its place.
private theorem readSegment?_encode : Elf.readSegment? .little i.encode 64 = some i.elfSegment := by
  rw [Elf.readSegment?]
  iterate 8 refine Option.bind_eq_some_iff.mpr ⟨_, i.number?_little rfl, ?_⟩
  rfl

private theorem readHeader?_encode : Elf.readHeader? i.encode = some i.elfHeader := by
  rw [Elf.readHeader?]
  refine Option.bind_eq_some_iff.mpr ⟨(), rfl, ?_⟩
  iterate 2
    refine Option.bind_eq_some_iff.mpr ⟨_, i.number?_encode rfl, ?_⟩
    refine Option.bind_eq_some_iff.mpr ⟨(), rfl, ?_⟩
  refine Option.bind_eq_some_iff.mpr ⟨_, i.number?_encode rfl, ?_⟩
  refine Option.bind_eq_some_iff.mpr ⟨.little, rfl, ?_⟩
  iterate 13 refine Option.bind_eq_some_iff.mpr ⟨_, i.number?_little rfl, ?_⟩
  rfl

private theorem read?_encode : Elf.read? i.encode = some i.elfContents := by
  rw [Elf.read?]
  refine Option.bind_eq_some_iff.mpr ⟨_, i.readHeader?_encode, ?_⟩
  refine Option.bind_eq_some_iff.mpr ⟨[i.elfSegment], ?_, rfl⟩
  change [0].mapM (fun k ↦ Elf.readSegment? .little i.encode (64 + k * 56)) = _
  rw [List.mapM_cons, List.mapM_nil, Nat.zero_mul, Nat.add_zero, readSegment?_encode]
  rfl

private theorem drop_encode : i.encode.drop 120 = i.code := by
  rw [encode_eq_record]
  exact List.drop_left' i.length_record_headerFields

private theorem length_encode : i.encode.length = 120 + i.code.length := by
  rw [encode_eq_record, List.length_append, length_record_headerFields]

/-- The byte at a distance from the load address. -/
theorem byteAt?_add {distance : Nat} (h : distance < wordLimit) :
    i.elfContents.byteAt? i.encode (i.loadAddress + UInt64.ofNat distance) =
      if distance < i.fileSize.toNat then i.encode[distance]?
      else if distance < i.memorySize.toNat then some 0
      else none := by
  have hdistance : (i.loadAddress + UInt64.ofNat distance -
      UInt64.ofNat i.loadAddress.toNat).toNat = distance := by
    rw [UInt64.ofNat_toNat, UInt64.add_comm, UInt64.add_sub_cancel, UInt64.toNat_ofNat']
    exact Nat.mod_eq_of_lt h
  simp only [Elf.Contents.byteAt?, elfContents, elfSegment, decide_true, List.filter_cons_of_pos,
    List.filter_nil, List.findSome?_singleton, Elf.Segment.byteAt?, hdistance, Nat.zero_add]

private theorem toNat_entryAddress :
    i.entryAddress.toNat = (i.loadAddress.toNat + (120 + i.entryOffset)) % wordLimit := by
  simp only [entryAddress, codeAddress, UInt64.toNat_add, UInt64.toNat_ofNat', codeOffset,
    fileHeaderSize, segmentHeaderSize, wordLimit]
  omega

/-- Only an image with zeros can be written to. -/
theorem testBit_permissions : i.permissions.testBit 1 = true ↔ 0 < i.zeroSize := by
  rw [permissions]
  split
  · next hzero => simp [hzero, canRead, canRun, Nat.testBit]
  · next hzeros =>
    have hbit : (canRead + canWrite + canRun).testBit 1 = true := by decide
    exact iff_of_true hbit (Nat.pos_of_ne_zero hzeros)

/-- Every image can be run and read. -/
theorem testBit_permissions_run_read :
    i.permissions.testBit 0 = true ∧ i.permissions.testBit 2 = true := by
  rw [permissions]
  split <;> decide

section Holding

variable {i}

/-- The program starts with its byte of code, wherever the image lies. -/
theorem byteAt?_entryAddress {b : UInt8} (hsize : i.memoryLength < wordLimit)
    (hb : i.code[i.entryOffset]? = some b) :
    i.elfContents.byteAt? i.encode i.entryAddress = some b := by
  obtain ⟨hlt, -⟩ := List.getElem?_eq_some_iff.mp hb
  have hfile := i.fileLength_le_memoryLength
  have hread : i.encode[120 + i.entryOffset]? = some b := by
    rw [← List.getElem?_drop, drop_encode, hb]
  have hmapped := i.byteAt?_add (show 120 + i.entryOffset < wordLimit by omega)
  rw [toNat_fileSize hsize, if_pos (by omega), hread] at hmapped
  exact hmapped

/-- Behind the file, the memory of an image is zero. -/
theorem byteAt?_zero {distance : Nat} (hsize : i.memoryLength < wordLimit)
    (hfile : i.fileSize.toNat ≤ distance) (hmemory : distance < i.memorySize.toNat) :
    i.elfContents.byteAt? i.encode (i.loadAddress + UInt64.ofNat distance) = some 0 := by
  have hlt : distance < wordLimit := by
    rw [toNat_memorySize hsize] at hmemory
    omega
  rw [byteAt?_add i hlt, if_neg (by omega), if_pos hmemory]

private theorem holds_encode (hpage : i.loadAddress.toNat % pageSize = 0)
    (hroom : 120 + (i.code.length + 7) / 8 * 8 + i.zeroSize < wordLimit) :
    Elf.Holds i.encode i.code i.entryOffset i.zeroSize i.loadAddress i.elfContents
      i.elfSegment := by
  have hsize : i.memoryLength < wordLimit := by
    unfold memoryLength
    split <;> omega
  have hfile := toNat_fileSize hsize
  have hmemory := toNat_memorySize hsize
  have hle : i.fileSize.toNat ≤ i.memorySize.toNat := by
    rw [hfile, hmemory]
    exact i.fileLength_le_memoryLength
  exact {
    read := i.read?_encode
    littleEndian := rfl
    executable := ⟨rfl, rfl⟩
    version := rfl
    headerSizes := ⟨rfl, rfl⟩
    noSections := ⟨rfl, rfl⟩
    oneSegment := ⟨rfl, rfl⟩
    mapping := ⟨rfl, rfl, rfl⟩
    aligned := ⟨rfl, hpage⟩
    fileSize := ⟨hfile.trans i.length_encode.symm, i.length_encode⟩
    memorySize := by
      change i.memorySize.toNat = if i.zeroSize = 0 then i.fileSize.toNat else _
      rw [hmemory, hfile, memoryLength]
    fileSize_le := hle
    zeroed := by
      intro hzeros
      have hend : 120 + (i.code.length + 7) / 8 * 8 + i.zeroSize = i.memorySize.toNat := by
        rw [hmemory, memoryLength, if_neg (by omega)]
      refine ⟨120 + (i.code.length + 7) / 8 * 8, by omega, ?_, hend, fun k hk ↦ ?_⟩
      · change i.fileSize.toNat ≤ _
        omega
      · exact byteAt?_zero hsize (by omega) (by omega)
    writable := i.testBit_permissions
    runnable := i.testBit_permissions_run_read
    entry := i.toNat_entryAddress
    codeBytes := i.drop_encode
    starts := by
      intro b hb
      change i.elfContents.byteAt? i.encode (UInt64.ofNat i.entryAddress.toNat) = some b
      rw [UInt64.ofNat_toNat]
      exact byteAt?_entryAddress hsize hb }

end Holding

end Image

/-- The file of an image, read as a loader reads it, holds its code and its zeros. -/
theorem image_reads_back (code : List UInt8) (entryOffset zeros : Nat) (load : UInt64)
    (hpage : load.toNat % pageSize = 0)
    (hroom : 120 + (code.length + 7) / 8 * 8 + zeros < wordLimit) :
    ∃ image c s,
      ((Image.ofCode code entryOffset).withLoadAddress load).map (·.withZeros zeros) = .ok image ∧
      Elf.Holds image.encode code entryOffset zeros load c s := by
  refine ⟨⟨code, entryOffset, load, zeros⟩, _, _, ?_, Image.holds_encode hpage hroom⟩
  rw [Image.withLoadAddress, if_pos hpage]
  rfl

/-- Code and zeros at the last page of the address space, entered at the last byte of the code. -/
theorem image_reads_back_lastPage :
    (0xFFFFFFFFFFFFF000 : UInt64).toNat % pageSize = 0 ∧ 120 + (13 + 7) / 8 * 8 + 16 < wordLimit ∧
    ∃ image c s,
      ((Image.ofCode (List.replicate 12 0x90 ++ [0xC3]) 12).withLoadAddress
        0xFFFFFFFFFFFFF000).map (·.withZeros 16) = .ok image ∧
      Elf.Holds image.encode (List.replicate 12 0x90 ++ [0xC3]) 12 16 0xFFFFFFFFFFFFF000 c s :=
  ⟨by decide, by decide, image_reads_back _ _ _ _ (by decide) (by decide)⟩

end NativeBackend
