import NativeBackend.Image.Elf
import NativeBackend.Proofs.Decoding.RoundTrip

/-!
# Headers of images

What the headers of a written image say is read back from the bytes of the file, as a
loader reads it: where the program starts, the sizes of the one segment in the file and in
memory, and what may be done with it.
-/

namespace NativeBackend

open Machine

namespace Image

/-- The number of a count of bytes at an offset of a file. -/
def number? (file : List UInt8) (offset width : Nat) : Option Nat :=
  (Decode.number width (file.drop offset)).map Prod.fst

/-- The address at which the program starts, as the file says. -/
def entryPoint? (file : List UInt8) : Option Nat := number? file 24 8

/-- What may be done with the segment, as the file says. -/
def segmentFlags? (file : List UInt8) : Option Nat := number? file 68 4

/-- The bytes of the segment in the file, as the file says. -/
def segmentFileSize? (file : List UInt8) : Option Nat := number? file 96 8

/-- The bytes of the segment in memory, as the file says. -/
def segmentMemorySize? (file : List UInt8) : Option Nat := number? file 104 8

section Records

/-- Numbers of given widths, one after the other. -/
def record (fields : List (Nat × Nat)) : List UInt8 :=
  fields.flatMap fun f ↦ littleEndian f.1 f.2

/-- The width and number of the field that starts at an offset of a record. -/
def fieldAt? : List (Nat × Nat) → Nat → Option (Nat × Nat)
  | [], _ => none
  | f :: _, 0 => some f
  | f :: fs, offset + 1 => if f.1 ≤ offset + 1 then fieldAt? fs (offset + 1 - f.1) else none

private theorem number?_append (before after : List UInt8) (offset width : Nat) :
    number? (before ++ after) (before.length + offset) width = number? after offset width := by
  rw [number?, number?, List.drop_length_add_append]

private theorem number?_littleEndian {width n : Nat} (after : List UInt8) (h : n < 256 ^ width) :
    number? (littleEndian width n ++ after) 0 width = some n := by
  have hread := Reads.number width n after
  rw [Nat.mod_eq_of_lt h] at hread
  rw [number?, List.drop_zero, hread]
  rfl

/-- A field of a record is read back from where it starts. -/
theorem number?_record {fields : List (Nat × Nat)} {offset width n : Nat} (after : List UInt8)
    (hfield : fieldAt? fields offset = some (width, n)) (hn : n < 256 ^ width) :
    number? (record fields ++ after) offset width = some n := by
  induction fields generalizing offset with
  | nil => cases hfield
  | cons f fields ih =>
    rw [record, List.flatMap_cons, List.append_assoc]
    cases offset with
    | zero =>
      cases hfield
      exact number?_littleEndian _ hn
    | succ offset =>
      rw [fieldAt?] at hfield
      split at hfield
      · next hle =>
        have hread := number?_append (littleEndian f.1 f.2) (record fields ++ after)
          (offset + 1 - f.1) width
        rw [length_littleEndian, Nat.add_sub_cancel' hle] at hread
        exact hread.trans (ih hfield)
      · cases hfield

end Records

section Encode

variable (i : Image)

/-- The fields of the headers of an image. -/
def headerFields : List (Nat × Nat) :=
  [(1, 0x7F), (1, 0x45), (1, 0x4C), (1, 0x46), (1, 2), (1, 1), (1, 1), (1, 0), (8, 0),
    (2, executableType), (2, machineType), (4, 1), (8, i.entryAddress.toNat),
    (8, fileHeaderSize), (8, 0), (4, 0), (2, fileHeaderSize), (2, segmentHeaderSize), (2, 1),
    (2, 0), (2, 0), (2, 0),
    -- the header of the segment
    (4, loadable), (4, i.permissions), (8, 0), (8, i.loadAddress.toNat),
    (8, i.loadAddress.toNat), (8, i.fileSize.toNat), (8, i.memorySize.toNat), (8, pageSize)]

/-- A file is its headers and its code. -/
theorem encode_eq_record : i.encode = record i.headerFields ++ i.code := by
  simp only [encode, fileHeader, segmentHeader, record, headerFields, half, word, qwordBytes,
    List.append_assoc, List.flatMap_cons, List.flatMap_nil]
  rfl

/-- The headers have 120 bytes. -/
theorem length_record_headerFields : (record i.headerFields).length = 120 := by
  simp [record, headerFields]

private theorem headerFields_lt : ∀ f ∈ i.headerFields, f.2 < 256 ^ f.1 := by
  have hpermissions : i.permissions < 256 ^ 4 := by
    rw [permissions]
    split <;> decide
  have hwords : i.entryAddress.toNat < 256 ^ 8 ∧ i.permissions < 256 ^ 4 ∧
      i.loadAddress.toNat < 256 ^ 8 ∧ i.fileSize.toNat < 256 ^ 8 ∧
      i.memorySize.toNat < 256 ^ 8 :=
    ⟨i.entryAddress.toNat_lt, hpermissions, i.loadAddress.toNat_lt, i.fileSize.toNat_lt,
      i.memorySize.toNat_lt⟩
  simpa [headerFields, executableType, machineType, fileHeaderSize, segmentHeaderSize, loadable,
    pageSize] using hwords

private theorem mem_of_fieldAt? {fields : List (Nat × Nat)} {offset : Nat} {f : Nat × Nat}
    (h : fieldAt? fields offset = some f) : f ∈ fields := by
  fun_induction fieldAt? fields offset with
  | case1 => cases h
  | case2 =>
    cases h
    exact List.mem_cons_self
  | case3 g fs offset hle ih => exact List.mem_cons_of_mem _ (ih h)
  | case4 => cases h

/-- What the headers say stands in the file. -/
theorem number?_encode {offset width n : Nat}
    (h : fieldAt? i.headerFields offset = some (width, n)) :
    number? i.encode offset width = some n := by
  rw [encode_eq_record]
  exact number?_record i.code h (i.headerFields_lt _ (mem_of_fieldAt? h))

/-- The entry point that a file names is the entry address. -/
theorem entryPoint?_encode : entryPoint? i.encode = some i.entryAddress.toNat :=
  i.number?_encode rfl

/-- The flags of the segment are its permissions. -/
theorem segmentFlags?_encode : segmentFlags? i.encode = some i.permissions :=
  i.number?_encode rfl

/-- The file size of the segment is that of the file. -/
theorem segmentFileSize?_encode : segmentFileSize? i.encode = some i.fileSize.toNat :=
  i.number?_encode rfl

/-- The memory size of the segment is that of the memory. -/
theorem segmentMemorySize?_encode : segmentMemorySize? i.encode = some i.memorySize.toNat :=
  i.number?_encode rfl

end Encode

end Image

end NativeBackend
