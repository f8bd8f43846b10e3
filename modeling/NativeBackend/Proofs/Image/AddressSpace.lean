import NativeBackend.Address
import NativeBackend.Proofs.Image.Compilation
import NativeBackend.Proofs.Storage.StaticWords

/-!
# Images and the end of the address space

An image may be asked for at every page, and nothing looks at where it ends. Here the
addresses that are computed for it are compared with the same sums of plain numbers. They
agree, and the image ends within the address space, just if the load address leaves room for
all of its memory.
-/

namespace NativeBackend

open Machine NativeBackend.Tree

/-- The bytes of memory that an image takes up, as a plain number. -/
def Image.memoryLength (i : Image) : Nat :=
  if i.zeroSize = 0 then 120 + i.code.length else 120 + (i.code.length + 7) / 8 * 8 + i.zeroSize

/-- The sum that gives the address of a static field, as a plain number. Offsets into the static
area stop at the largest signed number of 32 bits. -/
def staticSum (p : Program) (load : UInt64) (codeLength : Nat) (f : FieldRef) : Nat :=
  load.toNat + (120 + (codeLength + 7) / 8 * 8) + min (8 * p.staticRank f) 0x7FFFFFFF

/-- An image lies in the address space, and no address that is computed for it has wrapped. -/
structure FitsAddressSpace (p : Program) (load : UInt64) (image : Image) : Prop where
  segment : ∃ memorySize, Image.segmentMemorySize? image.encode = some memorySize ∧
    load.toNat + memorySize ≤ wordLimit
  entry : ∃ entry fileSize, Image.entryPoint? image.encode = some entry ∧
    Image.segmentFileSize? image.encode = some fileSize ∧
    load.toNat ≤ entry ∧ entry < load.toNat + fileSize
  /-- The code loads the plain sum for each reference to a static field, and no other address. -/
  loads : ∃ es, sweep 0 image.code = some es ∧
    List.Forall₂
      (fun e f ↦ ∃ value : UInt64, e.instruction = .movAbs .rax value ∧
        value.toNat = staticSum p load image.code.length f)
      (es.filter (·.instruction.isLoad)) (Source.programStatics p)
  statics : ∀ f, p.isStaticField f = true → staticSum p load image.code.length f < wordLimit

section Sizes

variable {i : Image}

/-- A file has no more bytes than its memory. -/
theorem Image.fileLength_le_memoryLength (i : Image) : 120 + i.code.length ≤ i.memoryLength := by
  unfold memoryLength
  split <;> omega

/-- The size of a file that fits a machine word is that of the headers and the code. -/
theorem Image.toNat_fileSize (h : i.memoryLength < wordLimit) :
    i.fileSize.toNat = 120 + i.code.length := by
  have hle := i.fileLength_le_memoryLength
  exact Nat.mod_eq_of_lt (hle.trans_lt h)

/-- The size of memory that fits a machine word is what is needed. -/
theorem Image.toNat_memorySize (h : i.memoryLength < wordLimit) :
    i.memorySize.toNat = i.memoryLength := by
  by_cases hzero : i.zeroSize = 0
  · rw [memorySize, if_pos hzero, toNat_fileSize h, memoryLength, if_pos hzero]
  · rw [memoryLength, if_neg hzero, wordLimit] at h
    rw [memorySize, if_neg hzero, memoryLength, if_neg hzero]
    simp only [UInt64.toNat_ofNat', staticAreaOffset, Convention.wordSize, codeOffset,
      fileHeaderSize, segmentHeaderSize]
    omega

end Sizes

/-- The address that fills a load is the plain sum, wrapped. -/
theorem toNat_filled (p : Program) (load : UInt64) (codeLength : Nat) (f : FieldRef) :
    (Image.codeAddress load (staticAreaOffset codeLength) +
        UInt64.ofInt (fieldOffset p f).toInt).toNat =
      staticSum p load codeLength f % wordLimit := by
  rw [fieldOffset, toInt_slotOffset_eq_min, ofInt_natCast]
  simp only [Image.codeAddress, UInt64.toNat_add, UInt64.toNat_ofNat', staticAreaOffset, staticSum,
    Convention.wordSize, Image.codeOffset, Image.fileHeaderSize, Image.segmentHeaderSize, wordLimit]
  omega

section Images

variable {p : Program} {o : Options} {image : Image}

private theorem zeroSize_of_compile (h : compile p o = .ok image) :
    image.zeroSize = 8 * p.staticCount := by
  obtain ⟨entry, code, offset, hentry, hcode, -, rfl⟩ := exists_code_of_compile h
  exact staticSize_of_generate hentry hcode

/-- An image holds the generated code and starts at one of its instructions. -/
theorem exists_entered_of_compile (h : compile p o = .ok image) :
    ∃ main code, entryCandidates p o = [main] ∧ (generate p o).result = .ok code ∧
      image.code = code.stream.bytes ∧ ∃ e ∈ code.stream.entries.toList,
        image.entryAddress = o.loadAddress + 120 + UInt64.ofNat e.start := by
  obtain ⟨main, -, -, hmain, -⟩ := exists_code_of_compile h
  cases compilation_of_entry hmain with
  | fault _ failed => cases failed.symm.trans h
  | unresolved _ _ _ _ failed => cases failed.symm.trans h
  | misaligned _ _ _ _ failed => cases failed.symm.trans h
  | @image _ code _ j start generated _ _ _ compiled contents enters starts =>
    cases compiled.symm.trans h
    obtain ⟨e, _, _, hes, rfl, -⟩ := enters.opens
    refine ⟨main, code, hmain, generated, contents, e, ?_, starts⟩
    apply List.mem_of_mem_filter
    rw [← Code.entriesIn, hes]
    exact List.mem_cons_self

/-- An image starts at one of the bytes of its code. -/
theorem exists_start_of_compile (h : compile p o = .ok image) :
    ∃ start < image.code.length,
      image.entryAddress.toNat = (o.loadAddress.toNat + (120 + start)) % wordLimit := by
  obtain ⟨main, code, hmain, hcode, hcontents, e, he, hstarts⟩ := exists_entered_of_compile h
  obtain ⟨parts, -, hlinked, -⟩ := exists_linked hmain hcode
  rw [hlinked.entries] at he
  obtain ⟨m, hm, rfl⟩ := List.mem_map.mp he
  have hlt := hlinked.contiguous.laid.start_lt m hm
  rw [Nat.zero_add, ← hlinked.size, ← hlinked.length_bytes, ← hcontents] at hlt
  refine ⟨m.entry.start, hlt, ?_⟩
  rw [hstarts]
  simp only [UInt64.toNat_add, UInt64.toNat_ofNat', UInt64.reduceToNat, wordLimit]
  omega

/-- The code of an image loads the plain sum, wrapped, for each reference to a static field. -/
theorem loads_of_compile (h : compile p o = .ok image) :
    ∃ es, sweep 0 image.code = some es ∧
      List.Forall₂
        (fun e f ↦ ∃ value : UInt64, e.instruction = .movAbs .rax value ∧
          value.toNat = staticSum p o.loadAddress image.code.length f % wordLimit)
        (es.filter (·.instruction.isLoad)) (Source.programStatics p) := by
  obtain ⟨entry, code, offset, hentry, hcode, -, rfl⟩ := exists_code_of_compile h
  obtain ⟨parts, hsources, hlinked, -⟩ := exists_linked hentry hcode
  have hloads := hlinked.loads hsources
  rw [← hlinked.length_bytes] at hloads
  refine ⟨_, hlinked.sweep_bytes, hloads.imp fun e f he ↦ ⟨_, he, ?_⟩⟩
  exact toNat_filled p o.loadAddress code.stream.bytes.length f

/-- The word of a static field lies in the memory of the image. -/
theorem staticSum_lt {f : FieldRef} (load : UInt64) (hzeros : image.zeroSize = 8 * p.staticCount)
    (hf : p.isStaticField f = true) :
    staticSum p load image.code.length f < load.toNat + image.memoryLength := by
  have hrank := staticRank_lt_staticCount hf
  have hnonzero : image.zeroSize ≠ 0 := by omega
  rw [staticSum, Image.memoryLength, if_neg hnonzero, hzeros]
  omega

/-- An image whose size is a machine word fits the address space just if there is room for its
memory from the load address on. -/
theorem fitsAddressSpace_iff (h : compile p o = .ok image)
    (hsize : image.memoryLength < wordLimit) :
    FitsAddressSpace p o.loadAddress image ↔
      o.loadAddress.toNat + image.memoryLength ≤ wordLimit := by
  constructor
  · intro hfits
    obtain ⟨memorySize, hmemory, hle⟩ := hfits.segment
    rw [Image.segmentMemorySize?_encode, Image.toNat_memorySize hsize] at hmemory
    cases hmemory
    exact hle
  · intro hle
    have hzeros := zeroSize_of_compile h
    have hstatics : ∀ f, p.isStaticField f = true →
        staticSum p o.loadAddress image.code.length f < wordLimit := fun f hf ↦
      (staticSum_lt o.loadAddress hzeros hf).trans_le hle
    refine ⟨?_, ?_, ?_, hstatics⟩
    · refine ⟨_, image.segmentMemorySize?_encode, ?_⟩
      rwa [Image.toNat_memorySize hsize]
    · obtain ⟨start, hstart, hentry⟩ := exists_start_of_compile h
      have hfile := image.fileLength_le_memoryLength
      rw [Nat.mod_eq_of_lt (by omega)] at hentry
      refine ⟨_, _, image.entryPoint?_encode, image.segmentFileSize?_encode, ?_, ?_⟩
      · omega
      · rw [Image.toNat_fileSize hsize]
        omega
    · obtain ⟨es, hes, hloads⟩ := loads_of_compile h
      refine ⟨es, hes, ?_⟩
      have hdeclared : ∀ f ∈ Source.programStatics p, p.isStaticField f = true := fun f hf ↦
        Source.isStaticField_of_mem hf
      refine (((List.forall₂_and_left _ _).mpr ⟨hdeclared, hloads.flip⟩).imp ?_).flip
      rintro f e ⟨hf, value, hvalue, hsum⟩
      refine ⟨value, hvalue, ?_⟩
      rwa [Nat.mod_eq_of_lt (hstatics f hf)] at hsum

end Images

/-- An image at the last page of the address space. -/
def lastPage : Options := { loadAddress := 0xFFFFFFFFFFFFF000 }

/-- A small image fits the last page, and its static fields lie in it. -/
theorem fitsAddressSpace_lastPage :
    ∃ image, compile sharedCounters lastPage = .ok image ∧ image.memoryLength < wordLimit ∧
      FitsAddressSpace sharedCounters 0xFFFFFFFFFFFFF000 image := by
  have hroom : (compile sharedCounters lastPage).toOption.map
      (fun image ↦ decide (image.memoryLength ≤ 0x1000)) = some true := by decide +kernel
  obtain ⟨image, h, htest⟩ := exists_ok_of_map hroom
  have hle := of_decide_eq_true htest
  have hsize : image.memoryLength < wordLimit := hle.trans_lt (by decide)
  have hend : lastPage.loadAddress.toNat + image.memoryLength ≤ wordLimit :=
    Nat.add_le_add_left hle _
  exact ⟨image, h, hsize, (fitsAddressSpace_iff h hsize).mpr hend⟩

/-- A program with more static fields than a page has words, the first of which it writes. -/
def crowdedStatics : Program :=
  ⟨[⟨"Main", List.replicate 512 ⟨"word", .int, true, false⟩,
    [⟨"main", .void, true, false, [⟨"args", .array (.object "String")⟩],
      [.assign (.field ⟨0, 0⟩) (.literal (.int 1))]⟩]⟩]⟩

/-- An address that is read from a text and passes every check may leave no room for the image. -/
theorem not_forall_fitsAddressSpace :
    ¬∀ (text : String) (load : UInt64) (p : Program) (image : Image),
      Address.parse text = .ok load → compile p { loadAddress := load } = .ok image →
        FitsAddressSpace p load image := by
  intro hfits
  have hparse : Address.parse "0xfffffffffffff000" = .ok 0xFFFFFFFFFFFFF000 := by decide +kernel
  have hfull : (compile crowdedStatics lastPage).toOption.map
      (fun image ↦ decide (0x1000 < image.memorySize.toNat)) = some true := by decide +kernel
  obtain ⟨image, h, htest⟩ := exists_ok_of_map hfull
  have hlarge : 0x1000 < image.memorySize.toNat := of_decide_eq_true htest
  obtain ⟨memorySize, hmemory, hle⟩ := (hfits _ _ _ image hparse h).segment
  rw [Image.segmentMemorySize?_encode] at hmemory
  cases hmemory
  have hload : (0xFFFFFFFFFFFFF000 : UInt64).toNat = 0xFFFFFFFFFFFFF000 := rfl
  rw [hload, wordLimit] at hle
  omega

end NativeBackend
