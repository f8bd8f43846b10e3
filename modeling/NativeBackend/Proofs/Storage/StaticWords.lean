import NativeBackend.Proofs.Image.Header
import NativeBackend.Proofs.Layout.FrameSlots
import NativeBackend.Proofs.Storage.Loads

/-!
# Words of static fields

Static fields lie behind the code of an image, from the next word boundary on, each in a
word of its own and in the order of their ranks. The code refers to each of them by its
address, and the segment of the image has room for them that does not come from the file
and may be written.
-/

namespace NativeBackend

open Machine Execution NativeBackend.Tree

/-- The offset of the word of a static field from the load address of an image, given the count of
bytes of its code. -/
def staticPlace (p : Program) (codeLength : Nat) (f : FieldRef) : Nat :=
  120 + (codeLength + 7) / 8 * 8 + 8 * p.staticRank f

/-- The address of the word of a static field. Addresses wrap. -/
def staticAddress (p : Program) (load : UInt64) (codeLength : Nat) (f : FieldRef) : UInt64 :=
  load + UInt64.ofNat (staticPlace p codeLength f)

/-- A word lies in the segment of a written image, behind what comes from the file, the segment may
be written, and the address is not zero unless the segment reaches around the address space. -/
def InSegment (image : Image) (load address : UInt64) : Prop :=
  ∃ fileSize memorySize flags,
    Image.segmentFileSize? image.encode = some fileSize ∧
    Image.segmentMemorySize? image.encode = some memorySize ∧
    Image.segmentFlags? image.encode = some flags ∧
    fileSize ≤ (address - load).toNat ∧ (address - load).toNat + 8 ≤ memorySize ∧
    flags.testBit 1 = true ∧ (load.toNat + memorySize ≤ wordLimit → address ≠ 0)

/-- An image loads the addresses of static fields and no others, and has room for their words. -/
structure StoresStatics (p : Program) (load : UInt64) (image : Image) : Prop where
  /-- The code loads an address for each reference to a static field, and no other one. -/
  loads : ∃ es, sweep 0 image.code = some es ∧
    List.Forall₂
      (fun e f ↦ e.instruction = .movAbs .rax (staticAddress p load image.code.length f))
      (es.filter (·.instruction.isLoad)) (Source.programStatics p)
  declared : ∀ f ∈ Source.programStatics p, p.isStaticField f = true
  aligned : ∀ f, (staticAddress p load image.code.length f).toNat % 8 = 0
  apart : ∀ f g, p.isStaticField f = true → p.isStaticField g = true → f ≠ g →
    Apart (staticAddress p load image.code.length f).toBitVec
      (staticAddress p load image.code.length g).toBitVec
  /-- Memory holds fewer bytes of code than there are numbers below the signed limit. -/
  inSegment : image.code.length < signedLimit → ∀ f, p.isStaticField f = true →
    InSegment image load (staticAddress p load image.code.length f)

section Addresses

variable {p : Program} {load : UInt64} {codeLength : Nat} {f g : FieldRef}

/-- An address of an integer that is natural is that of the natural number. -/
theorem ofInt_natCast (n : Nat) : UInt64.ofInt n = UInt64.ofNat n := by
  apply UInt64.toNat_inj.mp
  change ((n : Int) % 2 ^ 64).toNat % 2 ^ 64 = n % 2 ^ 64
  omega

/-- The address that fills a load is that of the word. -/
theorem filled_eq_staticAddress (h : p.staticRank f < 2 ^ 28) :
    Image.codeAddress load (staticAreaOffset codeLength) +
        UInt64.ofInt (fieldOffset p f).toInt = staticAddress p load codeLength f := by
  have hoffset : UInt64.ofInt (fieldOffset p f).toInt = UInt64.ofNat (8 * p.staticRank f) := by
    rw [fieldOffset, toInt_slotOffset h, ofInt_natCast]
  have harea : UInt64.ofNat (Image.codeOffset + staticAreaOffset codeLength) =
      UInt64.ofNat (120 + (codeLength + 7) / 8 * 8) := by
    apply UInt64.toNat_inj.mp
    simp only [UInt64.toNat_ofNat', staticAreaOffset, Convention.wordSize, Image.codeOffset,
      Image.fileHeaderSize, Image.segmentHeaderSize]
    omega
  rw [Image.codeAddress, hoffset, harea, staticAddress, staticPlace, UInt64.ofNat_add _ (8 * _),
    UInt64.add_assoc]

private theorem toNat_staticAddress_sub (load : UInt64)
    (h : staticPlace p codeLength f < wordLimit) :
    (staticAddress p load codeLength f - load).toNat = staticPlace p codeLength f := by
  rw [staticAddress, UInt64.add_comm, UInt64.add_sub_cancel, UInt64.toNat_ofNat']
  exact Nat.mod_eq_of_lt h

private theorem staticAddress_ne_zero (h : load.toNat + staticPlace p codeLength f < wordLimit) :
    staticAddress p load codeLength f ≠ 0 := by
  intro hzero
  have htoNat := congrArg UInt64.toNat hzero
  rw [staticAddress, UInt64.toNat_add, UInt64.toNat_ofNat'] at htoNat
  have hpositive : 0 < staticPlace p codeLength f := by
    rw [staticPlace]
    omega
  have hzero : (0 : UInt64).toNat = 0 := rfl
  rw [wordLimit] at h
  omega

private theorem staticAddress_aligned (h : load.toNat % pageSize = 0) :
    (staticAddress p load codeLength f).toNat % 8 = 0 := by
  have hplace : staticPlace p codeLength f % 8 = 0 := by
    rw [staticPlace]
    omega
  rw [staticAddress, UInt64.toNat_add, UInt64.toNat_ofNat']
  rw [pageSize] at h
  omega

private theorem apart_staticAddress (hcount : p.staticCount < 2 ^ 28)
    (hf : p.isStaticField f = true) (hg : p.isStaticField g = true) (hne : f ≠ g) :
    Apart (staticAddress p load codeLength f).toBitVec
      (staticAddress p load codeLength g).toBitVec := by
  have hslot (f : FieldRef) : (staticAddress p load codeLength f).toBitVec =
      slot (load + UInt64.ofNat (120 + (codeLength + 7) / 8 * 8)).toBitVec (p.staticRank f) := by
    rw [staticAddress, staticPlace, UInt64.ofNat_add, ← UInt64.add_assoc, UInt64.toBitVec_add, slot]
    exact congrArg _ (BitVec.ofInt_natCast ..).symm
  have hranks : p.staticRank f ≠ p.staticRank g := fun h ↦ hne (staticRank_injective hf hg h)
  have hlt := staticRank_lt_staticCount hf
  have hlt' := staticRank_lt_staticCount hg
  rw [hslot, hslot]
  exact apart_slot _ (by omega) (by omega) (by omega)

end Addresses

section Images

variable {p : Program} {o : Options} {image : Image}

/-- An image is there for code without reported problems, at an address on a page boundary. -/
theorem exists_code_of_compile (h : compile p o = .ok image) :
    ∃ entry code offset, entryCandidates p o = [entry] ∧ (generate p o).result = .ok code ∧
      o.loadAddress.toNat % pageSize = 0 ∧
      image = ⟨code.stream.bytes, offset, o.loadAddress, code.staticSize⟩ := by
  obtain ⟨code, hcode, himage⟩ := bind_eq_ok h
  cases herrors : (generate p o).reporter.hasErrors with
  | true =>
    rw [herrors] at himage
    cases himage
  | false =>
    have hentry : ∃ entry, entryCandidates p o = [entry] := by
      rw [generate] at herrors
      split at herrors
      · next entry hentry => exact ⟨entry, hentry⟩
      · cases herrors
    obtain ⟨entry, hentry⟩ := hentry
    rw [herrors] at himage
    have himage : Image.ofGenerated code o.loadAddress = .ok image := himage
    rw [Image.ofGenerated] at himage
    split at himage
    · cases himage
    · next offset hoffset =>
      obtain ⟨placed, hplaced, himage⟩ := bind_eq_ok himage
      rw [Image.withLoadAddress] at hplaced
      split at hplaced
      · next haligned =>
        cases hplaced
        cases himage
        exact ⟨entry, code, offset, hentry, hcode, haligned, rfl⟩
      · cases hplaced

/-- Generated code asks for a word for each static field. -/
theorem staticSize_of_generate {entry : Routine} {code : Code}
    (hentry : entryCandidates p o = [entry]) (hcode : (generate p o).result = .ok code) :
    code.staticSize = 8 * p.staticCount := by
  obtain ⟨a, hprogram, -⟩ := runs_of_generate hentry hcode
  simp only [Assemble.program, Runs.bind_iff] at hprogram
  obtain ⟨_, b, -, _, c, -, hcomplete⟩ := hprogram
  obtain ⟨_, d, _, _, -, -, hd, -⟩ := Assemble.runs_complete hcomplete
  rw [hd]
  exact staticSize_ofProgram p

private theorem staticPlace_bounds {f : FieldRef} (hlength : image.code.length < signedLimit)
    (hcount : p.staticCount < 2 ^ 28) (hzeros : image.zeroSize = 8 * p.staticCount)
    (hf : p.isStaticField f = true) :
    staticPlace p image.code.length f < wordLimit ∧
      image.fileSize.toNat ≤ staticPlace p image.code.length f ∧
      staticPlace p image.code.length f + 8 ≤ image.memorySize.toNat := by
  have hrank := staticRank_lt_staticCount hf
  have hnonzero : image.zeroSize ≠ 0 := by omega
  rw [Image.memorySize, if_neg hnonzero, Image.fileSize, hzeros]
  simp only [UInt64.toNat_ofNat', staticPlace, staticAreaOffset, Convention.wordSize,
    Image.codeOffset, Image.fileHeaderSize, Image.segmentHeaderSize, wordLimit]
  rw [signedLimit] at hlength
  omega

private theorem inSegment_staticAddress {f : FieldRef} (load : UInt64)
    (hlength : image.code.length < signedLimit) (hcount : p.staticCount < 2 ^ 28)
    (hzeros : image.zeroSize = 8 * p.staticCount) (hf : p.isStaticField f = true) :
    InSegment image load (staticAddress p load image.code.length f) := by
  obtain ⟨hplace, hfile, hmemory⟩ := staticPlace_bounds hlength hcount hzeros hf
  have hnonzero : image.zeroSize ≠ 0 := by
    have hrank := staticRank_lt_staticCount hf
    omega
  have hwritable : image.permissions.testBit 1 = true := by
    rw [Image.permissions, if_neg hnonzero]
    rfl
  refine ⟨_, _, _, image.segmentFileSize?_encode, image.segmentMemorySize?_encode,
    image.segmentFlags?_encode, ?_, ?_, hwritable, ?_⟩
  · rwa [toNat_staticAddress_sub load hplace]
  · rwa [toNat_staticAddress_sub load hplace]
  · intro hend
    apply staticAddress_ne_zero
    omega

/-- An image stores the static fields of its program. -/
theorem storesStatics_of_compile (hcount : p.staticCount < 2 ^ 28)
    (h : compile p o = .ok image) : StoresStatics p o.loadAddress image := by
  obtain ⟨entry, code, offset, hentry, hcode, haligned, rfl⟩ := exists_code_of_compile h
  obtain ⟨parts, hsources, hlinked, -⟩ := exists_linked hentry hcode
  have hstatic : ∀ f ∈ Source.programStatics p, p.isStaticField f = true :=
    fun f hf ↦ Source.isStaticField_of_mem hf
  refine ⟨⟨code.stream.entries.toList, hlinked.sweep_bytes, ?_⟩, hstatic,
    fun f ↦ staticAddress_aligned haligned,
    fun f g hf hg hne ↦ apart_staticAddress hcount hf hg hne, ?_⟩
  · -- what fills the loads is computed from the size of the stream and from slots of the layout
    have hloads := hlinked.loads hsources
    rw [← hlinked.length_bytes] at hloads
    refine (((List.forall₂_and_left _ _).mpr ⟨hstatic, hloads.flip⟩).imp ?_).flip
    rintro f e ⟨hf, he⟩
    have hrank := (staticRank_lt_staticCount hf).trans hcount
    exact he.trans (congrArg _ (filled_eq_staticAddress hrank))
  · intro hlength f hf
    have hzeros := staticSize_of_generate hentry hcode
    exact inSegment_staticAddress o.loadAddress hlength hcount hzeros hf

end Images

/-- Two classes with static fields among others, the second of which is read and written through an
object that a static field holds. -/
def sharedCounters : Program :=
  ⟨[⟨"Cell", [⟨"value", .int, false, false⟩, ⟨"made", .int, true, false⟩], []⟩,
    ⟨"Main", [⟨"last", .object "Cell", true, false⟩],
      [⟨"main", .void, true, false, [⟨"args", .array (.object "String")⟩],
        [.assign (.field ⟨1, 0⟩) (.newObject 0),
          .assign (.qualified (.classAt 0) (.field ⟨0, 1⟩)) (.literal (.int 1)),
          .assign (.qualified (.field ⟨1, 0⟩) (.field ⟨0, 0⟩))
            (.ref (.qualified (.field ⟨1, 0⟩) (.field ⟨0, 1⟩)))]⟩]⟩]⟩

/-- That program uses its static words at their addresses, and nothing else loads one. -/
theorem storesStatics_sharedCounters :
    ∃ image, compile sharedCounters {} = .ok image ∧
      Source.programStatics sharedCounters = [⟨1, 0⟩, ⟨0, 1⟩, ⟨1, 0⟩, ⟨0, 1⟩] ∧
      StoresStatics sharedCounters 0x400000 image := by
  have hok : (compile sharedCounters {}).isOk = true := by decide +kernel
  obtain ⟨image, h⟩ := exists_ok_of_isOk hok
  exact ⟨image, h, by decide, storesStatics_of_compile (by decide) h⟩

end NativeBackend
