import NativeBackend.Proofs.Image.AddressSpace
import NativeBackend.Proofs.Streams.Edits
import NativeBackend.Proofs.Text.Numerals

/-!
# Listings and images

A listing is a text of lines, and a line has an address and bytes in its first two columns, which
a reader finds without knowing the instruction: bytes are pairs of digits, and no name of an
instruction looks like one. What the columns of all lines say is what the image of the same code
holds.
-/

namespace NativeBackend

open Machine NativeBackend.Tree

namespace Listing

/-- The lines of a text in which every line has its line end. -/
def lines (text : String) : List (List Char) := (text.toList.splitOn '\n').dropLast

/-- The first column of a line, up to a blank. -/
def firstColumn (line : List Char) : List Char := line.takeWhile (· != ' ')

/-- The pairs of digits at the start of a text, each of which a blank follows, as bytes. -/
def readBytes : List Char → List UInt8
  | hi :: lo :: ' ' :: rest =>
    match Hex.digit? hi, Hex.digit? lo with
    | some h, some l => UInt8.ofNat (16 * h + l) :: readBytes rest
    | _, _ => []
  | _ => []

/-- The bytes in the second column of a line, which two blanks part from the first one. -/
def secondColumn (line : List Char) : List UInt8 :=
  readBytes ((line.dropWhile (· != ' ')).drop 2)

end Listing

open Listing

/-- A listing of code says what an image at a load address holds. -/
structure ListsImage (code : Code) (load : UInt64) (listing : String) (image : Image) : Prop where
  length : (lines listing).length = code.stream.length
  /-- Every line begins with the address of its instruction, in eight digits or more. -/
  addresses : ∀ k e, code.stream.get? k = some e → ∃ line, (lines listing)[k]? = some line ∧
    Numeral 16 (firstColumn line) (load + 120 + UInt64.ofNat e.start).toNat ∧
    firstColumn line = (Hex.padded 8 (load + 120 + UInt64.ofNat e.start).toNat).toList
  /-- Every line has the bytes of the file for its instruction, and these encode it. -/
  bytes : ∀ k e, code.stream.get? k = some e → ∃ line, (lines listing)[k]? = some line ∧
    secondColumn line = (image.encode.drop (120 + e.start)).take e.bytes.length ∧
    e.instruction.encode = .ok (secondColumn line)
  whole : (lines listing).flatMap secondColumn = image.code
  file : image.code = image.encode.drop 120
  /-- A line has the address of the entry. -/
  entered : ∃ line ∈ lines listing, Numeral 16 (firstColumn line) image.entryAddress.toNat
  /-- In code that the address space has room for, no other line has it. -/
  entry : image.code.length ≤ 2 ^ 64 → ∃! k : Nat, ∃ line, (lines listing)[k]? = some line ∧
    Numeral 16 (firstColumn line) image.entryAddress.toNat

section Texts

private theorem newline_not_mem_decimal (n : Nat) : '\n' ∉ Nat.toDigits 10 n :=
  (Numeral.toDigits (by decide) (by decide) n).notMem (by decide) rfl

private theorem newline_not_mem_marked (n : Nat) : '\n' ∉ (Hex.marked n).toList := by
  have hdigits : '\n' ∉ Nat.toDigits 16 n :=
    (Numeral.toDigits (by decide) le_rfl n).notMem le_rfl rfl
  simp [Hex.marked, Hex.digits, hdigits]

private theorem newline_not_mem_name (r : Register) :
    '\n' ∉ r.name.toList ∧ '\n' ∉ r.byteName.toList := by
  cases r <;> decide

private theorem newline_not_mem_carriedName (o : Operand) :
    '\n' ∉ (Instruction.carriedName o).toList := by
  rw [Instruction.carriedName]
  split
  · exact (newline_not_mem_name _).1
  · decide

private theorem newline_not_mem_operand (o : Operand) : '\n' ∉ o.text.toList := by
  have hdisp (d : Int32) : '\n' ∉ (Operand.displacementText d).toList := by
    rw [Operand.displacementText]
    split_ifs
    · decide
    all_goals simp [newline_not_mem_marked]
  cases o with
  | reg rm => exact (newline_not_mem_name rm).1
  | pair rm _ => exact (newline_not_mem_name rm).1
  | mem base disp _ => simp [Operand.text, newline_not_mem_name, hdisp]
  | indexed base index scale disp _ =>
    simp [Operand.text, newline_not_mem_name, hdisp, newline_not_mem_decimal]

private theorem newline_not_mem_text (i : Instruction) : '\n' ∉ i.text.toList := by
  have hop (op : AluOp) : '\n' ∉ op.mnemonic.toList := by cases op <;> decide
  have hcond (c : Condition) : '\n' ∉ c.suffix.toList := by cases c <;> decide
  have hdistance (d : Int) : '\n' ∉ (Instruction.distanceText d).toList := by
    rw [Instruction.distanceText]
    split_ifs <;> simp [newline_not_mem_decimal]
  cases i <;>
    simp [Instruction.text, Instruction.immediateText, hop, hcond, hdistance, newline_not_mem_name,
      newline_not_mem_marked, newline_not_mem_operand, newline_not_mem_carriedName]

private theorem readBytes_eq_nil {cs : List Char}
    (h : (cs[0]?.bind Hex.digit?).isNone ∨ cs[2]? ≠ some ' ') : readBytes cs = [] := by
  unfold readBytes
  split
  · next hi lo rest =>
    have hnone : Hex.digit? hi = none := by simpa using h
    rw [hnone]
  · rfl

-- No two digits and a blank begin the text of an instruction.
private theorem readBytes_text (i : Instruction) : readBytes i.text.toList = [] := by
  apply readBytes_eq_nil
  cases i with
  | alu op _ => cases op <;> simp [Instruction.text, AluOp.mnemonic, Hex.digit?]
  | aluImm op _ _ => cases op <;> simp [Instruction.text, AluOp.mnemonic, Hex.digit?]
  | setcc cond _ => simp [Instruction.text, Hex.digit?]
  | jcc cond _ => simp [Instruction.text, Hex.digit?]
  | _ => simp [Instruction.text]

end Texts

section Columns

variable {bs : List UInt8} {rest : List Char}

private theorem toList_byte (b : UInt8) :
    (Hex.byte b).toList = [Nat.digitChar (b.toNat / 16), Nat.digitChar (b.toNat % 16)] := by
  have hall : ∀ n < 256,
      (Hex.padded 2 n).toList = [Nat.digitChar (n / 16), Nat.digitChar (n % 16)] := by
    decide +kernel
  exact hall b.toNat b.toNat_lt

private theorem readBytes_byte (b : UInt8) :
    readBytes ((Hex.byte b).toList ++ ' ' :: rest) = b :: readBytes rest := by
  have hlt := b.toNat_lt
  have hdigit {d : Nat} (hd : d < 16) : Hex.digit? (Nat.digitChar d) = some d :=
    (isDigit_digitChar le_rfl hd).digit?_eq le_rfl
  have hvalue : 16 * (b.toNat / 16) + b.toNat % 16 = b.toNat := Nat.div_add_mod _ 16
  rw [toList_byte, List.cons_append, List.cons_append, List.nil_append, readBytes,
    hdigit (by omega), hdigit (by omega)]
  dsimp only
  rw [hvalue, UInt8.ofNat_toNat]

private theorem toList_spaced (b b' : UInt8) (bs : List UInt8) :
    (Hex.spaced (b :: b' :: bs)).toList =
      (Hex.byte b).toList ++ ' ' :: (Hex.spaced (b' :: bs)).toList := by
  simp [Hex.spaced]

private theorem readBytes_spaced (hrest : readBytes rest = []) :
    readBytes ((Hex.spaced bs).toList ++ ' ' :: rest) = bs := by
  induction bs with
  | nil => exact readBytes_eq_nil (.inl rfl)
  | cons b bs ih =>
    cases bs with
    | nil =>
      change readBytes ((Hex.byte b).toList ++ ' ' :: rest) = [b]
      rw [readBytes_byte, hrest]
    | cons b' bs => rw [toList_spaced, List.append_assoc, List.cons_append, readBytes_byte, ih]

-- The blanks behind the bytes are moved to the text.
private theorem toList_line (base : UInt64) (e : Emitted) :
    (e.line base).toList =
      (Hex.padded 8 (base + UInt64.ofNat e.start).toNat).toList ++ ' ' :: ' ' ::
        ((Hex.spaced e.bytes).toList ++ ' ' ::
          (List.replicate (30 - (Hex.spaced e.bytes).length) ' ' ++
            e.instruction.text.toList)) := by
  have hblanks (n : Nat) (cs : List Char) :
      List.replicate n ' ' ++ ' ' :: cs = ' ' :: (List.replicate n ' ' ++ cs) := by
    rw [← List.cons_append, ← List.replicate_succ, List.replicate_succ', List.append_assoc]
    rfl
  simp [Emitted.line, padRight, hblanks]

private theorem numeral_padded (width n : Nat) : Numeral 16 (Hex.padded width n).toList n := by
  rw [Hex.padded, String.toList_ofList]
  exact (Numeral.toDigits (by decide) le_rfl n).zeros (by decide) _

private theorem blank_not_mem_padded (width n : Nat) :
    ∀ c ∈ (Hex.padded width n).toList, (c != ' ') = true := by
  intro c hc
  rw [bne_iff_ne]
  rintro rfl
  exact (numeral_padded width n).notMem le_rfl rfl hc

private theorem firstColumn_line (base : UInt64) (e : Emitted) :
    firstColumn (e.line base).toList =
      (Hex.padded 8 (base + UInt64.ofNat e.start).toNat).toList := by
  rw [toList_line, firstColumn, List.takeWhile_append_of_pos (blank_not_mem_padded 8 _),
    List.takeWhile_cons_of_neg (by simp), List.append_nil]

private theorem numeral_firstColumn (base : UInt64) (e : Emitted) :
    Numeral 16 (firstColumn (e.line base).toList) (base + UInt64.ofNat e.start).toNat := by
  rw [firstColumn_line]
  exact numeral_padded 8 _

private theorem secondColumn_line (base : UInt64) (e : Emitted) :
    secondColumn (e.line base).toList = e.bytes := by
  rw [toList_line, secondColumn, List.dropWhile_append_of_pos (blank_not_mem_padded 8 _),
    List.dropWhile_cons_of_neg (by simp)]
  refine readBytes_spaced ?_
  generalize 30 - (Hex.spaced e.bytes).length = count
  cases count with
  | zero => exact readBytes_text e.instruction
  | succ count => exact readBytes_eq_nil (.inl rfl)

private theorem newline_not_mem_line (base : UInt64) (e : Emitted) :
    '\n' ∉ (e.line base).toList := by
  have hpadded (width n : Nat) : '\n' ∉ (Hex.padded width n).toList :=
    (numeral_padded width n).notMem le_rfl rfl
  have hspaced : '\n' ∉ (Hex.spaced e.bytes).toList := by
    induction e.bytes with
    | nil => decide
    | cons b bs ih =>
      cases bs with
      | nil => exact hpadded 2 b.toNat
      | cons b' bs =>
        rw [toList_spaced]
        simpa using ⟨hpadded 2 b.toNat, ih⟩
  rw [toList_line]
  simp [hpadded, hspaced, newline_not_mem_text]

end Columns

section Lines

private theorem splitOn_flatMap {ls : List (List Char)} (h : ∀ l ∈ ls, '\n' ∉ l) :
    (ls.flatMap (· ++ ['\n'])).splitOn '\n' = ls ++ [[]] := by
  rw [List.splitOn_eq_splitOnP]
  induction ls with
  | nil => rfl
  | cons l ls ih =>
    obtain ⟨hl, hls⟩ := List.forall_mem_cons.mp h
    rw [List.flatMap_cons, List.append_assoc, List.singleton_append,
      List.splitOnP_append_cons_of_forall_mem _ _ (by simp), ih hls]
    · rfl
    · intro c hc
      simp only [beq_eq_false_iff_ne]
      rintro rfl
      exact hl hc

private theorem lines_listing (s : CodeStream) (base : UInt64) :
    lines (s.listing base) = s.entries.toList.map fun e ↦ (e.line base).toList := by
  have htext : (s.listing base).toList =
      (s.entries.toList.map fun e ↦ (e.line base).toList).flatMap (· ++ ['\n']) := by
    simp [CodeStream.listing, CodeStream.lines, List.flatMap_map]
  rw [lines, htext, splitOn_flatMap, List.dropLast_concat]
  intro l hl
  obtain ⟨e, -, rfl⟩ := List.mem_map.mp hl
  exact newline_not_mem_line base e

end Lines

section Images

variable {code : Code} {image : Image} {load : UInt64}

private theorem slice_encode (horder : InOrder 0 code.stream.entries.toList)
    (hcode : image.code = code.stream.bytes) {k : Nat} {e : Emitted}
    (he : code.stream.entries.toList[k]? = some e) :
    (image.encode.drop (120 + e.start)).take e.bytes.length = e.bytes := by
  obtain ⟨hstart, -, after, hbytes⟩ := horder.at_index he
  rw [Nat.zero_add, ← length_flatMap_bytes] at hstart
  rw [Image.encode_eq_record, ← Image.length_record_headerFields image,
    List.drop_length_add_append, hcode, CodeStream.bytes, hbytes, hstart, List.drop_left,
    List.take_left]

private theorem index_unique (horder : InOrder 0 code.stream.entries.toList)
    (hroom : code.stream.bytes.length ≤ 2 ^ 64) {j k : Nat} {e e' : Emitted}
    (he : code.stream.entries.toList[j]? = some e) (he' : code.stream.entries.toList[k]? = some e')
    (h : load + 120 + UInt64.ofNat e.start = load + 120 + UInt64.ofNat e'.start) : j = k := by
  have hlt : ∀ {k : Nat} {e : Emitted}, code.stream.entries.toList[k]? = some e →
      e.start < 2 ^ 64 := by
    intro k e he
    obtain ⟨hstart, hencode, after, hbytes⟩ := horder.at_index he
    rw [Nat.zero_add, ← length_flatMap_bytes] at hstart
    have hpos := length_encode_pos hencode
    rw [CodeStream.bytes, hbytes, List.length_append, List.length_append, ← hstart] at hroom
    omega
  have hstarts : e.start = e'.start := by
    have hwords := congrArg UInt64.toNat ((UInt64.add_right_inj _).mp h)
    rwa [UInt64.toNat_ofNat_of_lt' (hlt he), UInt64.toNat_ofNat_of_lt' (hlt he')] at hwords
  have hnodup : (code.stream.entries.toList.map Emitted.start).Nodup :=
    List.pairwise_map.mpr (horder.pairwise_start.imp Nat.ne_of_lt)
  refine (List.getElem?_inj ?_ hnodup).mp ?_
  · rw [List.length_map]
    exact (List.getElem?_eq_some_iff.mp he).1
  · rw [List.getElem?_map, List.getElem?_map, he, he', Option.map_some, Option.map_some, hstarts]

end Images

/-- The listing of a program that compiles says what its image holds. -/
theorem listsImage_of_compile {p : Program} {o : Options} {image : Image}
    (h : compile p o = .ok image) :
    ∃ code, (generate p o).result = .ok code ∧
      ListsImage code o.loadAddress (code.listing o.loadAddress) image := by
  obtain ⟨main, code, hmain, hcode, hcontents, entry, hentry, hstarts⟩ :=
    exists_entered_of_compile h
  obtain ⟨parts, -, hlinked, -⟩ := exists_linked hmain hcode
  have horder := hlinked.inOrder
  have hlines := lines_listing code.stream (Image.codeAddress o.loadAddress 0)
  have hline : ∀ {k : Nat} {line : List Char},
      (lines (code.listing o.loadAddress))[k]? = some line ↔
        ∃ e, code.stream.entries.toList[k]? = some e ∧
          (e.line (Image.codeAddress o.loadAddress 0)).toList = line := by
    intro k line
    rw [Code.listing, hlines, List.getElem?_map, Option.map_eq_some_iff]
  obtain ⟨j, hj⟩ := List.getElem?_of_mem hentry
  have hfirst : Numeral 16 (firstColumn (entry.line (Image.codeAddress o.loadAddress 0)).toList)
      image.entryAddress.toNat := hstarts ▸ numeral_firstColumn _ entry
  refine ⟨code, hcode, ?_, fun k e he ↦ ?_, fun k e he ↦ ?_, ?_, ?_, ?_, fun hroom ↦ ?_⟩
  · rw [Code.listing, hlines, List.length_map, Array.length_toList, CodeStream.length]
  · rw [CodeStream.get?, ← Array.getElem?_toList] at he
    exact ⟨_, hline.mpr ⟨e, he, rfl⟩, numeral_firstColumn _ e, firstColumn_line _ e⟩
  · rw [CodeStream.get?, ← Array.getElem?_toList] at he
    refine ⟨_, hline.mpr ⟨e, he, rfl⟩, ?_, ?_⟩
    · rw [secondColumn_line, slice_encode horder hcontents he]
    · rw [secondColumn_line, (horder.at_index he).2.1]
  · rw [Code.listing, hlines, hcontents, List.flatMap_map, CodeStream.bytes]
    exact congrArg (List.flatMap · _) (funext fun e ↦ secondColumn_line _ e)
  · rw [Image.encode_eq_record, List.drop_left' (Image.length_record_headerFields image)]
  · exact ⟨_, List.mem_of_getElem? (hline.mpr ⟨entry, hj, rfl⟩), hfirst⟩
  · refine ⟨j, ⟨_, hline.mpr ⟨entry, hj, rfl⟩, hfirst⟩, ?_⟩
    rintro k ⟨line, hk, hnumeral⟩
    obtain ⟨e, he, rfl⟩ := hline.mp hk
    have hsame := hnumeral.unique le_rfl (numeral_firstColumn _ e)
    rw [hstarts] at hsame
    exact (index_unique horder (hcontents ▸ hroom) hj he (UInt64.toNat_inj.mp hsame)).symm

/-- So does that of a program with static fields at the last page, where addresses have sixteen
digits. -/
theorem listsImage_lastPage :
    ∃ image code, compile sharedCounters lastPage = .ok image ∧ image.code.length ≤ 2 ^ 64 ∧
      (generate sharedCounters lastPage).result = .ok code ∧
      ListsImage code 0xFFFFFFFFFFFFF000 (code.listing 0xFFFFFFFFFFFFF000) image := by
  have hroom : (compile sharedCounters lastPage).toOption.map
      (fun image ↦ decide (image.code.length ≤ 2 ^ 64)) = some true := by decide +kernel
  obtain ⟨image, h, htest⟩ := exists_ok_of_map hroom
  obtain ⟨code, hcode, hlists⟩ := listsImage_of_compile h
  exact ⟨image, code, h, of_decide_eq_true htest, hcode, hlists⟩

end NativeBackend
