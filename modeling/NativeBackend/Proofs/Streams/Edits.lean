import NativeBackend.Proofs.Code.Placement
import NativeBackend.Proofs.Decoding.RoundTrip
import NativeBackend.Proofs.Emission.Stages

/-!
# Edits of code streams

A stream changes in two ways: an instruction is appended, or an earlier one is overwritten.
Either may be refused, and then nothing changes. Whatever is asked of a stream and in
whatever order, its instructions lie one right after the other from offset zero, each with
its own bytes, so that an offset finds the one instruction that starts there.
-/

namespace NativeBackend

open Machine

namespace Machine

/-- Something that is asked of a stream. -/
inductive Edit
  | append (i : Instruction)
  | patch (index : Nat) (i : Instruction)
  deriving DecidableEq, Repr

namespace Edit

/-- The stream after an edit, or why it is refused. -/
def perform (s : CodeStream) : Edit → Except StreamFault CodeStream
  | append i => s.append i
  | patch index i => s.patch index i

/-- Whether an edit can be made: its instruction encodes, and one that takes the place of another
is as long. -/
def Fits (s : CodeStream) : Edit → Prop
  | append i => ∃ bs, i.encode = .ok bs
  | patch index i =>
    ∃ e bs, s.get? index = some e ∧ i.encode = .ok bs ∧ bs.length = e.bytes.length

/-- The edit of code in the making. -/
def action : Edit → Assemble Unit
  | append i => discard (Assemble.append i)
  | patch index i => Assemble.overwrite index i

end Edit

/-- What an edit that is made does to a stream. -/
inductive Edited (s t : CodeStream) : Edit → Prop
  /-- An appended instruction is behind all others, which stay as they are. -/
  | append {i : Instruction} {bs : List UInt8} (encoded : i.encode = .ok bs)
      (length : t.length = s.length + 1) (size : t.size = s.size + bs.length)
      (last : t.get? s.length = some ⟨i, s.size, bs⟩)
      (kept : ∀ k < s.length, t.get? k = s.get? k) : Edited s t (.append i)
  /-- An instruction takes the place of another. No offset and no length changes, and no other
  instruction. -/
  | patch {index : Nat} {i : Instruction} {e : Emitted} {bs : List UInt8}
      (encoded : i.encode = .ok bs) (old : s.get? index = some e)
      (same : bs.length = e.bytes.length) (length : t.length = s.length) (size : t.size = s.size)
      (new : t.get? index = some ⟨i, e.start, bs⟩)
      (kept : ∀ k, k ≠ index → t.get? k = s.get? k) : Edited s t (.patch index i)

/-- The instructions of a stream lie where they belong, with their own bytes. -/
structure WellPlaced (s : CodeStream) : Prop where
  starts : ∀ k e, s.get? k = some e → e.start = byteCount (s.entries.toList.take k)
  total : s.size = byteCount s.entries.toList
  length_bytes : s.bytes.length = s.size
  encoded : ∀ k e, s.get? k = some e → e.instruction.encode = .ok e.bytes
  slices : ∀ k e, s.get? k = some e → (s.bytes.take e.finish).drop e.start = e.bytes
  /-- An offset finds an instruction exactly if that one starts there. -/
  found : ∀ offset e, s.at? offset = some e ↔ (∃ k, s.get? k = some e) ∧ e.start = offset

private theorem byteCount_cons (e : Emitted) (es : List Emitted) :
    byteCount (e :: es) = e.bytes.length + byteCount es := by
  simp [byteCount]

private theorem byteCount_append (es es' : List Emitted) :
    byteCount (es ++ es') = byteCount es + byteCount es' := by
  simp [byteCount]

/-- The bytes of instructions in a row are as many as theirs together. -/
theorem length_flatMap_bytes (es : List Emitted) :
    (es.flatMap Emitted.bytes).length = byteCount es := by
  rw [List.length_flatMap]
  rfl

namespace InOrder

variable {o k : Nat} {es es' : List Emitted} {e : Emitted}

private theorem append (h : InOrder o es) (h' : InOrder (o + byteCount es) es') :
    InOrder o (es ++ es') := by
  induction es generalizing o with
  | nil => exact h'
  | cons e es ih =>
    obtain ⟨hstart, hencode, hrest⟩ := h
    refine ⟨hstart, hencode, ih hrest ?_⟩
    rwa [Emitted.finish, hstart, Nat.add_assoc, ← byteCount_cons]

/-- What comes after some instructions lies in order from where these end. -/
theorem of_append (h : InOrder o (es ++ es')) : InOrder o es ∧ InOrder (o + byteCount es) es' := by
  induction es generalizing o with
  | nil => exact ⟨trivial, h⟩
  | cons e es ih =>
    obtain ⟨hstart, hencode, hrest⟩ := h
    obtain ⟨hes, hes'⟩ := ih hrest
    refine ⟨⟨hstart, hencode, hes⟩, ?_⟩
    rwa [byteCount_cons, ← Nat.add_assoc, ← hstart]

/-- An instruction of the same length may take the place of another. -/
theorem replace {before after : List Emitted} (h : InOrder o (before ++ e :: after))
    {i : Instruction} {bs : List UInt8} (hbs : i.encode = .ok bs)
    (hlength : bs.length = e.bytes.length) :
    InOrder o (before ++ ⟨i, e.start, bs⟩ :: after) := by
  obtain ⟨hbefore, hstart, -, hafter⟩ := h.of_append
  refine hbefore.append ⟨hstart, hbs, ?_⟩
  rwa [Emitted.finish, hlength]

/-- The instruction at an index, with its place among the bytes. -/
theorem at_index (h : InOrder o es) (he : es[k]? = some e) :
    e.start = o + byteCount (es.take k) ∧ e.instruction.encode = .ok e.bytes ∧
      ∃ after, es.flatMap Emitted.bytes =
        (es.take k).flatMap Emitted.bytes ++ (e.bytes ++ after) := by
  have hsplit := eq_take_append_cons he
  obtain ⟨-, hstart, hencode, -⟩ := (hsplit ▸ h).of_append
  refine ⟨hstart, hencode, (es.drop (k + 1)).flatMap Emitted.bytes, ?_⟩
  conv_lhs => rw [hsplit]
  rw [List.flatMap_append, List.flatMap_cons]

private theorem laid (h : InOrder o es) : Laid o (es.map (Marked.mk · .plain)) := by
  induction es generalizing o with
  | nil => trivial
  | cons e es ih =>
    obtain ⟨hstart, hencode, hrest⟩ := h
    exact ⟨hstart, length_encode_pos hencode, ih hrest⟩

/-- Later instructions start at greater offsets. -/
theorem pairwise_start (h : InOrder o es) : es.Pairwise (·.start < ·.start) := by
  induction es generalizing o with
  | nil => exact .nil
  | cons e es ih =>
    obtain ⟨-, hencode, hrest⟩ := h
    refine .cons (fun e' he' ↦ ?_) (ih hrest)
    have hge := hrest.laid.start_ge _ (List.mem_map_of_mem he')
    have hpos := length_encode_pos hencode
    change e.start < e'.start
    rw [Emitted.finish] at hge
    dsimp only at hge
    omega

/-- An offset finds an instruction exactly if that one starts there. -/
theorem find?_start_iff (h : InOrder o es) {offset : Nat} :
    es.find? (·.start == offset) = some e ↔ e ∈ es ∧ e.start = offset := by
  constructor
  · intro hfind
    exact ⟨List.mem_of_find?_eq_some hfind, by simpa using List.find?_some hfind⟩
  · rintro ⟨hmem, rfl⟩
    have hentries : (es.map (Marked.mk · .plain)).map Marked.entry = es := by
      rw [List.map_map]
      exact List.map_id es
    have hfound := h.laid.find?_start (List.mem_map_of_mem hmem)
    rwa [hentries] at hfound

end InOrder

/-- The instructions of a stream lie in order and fill it up. -/
structure InPlace (s : CodeStream) : Prop where
  order : InOrder 0 s.entries.toList
  total : s.size = byteCount s.entries.toList

namespace InPlace

variable {s t : CodeStream}

private theorem empty : InPlace .empty := ⟨trivial, rfl⟩

private theorem push (h : InPlace s) {i : Instruction} {bs : List UInt8} (hbs : i.encode = .ok bs) :
    InPlace (s.push i bs) := by
  constructor
  · rw [CodeStream.push, Array.toList_push]
    refine h.order.append ⟨?_, hbs, trivial⟩
    rw [Nat.zero_add, h.total]
  · rw [CodeStream.push, Array.toList_push, byteCount_append, ← h.total]
    rfl

private theorem patch (h : InPlace s) {index : Nat} {i : Instruction}
    (ht : s.patch index i = .ok t) : InPlace t := by
  cases hold : s.entries.toList[index]? with
  | none =>
    rw [CodeStream.patch, CodeStream.get?, ← Array.getElem?_toList, hold] at ht
    cases ht
  | some e =>
    have hsplit := eq_take_append_cons hold
    have hindex : (s.entries.toList.take index).length = index :=
      List.length_take_of_le (List.getElem?_eq_some_iff.mp hold).1.le
    have horder := h.order
    have htotal := h.total
    rw [hsplit] at horder htotal
    rw [← hindex] at ht
    obtain ⟨bs, hbs, hlength, rfl⟩ := (CodeStream.patch_iff hsplit).mp ht
    constructor
    · exact horder.replace hbs hlength
    · rw [htotal, byteCount_append, byteCount_append, byteCount_cons, byteCount_cons, hlength]

private theorem wellPlaced (h : InPlace s) : WellPlaced s := by
  have hget : ∀ k, s.get? k = s.entries.toList[k]? := fun k ↦ Array.getElem?_toList.symm
  refine ⟨fun k e he ↦ ?_, h.total, ?_, fun k e he ↦ ?_, fun k e he ↦ ?_, fun offset e ↦ ?_⟩
  · simpa using (h.order.at_index ((hget k).symm.trans he)).1
  · rw [CodeStream.bytes, length_flatMap_bytes, h.total]
  · exact (h.order.at_index ((hget k).symm.trans he)).2.1
  · obtain ⟨hstart, -, after, hbytes⟩ := h.order.at_index ((hget k).symm.trans he)
    rw [Nat.zero_add, ← length_flatMap_bytes] at hstart
    rw [CodeStream.bytes, hbytes, Emitted.finish, hstart, List.take_length_add_append,
      List.drop_left, List.take_left]
  · rw [CodeStream.at?, h.order.find?_start_iff, List.mem_iff_getElem?]
    simp only [hget]

end InPlace

section Perform

variable {s t : CodeStream} {i : Instruction} {index : Nat}

private theorem append_eq_ok : s.append i = .ok t ↔ ∃ bs, i.encode = .ok bs ∧ t = s.push i bs := by
  rw [CodeStream.append]
  cases i.encode with
  | ok bs => simp [eq_comm]
  | error cause => simp

private theorem InPlace.perform (h : InPlace s) {e : Edit} (ht : e.perform s = .ok t) : InPlace t :=
  by
  cases e with
  | append i =>
    obtain ⟨bs, hbs, rfl⟩ := append_eq_ok.mp ht
    exact h.push hbs
  | patch index i => exact h.patch ht

/-- What an edit that is made does. -/
theorem edited_of_perform {e : Edit} (h : e.perform s = .ok t) : Edited s t e := by
  cases e with
  | append i =>
    obtain ⟨bs, hbs, rfl⟩ := append_eq_ok.mp h
    refine .append hbs (Array.size_push _) rfl Array.getElem?_push_size fun k hk ↦ ?_
    exact (Array.getElem?_push_lt hk).trans (Array.getElem?_eq_getElem hk).symm
  | patch index i =>
    cases hold : s.get? index with
    | none =>
      rw [Edit.perform, CodeStream.patch, hold] at h
      cases h
    | some old =>
      obtain ⟨hlength, hsize, bs, hbs, hsame, hget⟩ := get?_of_patch hold h
      exact .patch hbs hold hsame hlength hsize ((hget index).trans (if_pos rfl))
        fun k hk ↦ (hget k).trans (if_neg hk)

/-- An edit is made exactly if it fits. -/
theorem exists_perform_iff {e : Edit} : (∃ t, e.perform s = .ok t) ↔ e.Fits s := by
  constructor
  · rintro ⟨t, h⟩
    cases edited_of_perform h with
    | append encoded => exact ⟨_, encoded⟩
    | patch encoded old same => exact ⟨_, _, old, encoded, same⟩
  · intro hfits
    cases e with
    | append i =>
      obtain ⟨bs, hbs⟩ := hfits
      exact ⟨_, append_eq_ok.mpr ⟨bs, hbs, rfl⟩⟩
    | patch index i =>
      obtain ⟨old, bs, hold, hbs, hlength⟩ := hfits
      simp only [Edit.perform, CodeStream.patch, hold, hbs, hlength, if_true]
      exact ⟨_, rfl⟩

end Perform

end Machine

/-- Code in the making after an edit, whether it is made or refused. -/
def Assembly.edit (a : Assembly) (e : Edit) : Assembly := (e.action.run.run a).2

/-- What an edit does to code in the making is what it does to the stream. A refused edit changes
nothing at all. -/
theorem run_action (a : Assembly) (e : Edit) :
    e.action.run.run a =
      match e.perform a.stream with
      | .ok t => (.ok (), { a with stream := t })
      | .error cause => (.error (.stream cause), a) := by
  cases e with
  | append i =>
    cases hi : i.encode with
    | ok bs =>
      have hruns : Runs (Assemble.append i) a a.stream.length
          { a with stream := a.stream.push i bs } :=
        Assemble.runs_append.mpr ⟨rfl, bs, hi, rfl⟩
      simp only [Edit.perform, CodeStream.append, hi]
      exact Runs.discard_iff.mpr ⟨_, hruns⟩
    | error cause =>
      simp only [Edit.perform, CodeStream.append, Edit.action, Assemble.append, hi]
      rfl
  | patch index i =>
    cases ht : a.stream.patch index i with
    | ok t =>
      simp only [Edit.perform, ht]
      exact Assemble.runs_overwrite.mpr ⟨t, ht, rfl⟩
    | error cause =>
      have hmatch : (Assemble.overwrite index i).run.run a =
          ((match a.stream.patch index i with
            | .ok stream => modify fun a ↦ { a with stream }
            | .error cause => throw (.stream cause) : Assemble Unit)).run.run a := rfl
      simp only [Edit.perform, ht, Edit.action, hmatch]
      rfl

/-- What code in the making has to say to an edit. -/
structure Answers (a : Assembly) (e : Edit) : Prop where
  accepts : (∃ t, e.perform a.stream = .ok t) ↔ e.Fits a.stream
  made : ∀ t, e.perform a.stream = .ok t →
    Edited a.stream t e ∧ Runs e.action a () { a with stream := t }
  /-- A refused edit leaves everything as it was. -/
  refused : ∀ cause, e.perform a.stream = .error cause →
    e.action.run.run a = (.error (.stream cause), a)

private theorem answers (a : Assembly) (e : Edit) : Answers a e := by
  refine ⟨exists_perform_iff, fun t ht ↦ ⟨edited_of_perform ht, ?_⟩, fun cause hcause ↦ ?_⟩
  · rw [Runs, run_action, ht]
  · rw [run_action, hcause]

private theorem Machine.InPlace.edit {a : Assembly} (h : InPlace a.stream) (e : Edit) :
    InPlace (a.edit e).stream := by
  rw [Assembly.edit, run_action]
  cases ht : e.perform a.stream with
  | ok t => exact h.perform ht
  | error cause => exact h

private theorem Machine.InPlace.edits {a : Assembly} (h : InPlace a.stream) (edits : List Edit) :
    InPlace (edits.foldl Assembly.edit a).stream := by
  induction edits generalizing a with
  | nil => exact h
  | cons e edits ih => exact ih (h.edit e)

/-- After any edits, made or refused, the instructions lie where they belong. The next edit is made
exactly if it fits; then it changes what it says and nothing else, and a refused one changes
nothing. -/
theorem wellPlaced_after_edits (edits : List Edit) :
    WellPlaced (edits.foldl Assembly.edit .empty).stream ∧
      ∀ e, Answers (edits.foldl Assembly.edit .empty) e :=
  ⟨(InPlace.edits .empty edits).wellPlaced, answers _⟩

-- an operand that does not encode, an index out of range and a longer instruction are refused
example :
    ([.append .ret, .append (.movLoad (.reg .rax)), .patch 1 .ret, .patch 0 .syscall,
      .append .cqo, .patch 1 .syscall].foldl Assembly.edit .empty).stream.entries.toList =
      [⟨.ret, 0, [0xC3]⟩, ⟨.syscall, 1, [0x0F, 0x05]⟩] := by decide

end NativeBackend
