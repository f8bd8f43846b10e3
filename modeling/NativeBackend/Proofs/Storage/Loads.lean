import NativeBackend.Proofs.Code.Placement
import NativeBackend.Proofs.Decoding.RoundTrip
import NativeBackend.Proofs.Storage.References

/-!
# Loads of static addresses

Finished code loads an address for each reference to a static field, in the same order,
and no other one. Its instructions lie in order with their own bytes, so that a sweep over
the bytes finds these loads.
-/

namespace NativeBackend

open Machine NativeBackend.Tree

/-- The loads of addresses among marked instructions. -/
def loadMarks (ms : List Marked) : List Marked := ms.filter (·.entry.instruction.isLoad)

section Assembled

variable {o : Nat} {xs : List Step} {ms ms' : List Marked}

private theorem loadMarks_append : loadMarks (ms ++ ms') = loadMarks ms ++ loadMarks ms' :=
  List.filter_append ..

private theorem loadMarks_plain {i : Instruction} {bs : List UInt8} (h : i.isLoad = false) :
    loadMarks (.plain i o bs :: ms) = loadMarks ms := by
  simp [loadMarks, h]

private theorem not_isLoad_of_jmpFitted {origin target : Nat} {j : Instruction}
    (h : Instruction.jmpFitted origin target = .ok j) : j.isLoad = false := by
  obtain ⟨d, -, -, -, rfl⟩ | hnear := jmpFitted_eq_ok h
  · rfl
  · obtain ⟨d, -, rfl⟩ := jmpNear_eq_ok hnear
    rfl

private theorem not_isLoad_of_isSound {i : Instruction} (h : i.isSound = true) :
    i.isLoad = false := by
  simp only [Instruction.isSound, Bool.and_eq_true, Bool.not_eq_true'] at h
  exact h.2

/-- Sound steps load the addresses that they ask for. -/
theorem Assembled.loads (h : Assembled o xs ms) (hsound : Each Step.isSound xs) :
    List.Forall₂ (fun m offset ↦ m.purpose = .static offset) (loadMarks ms) (staticOffsets xs) := by
  induction h with
  | nil => exact .nil
  | emit _ _ ih =>
    obtain ⟨hi, hrest⟩ := List.forall_mem_cons.mp hsound
    rw [loadMarks_plain (not_isLoad_of_isSound hi)]
    exact ih hrest
  | frame _ _ ih =>
    obtain ⟨hi, hrest⟩ := List.forall_mem_cons.mp hsound
    rw [loadMarks_plain (not_isLoad_of_isSound hi)]
    exact ih hrest
  | call _ ih | undeclared _ ih => exact ih (List.forall_mem_cons.mp hsound).2
  | settle _ ih => exact ih (List.forall_mem_cons.mp hsound).2
  | staticAddress _ ih => exact .cons rfl (ih (List.forall_mem_cons.mp hsound).2)
  | «when» _ _ _ _ ihbody ih =>
    obtain ⟨hbody, hrest⟩ := List.forall_mem_append.mp hsound
    rw [loadMarks_plain rfl, loadMarks_append, staticOffsets, leaves_cons, List.filterMap_append]
    exact List.rel_append (ihbody hbody) (ih hrest)
  | choose _ _ _ _ _ _ _ _ ihyes ihno ih =>
    obtain ⟨hboth, hrest⟩ := List.forall_mem_append.mp hsound
    obtain ⟨hyes, hno⟩ := List.forall_mem_append.mp hboth
    rw [loadMarks_plain rfl, loadMarks_append, loadMarks_plain rfl, loadMarks_append, staticOffsets,
      leaves_cons, Step.leaves, List.filterMap_append, List.filterMap_append, List.append_assoc]
    exact List.rel_append (ihyes hyes) (List.rel_append (ihno hno) (ih hrest))
  | loop _ _ _ _ _ aimed _ _ _ ihcond ihbody ih =>
    obtain ⟨hboth, hrest⟩ := List.forall_mem_append.mp hsound
    obtain ⟨hcond, hbody⟩ := List.forall_mem_append.mp hboth
    rw [loadMarks_append, loadMarks_plain rfl, loadMarks_append,
      loadMarks_plain (not_isLoad_of_jmpFitted aimed), staticOffsets, leaves_cons, Step.leaves,
      List.filterMap_append, List.filterMap_append, List.append_assoc]
    exact List.rel_append (ihcond hcond) (List.rel_append (ihbody hbody) (ih hrest))

/-- Assembled instructions have their own bytes. -/
theorem Assembled.encodes (h : Assembled o xs ms) :
    ∀ m ∈ ms, m.entry.instruction.encode = .ok m.entry.bytes := by
  induction h with
  | nil => exact fun m hm ↦ (List.not_mem_nil hm).elim
  | emit encoded _ ih => exact List.forall_mem_cons.mpr ⟨encoded, ih⟩
  | frame encoded _ ih => exact List.forall_mem_cons.mpr ⟨encoded, ih⟩
  | call _ ih => exact List.forall_mem_cons.mpr ⟨rfl, ih⟩
  | staticAddress _ ih => exact List.forall_mem_cons.mpr ⟨rfl, ih⟩
  | undeclared _ ih => exact ih
  | settle _ ih => exact ih
  | «when» encoded _ _ _ ihbody ih =>
    exact List.forall_mem_cons.mpr ⟨encoded, List.forall_mem_append.mpr ⟨ihbody, ih⟩⟩
  | choose encoded _ encoded' _ _ _ _ _ ihyes ihno ih =>
    exact List.forall_mem_cons.mpr ⟨encoded, List.forall_mem_append.mpr ⟨ihyes,
      List.forall_mem_cons.mpr ⟨encoded', List.forall_mem_append.mpr ⟨ihno, ih⟩⟩⟩⟩
  | loop _ _ encoded _ _ _ encoded' _ _ ihcond ihbody ih =>
    exact List.forall_mem_append.mpr ⟨ihcond, List.forall_mem_cons.mpr ⟨encoded,
      List.forall_mem_append.mpr ⟨ihbody, List.forall_mem_cons.mpr ⟨encoded', ih⟩⟩⟩⟩

/-- Instructions that lie one right after the other with their own bytes are in order. -/
theorem Laid.inOrder (h : Laid o ms)
    (hbytes : ∀ m ∈ ms, m.entry.instruction.encode = .ok m.entry.bytes) :
    InOrder o (ms.map Marked.entry) := by
  induction ms generalizing o with
  | nil => trivial
  | cons m ms ih =>
    obtain ⟨hm, hms⟩ := List.forall_mem_cons.mp hbytes
    exact ⟨h.1, hm, ih h.2.2 hms⟩

end Assembled

namespace Linked

variable {p : Program} {entry : Routine} {code : Code} {base : UInt64} {parts : List Part}

/-- The bytes of finished code are as many as its size says. -/
theorem length_bytes (h : Linked code base parts) :
    code.stream.bytes.length = code.stream.size := by
  rw [h.size, CodeStream.bytes, h.entries, List.length_flatMap, List.map_map]
  rfl

/-- The instructions of finished code are in order. -/
theorem inOrder (h : Linked code base parts) : InOrder 0 code.stream.entries.toList := by
  rw [h.entries]
  refine h.contiguous.laid.inOrder fun m hm ↦ ?_
  obtain ⟨q, -, hm⟩ := List.mem_flatMap.mp hm
  exact q.assembled.encodes m hm

/-- A sweep over the bytes of code finds its instructions. -/
theorem sweep_bytes (h : Linked code base parts) :
    sweep 0 code.stream.bytes = some code.stream.entries.toList :=
  h.inOrder.sweep_bytes

private theorem purposes (hsources : sources parts = routineSteps p entry) :
    List.Forall₂ (fun m f ↦ m.purpose = .static (fieldOffset p f)) (loadMarks (allMarks parts))
      (Source.programStatics p) := by
  have hpassed := passed_sources parts
  rw [hsources] at hpassed
  have hparts : ∀ q ∈ parts, List.Forall₂ (fun m offset ↦ m.purpose = .static offset)
      (loadMarks q.marks) (staticOffsets q.steps) := by
    intro q hq
    have hsource : (q.name, q.steps) ∈ routineSteps p entry :=
      hsources ▸ List.mem_map_of_mem hq
    exact q.assembled.loads (sound_routineSteps hsource)
  have hoffsets : (Source.programStatics p).map (fieldOffset p) =
      parts.flatMap fun q ↦ staticOffsets q.steps := by
    rw [← staticOffsets_routineSteps hpassed, ← hsources, sources, List.flatMap_map]
  have hmarks : loadMarks (allMarks parts) = parts.flatMap fun q ↦ loadMarks q.marks :=
    List.filter_flatMap
  have hall : List.Forall₂ (fun m offset ↦ m.purpose = .static offset) (loadMarks (allMarks parts))
      ((Source.programStatics p).map (fieldOffset p)) := by
    rw [hoffsets, hmarks]
    exact List.rel_flatMap (List.forall₂_same.mpr hparts) fun _ _ h ↦ h
  rwa [List.forall₂_map_right_iff] at hall

/-- Code loads the address of a static field for each reference to it. -/
theorem loads (h : Linked code base parts) (hsources : sources parts = routineSteps p entry) :
    List.Forall₂
      (fun e f ↦ e.instruction = .movAbs .rax (base + UInt64.ofInt (fieldOffset p f).toInt))
      (code.stream.entries.toList.filter (·.instruction.isLoad)) (Source.programStatics p) := by
  have haimed : ∀ m ∈ loadMarks (allMarks parts), ∀ offset, m.purpose = .static offset →
      m.entry.instruction = .movAbs .rax (base + UInt64.ofInt offset.toInt) := by
    intro m hm offset hpurpose
    obtain ⟨k, q, hk, hm⟩ := exists_part_of_mem (List.mem_of_mem_filter hm)
    have haimed := h.aimed k q hk m hm
    rw [Aimed, hpurpose] at haimed
    rw [haimed]
    rfl
  have hentries : code.stream.entries.toList.filter (·.instruction.isLoad) =
      (loadMarks (allMarks parts)).map Marked.entry := by
    rw [h.entries, List.filter_map]
    rfl
  rw [hentries, List.forall₂_map_left_iff]
  refine ((List.forall₂_and_left _ _).mpr ⟨haimed, purposes hsources⟩).imp ?_
  rintro m f ⟨hm, hpurpose⟩
  exact hm _ hpurpose

end Linked

end NativeBackend
