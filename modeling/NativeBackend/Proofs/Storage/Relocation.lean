import NativeBackend.Proofs.Emission.Stages
import NativeBackend.Proofs.Storage.Loads

/-!
# Relocated code

A program is generated twice, to be loaded at two addresses. Nothing but the addresses that
are filled in last depends on where code is loaded, and these are as far apart as the load
addresses. So both generations fail alike, or give code that differs in its loads of static
addresses only.
-/

namespace NativeBackend

open Machine NativeBackend.Tree

/-- An instruction of code that is loaded elsewhere, farther by a distance. -/
inductive Machine.Emitted.Relocated (distance : UInt64) : Emitted → Emitted → Prop
  | same {e : Emitted} (plain : e.instruction.isLoad = false) : Relocated distance e e
  | load {r : Register} {value : UInt64} {start : Nat} {bs bs' : List UInt8}
      (encoded : (Instruction.movAbs r value).encode = .ok bs)
      (encoded' : (Instruction.movAbs r (value + distance)).encode = .ok bs') :
      Relocated distance ⟨.movAbs r value, start, bs⟩ ⟨.movAbs r (value + distance), start, bs'⟩

/-- Code that is loaded elsewhere, farther by a distance: only the addresses that it loads differ,
and these by that distance. -/
structure Code.Relocated (distance : UInt64) (c c' : Code) : Prop where
  entry : c'.entry = c.entry
  staticSize : c'.staticSize = c.staticSize
  routines : c'.routines = c.routines
  size : c'.stream.size = c.stream.size
  length : c'.stream.length = c.stream.length
  entries : List.Forall₂ (Emitted.Relocated distance) c.stream.entries.toList
    c'.stream.entries.toList

/-- The generation of a program to be loaded elsewhere, farther by a distance. -/
structure Generation.Relocated (distance : UInt64) (g g' : Generation) : Prop where
  reporter : g'.reporter = g.reporter
  log : g'.log = g.log
  result : (∃ fault, g.result = .error fault ∧ g'.result = .error fault) ∨
    ∃ c c', g.result = .ok c ∧ g'.result = .ok c' ∧ Code.Relocated distance c c'

section Filled

variable {parts : List Part} {base base' : UInt64}

private theorem purpose_of_isLoad (hsound : ∀ source ∈ sources parts, Each Step.isSound source.2)
    {m : Marked} (hm : m ∈ allMarks parts) (hload : m.entry.instruction.isLoad = true) :
    ∃ offset, m.purpose = .static offset := by
  obtain ⟨q, hq, hm⟩ := List.mem_flatMap.mp hm
  have hloads := q.assembled.loads (hsound _ (List.mem_map_of_mem hq))
  have hmem : m ∈ loadMarks q.marks := List.mem_filter.mpr ⟨hm, hload⟩
  obtain ⟨k, hk, rfl⟩ := List.getElem_of_mem hmem
  exact ⟨_, hloads.get hk (hloads.length_eq ▸ hk)⟩

private theorem relocated_filled {m : Marked} (hshape : m.Shape)
    (hpurpose : m.entry.instruction.isLoad = true → ∃ offset, m.purpose = .static offset) :
    Emitted.Relocated (base' - base) (m.filled base).entry (m.filled base').entry := by
  cases hshape with
  | plain i o bs =>
    refine .same (Bool.eq_false_iff.mpr fun hload ↦ ?_)
    obtain ⟨offset, hoffset⟩ := hpurpose hload
    cases hoffset
  | call o d name => exact .same rfl
  | static o v offset =>
    have hdistance : base' + UInt64.ofInt offset.toInt =
        base + UInt64.ofInt offset.toInt + (base' - base) := by
      rw [UInt64.add_assoc, UInt64.add_comm (UInt64.ofInt _), ← UInt64.add_assoc,
        UInt64.add_comm base, UInt64.sub_add_cancel]
    change Emitted.Relocated _ (loadAt o _) (loadAt o (base' + _))
    rw [hdistance]
    exact .load rfl rfl

private theorem forall₂_filled (hsound : ∀ source ∈ sources parts, Each Step.isSound source.2) :
    List.Forall₂ (Emitted.Relocated (base' - base))
      (((allMarks parts).map (Marked.filled base)).map Marked.entry)
      (((allMarks parts).map (Marked.filled base')).map Marked.entry) := by
  simp only [List.map_map, List.forall₂_map_left_iff, List.forall₂_map_right_iff]
  refine List.forall₂_same.mpr fun m hm ↦ relocated_filled ?_ (purpose_of_isLoad hsound hm)
  obtain ⟨q, -, hm⟩ := List.mem_flatMap.mp hm
  exact q.assembled.shape m hm

end Filled

private theorem codeAddress_sub (load load' : UInt64) (offset : Nat) :
    Image.codeAddress load' offset - Image.codeAddress load offset = load' - load := by
  rw [Image.codeAddress, Image.codeAddress]
  grind

namespace Assemble

private theorem exists_runs_reportAll (groups : List (String × List Site)) (a : Assembly) :
    ∃ b, Runs (reportAll groups) a () b := by
  induction groups generalizing a with
  | nil => exact ⟨a, rfl⟩
  | cons g groups ih =>
    obtain ⟨b, hb⟩ := ih _
    exact ⟨b, hb⟩

private theorem runs_complete_of {a b c : Assembly} {l : FieldLayout} {o : Options}
    (hreport : Runs (reportAll a.pending.groups) a () b)
    (hfill : Runs (fillStatics (Image.codeAddress o.loadAddress (staticAreaOffset b.stream.size))
      b.staticLoads.toList) b () c) :
    Runs (complete l o) a ⟨c.stream, c.entry, l.staticSize, c.routines⟩
      { c with log :=
        c.log.push (.generated b.stream.size c.routines.size c.entry l.staticSize) } := by
  rw [complete, Runs.get_bind]
  refine Runs.bind_iff.mpr ⟨(), b, hreport, ?_⟩
  rw [position_bind, Runs.get_bind]
  refine Runs.bind_iff.mpr ⟨(), c, hfill, ?_⟩
  rw [Runs.get_bind]
  exact Runs.bind_iff.mpr ⟨(), _, Runs.modify_iff.mpr rfl, Runs.pure_iff.mpr ⟨rfl, rfl⟩⟩

end Assemble

namespace Built

variable {a : Assembly} {parts : List Part}

/-- What is done last, for two load addresses. -/
theorem relocated_complete (h : Built a parts)
    (hsound : ∀ source ∈ sources parts, Each Step.isSound source.2) (l : FieldLayout)
    (o : Options) (address : UInt64) :
    ∃ c c' b b', Runs (Assemble.complete l o) a c b ∧
      Runs (Assemble.complete l { o with loadAddress := address }) a c' b' ∧
      b'.reporter = b.reporter ∧ b'.log = b.log ∧
      Code.Relocated (address - o.loadAddress) c c' := by
  obtain ⟨b, hreport⟩ := Assemble.exists_runs_reportAll a.pending.groups a
  obtain ⟨log, hb⟩ := Assemble.runs_reportAll hreport
  have hloads : b.staticLoads = a.staticLoads := by rw [hb]
  have hfills := h.fills (by rw [hb]) hloads (hloads ▸ h.nonneg_of_staticLoads hsound)
  refine ⟨_, _, _, _, Assemble.runs_complete_of hreport (hfills _),
    Assemble.runs_complete_of hreport (hfills _), rfl, rfl, rfl, rfl, rfl, rfl, ?_, ?_⟩
  · simp [CodeStream.length]
  · rw [← codeAddress_sub _ _ (staticAreaOffset b.stream.size)]
    exact forall₂_filled hsound

end Built

/-- The load address decides the addresses that code loads and nothing else. -/
theorem generate_relocated (p : Program) (o : Options) (address : UInt64) :
    Generation.Relocated (address - o.loadAddress) (generate p o)
      (generate p { o with loadAddress := address }) := by
  have hcandidates : entryCandidates p { o with loadAddress := address } =
      entryCandidates p o := rfl
  unfold generate
  rw [hcandidates]
  split
  · next entry _ =>
    simp only [Assemble.program_eq_draft, Assemble.run_bind]
    cases hdraft : (Assemble.draft p entry).run.run .empty with
    | mk r a =>
    cases r with
    | error fault => exact ⟨rfl, rfl, .inl ⟨fault, rfl, rfl⟩⟩
    | ok u =>
      obtain ⟨parts, hbuilt, hsources⟩ := exists_built hdraft
      obtain ⟨c, c', b, b', hc, hc', hreporter, hlog, hrelocated⟩ :=
        hbuilt.relocated_complete (fun _ h ↦ sound_routineSteps (hsources ▸ h)) (.ofProgram p) o
          address
      rw [Runs] at hc hc'
      simp only [hc, hc']
      exact ⟨hreporter, congrArg Array.toList hlog, .inr ⟨c, c', rfl, rfl, hrelocated⟩⟩
  · exact ⟨rfl, rfl, .inr ⟨_, _, rfl, rfl, rfl, rfl, rfl, rfl, rfl, .nil⟩⟩

end NativeBackend
