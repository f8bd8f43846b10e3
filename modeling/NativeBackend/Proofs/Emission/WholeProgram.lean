import NativeBackend.Proofs.Emission.Linking

/-!
# Code of whole programs

The code of a program consists of its routines: the built-in ones and then every method
in declaration order, each assembled from its steps right after the one before. In the
final code every call is aimed as far as the names allow, every static address is
filled in, and nothing else is changed after its routine is out.
-/

namespace NativeBackend

open Machine NativeBackend.Tree

/-- The routines of a program with its entry, in the order of their code. -/
def routineSteps (p : Program) (entry : Routine) : List (String × List Step) :=
  Builtin.routines.map (fun b ↦ (b.1, b.2.map .frame)) ++
    p.routines.map fun r ↦
      (r.name, lowerMethod ⟨p, .ofProgram p, Assemble.samePlace r entry⟩ r.method)

/-- Code consists of routines. -/
structure Linked (code : Code) (base : UInt64) (parts : List Part) : Prop where
  entries : code.stream.entries.toList = (allMarks parts).map Marked.entry
  size : code.stream.size = extent (allMarks parts)
  started : code.routines.started = (starts parts).reverse
  contiguous : Contiguous 0 parts
  aimed : ∀ k q, parts[k]? = some q → ∀ m ∈ q.marks,
    Aimed (starts parts) (fun offset ↦ base + UInt64.ofInt offset.toInt) k m

/-- Appending instructions is the assembly of steps of a frame. -/
theorem appendAll_eq_steps (is : List Instruction) :
    Assemble.appendAll is = Assemble.steps (is.map .frame) := by
  induction is with
  | nil => rfl
  | cons i is ih =>
    rw [Assemble.appendAll, ih]
    rfl

/-- A call stays aimed and an address is there when the addresses are filled in. -/
theorem Aimed.filled {rs : List (String × Nat)} {k : Nat} {m : Marked} {base : UInt64}
    (h : Aimed rs (fun _ ↦ 0) k m) :
    Aimed rs (fun offset ↦ base + UInt64.ofInt offset.toInt) k (m.filled base) := by
  rw [Aimed] at h ⊢
  rw [Marked.purpose_filled, Marked.filled]
  cases hp : m.purpose with
  | plain => trivial
  | call name =>
    rw [hp] at h
    exact h
  | static offset => rfl

namespace Built

variable {a b : Assembly} {parts : List Part}

/-- No routine is out at first. -/
theorem empty : Built .empty [] :=
  ⟨rfl, rfl, rfl, trivial, rfl, rfl, (fun _ _ h ↦ nomatch h), rfl⟩

/-- Assembling built-in routines adds them. -/
theorem builtins {rs : List (String × List Instruction)} {u : Unit} (h : Built a parts)
    (hr : Runs (Assemble.builtins rs) a u b) :
    ∃ parts', Built b parts' ∧
      sources parts' = sources parts ++ rs.map fun b ↦ (b.1, b.2.map .frame) := by
  induction rs generalizing a parts with
  | nil =>
    obtain ⟨-, rfl⟩ := Runs.pure_iff.mp hr
    exact ⟨parts, h, (List.append_nil _).symm⟩
  | cons r rs ih =>
    obtain ⟨name, body⟩ := r
    simp only [Assemble.builtins, appendAll_eq_steps, Runs.bind_iff, Runs.discard_iff] at hr
    obtain ⟨_, c, ⟨start, hstart⟩, _, d, hbody, hrest⟩ := hr
    obtain ⟨hs, f, hf, h₁⟩ := h.startRoutine hstart
    obtain ⟨q, rfl, hq, h₂⟩ := h₁.steps hs hbody
    obtain ⟨parts₂, h₃, hsources'⟩ := ih h₂ hrest
    refine ⟨parts₂, h₃, ?_⟩
    rw [hsources', sources, List.map_append, ← sources, sources_relink, List.append_assoc]
    simp [hq]

/-- Assembling a routine adds it. -/
theorem routine {p : Program} {l : FieldLayout} {isEntry : Bool} {r : Routine} {u : Unit}
    (h : Built a parts) (hr : Runs (Assemble.routine p l isEntry r) a u b) :
    ∃ parts', Built b parts' ∧
      sources parts' = sources parts ++ [(r.name, lowerMethod ⟨p, l, isEntry⟩ r.method)] := by
  obtain ⟨start, c, d, log, hstart, hsteps, rfl⟩ := Assemble.runs_routine hr
  obtain ⟨hs, f, hf, h₁⟩ := h.startRoutine hstart
  let opened : Assembly :=
    { c with entry := if isEntry then some start else c.entry, depth := .start }
  have h₁' : Built opened (parts.map (Part.relink f hf) ++ [⟨r.name, [], start, [], .nil⟩]) :=
    h₁.congr rfl rfl rfl rfl rfl
  obtain ⟨q, hname, hq, h₂⟩ := h₁'.steps hs hsteps
  refine ⟨parts.map (Part.relink f hf) ++ [q], h₂.congr rfl rfl rfl rfl rfl, ?_⟩
  rw [sources, List.map_append, ← sources, sources_relink, List.map_singleton, hname, hq]

/-- Assembling the routines of a program adds them in order. -/
theorem routines {p : Program} {l : FieldLayout} {entry : Routine} {rs : List Routine} {u : Unit}
    (h : Built a parts) (hr : Runs (Assemble.routines p l entry rs) a u b) :
    ∃ parts', Built b parts' ∧
      sources parts' = sources parts ++
        rs.map fun r ↦ (r.name, lowerMethod ⟨p, l, Assemble.samePlace r entry⟩ r.method) := by
  induction rs generalizing a parts with
  | nil =>
    obtain ⟨-, rfl⟩ := Runs.pure_iff.mp hr
    exact ⟨parts, h, (List.append_nil _).symm⟩
  | cons r rs ih =>
    obtain ⟨_, c, hfirst, hrest⟩ := Runs.bind_iff.mp hr
    obtain ⟨parts₁, h₁, hsources⟩ := h.routine hfirst
    obtain ⟨parts₂, h₂, hsources'⟩ := ih h₁ hrest
    refine ⟨parts₂, h₂, ?_⟩
    rw [hsources', hsources, List.append_assoc]
    rfl

/-- Filling in the static addresses changes the loads of these. -/
theorem fills (h : Built a parts) {b : Assembly} (hs : b.stream = a.stream)
    (hl : b.staticLoads = a.staticLoads) (hoffsets : ∀ load ∈ b.staticLoads.toList, 0 ≤ load.offset)
    (base : UInt64) :
    Runs (Assemble.fillStatics base b.staticLoads.toList) b ()
      { b with stream :=
        ⟨(((allMarks parts).map (Marked.filled base)).map Marked.entry).toArray,
          b.stream.size⟩ } := by
  have hloads : ∀ m ∈ allMarks parts, m.LoadsStatic := by
    intro m hm offset hp
    obtain ⟨k, q, hk, hm⟩ := exists_part_of_mem hm
    have haimed := h.aimed k q hk m hm
    rw [Aimed, hp] at haimed
    exact ⟨0, haimed⟩
  have hentries : b.stream.entries.toList = [] ++ (allMarks parts).map Marked.entry := by
    rw [hs]
    exact h.entries
  have hsites : b.staticLoads.toList = staticLoads 0 (allMarks parts) := by
    rw [hl]
    exact h.loads
  rw [hsites] at hoffsets ⊢
  exact runs_fillStatics base [] (allMarks parts) hloads hoffsets hentries

/-- The state when the static addresses are filled in. -/
theorem filled (h : Built a parts) {b c : Assembly} {base : UInt64} {u : Unit}
    (hs : b.stream = a.stream) (hl : b.staticLoads = a.staticLoads)
    (hfill : Runs (Assemble.fillStatics base b.staticLoads.toList) b u c) :
    c = { b with stream :=
      ⟨(((allMarks parts).map (Marked.filled base)).map Marked.entry).toArray, b.stream.size⟩ } :=
  (hfill.unique (h.fills hs hl (nonneg_of_fillStatics hfill) base)).2

/-- Code is complete once its static addresses are filled in. -/
theorem linked (h : Built a parts) {b c : Assembly} {base : UInt64} {u : Unit}
    (hs : b.stream = a.stream) (hr : b.routines = a.routines) (hl : b.staticLoads = a.staticLoads)
    (hfill : Runs (Assemble.fillStatics base b.staticLoads.toList) b u c) (staticSize : Nat) :
    ∃ parts', sources parts' = sources parts ∧
      Linked ⟨c.stream, c.entry, staticSize, c.routines⟩ base parts' ∧
      waitingCalls c.routines 0 (allMarks parts') = a.pending.waiting ∧
      c = { b with stream := ⟨c.stream.entries, a.stream.size⟩ } := by
  have hc := h.filled hs hl hfill
  subst hc
  have hf := relinks_filled base
  refine ⟨parts.map (Part.relink _ hf), sources_relink hf parts,
    ⟨?_, ?_, ?_, h.contiguous.relink hf, ?_⟩, ?_, by rw [hs]⟩
  · rw [allMarks_relink]
  · rw [extent_relink, ← h.size, ← hs]
  · rw [starts_relink, ← h.started, ← hr]
  · intro k q hq m hm
    rw [List.getElem?_map] at hq
    obtain ⟨q', hq', rfl⟩ := Option.map_eq_some_iff.mp hq
    obtain ⟨m', hm', rfl⟩ := List.mem_map.mp hm
    rw [starts_relink]
    exact (h.aimed k q' hq' m' hm').filled
  · rw [allMarks_relink, waitingCalls_map (Marked.purpose_filled base) (Marked.start_filled base),
      h.pending, ← hr]

end Built

namespace Assemble

/-- The code of a program before the last things are done. -/
def draft (p : Program) (entry : Routine) : Assemble Unit := do
  builtins Builtin.routines
  routines p (.ofProgram p) entry p.routines

/-- A program is its draft with the last things done. -/
theorem program_eq_draft (p : Program) (o : Options) (entry : Routine) :
    program p o entry = draft p entry >>= fun _ ↦ complete (.ofProgram p) o := by
  rw [draft, bind_assoc]
  rfl

end Assemble

/-- A draft consists of the routines of the program. -/
theorem exists_built {p : Program} {entry : Routine} {u : Unit} {a : Assembly}
    (h : Runs (Assemble.draft p entry) .empty u a) :
    ∃ parts, Built a parts ∧ sources parts = routineSteps p entry := by
  obtain ⟨_, b, hbuiltins, hroutines⟩ := Runs.bind_iff.mp h
  obtain ⟨parts₁, h₁, hsources₁⟩ := Built.empty.builtins hbuiltins
  obtain ⟨parts₂, h₂, hsources₂⟩ := h₁.routines hroutines
  refine ⟨parts₂, h₂, ?_⟩
  rw [hsources₂, hsources₁]
  rfl

/-- Code that is generated comes from a run of assembly. -/
theorem runs_of_generate {p : Program} {o : Options} {entry : Routine} {code : Code}
    (hentry : entryCandidates p o = [entry]) (hcode : (generate p o).result = .ok code) :
    ∃ a, Runs (Assemble.program p o entry) .empty code a ∧
      (generate p o).reporter = a.reporter := by
  simp only [generate, hentry] at hcode ⊢
  exact ⟨_, Prod.ext hcode rfl, rfl⟩

/-- Generated code consists of the routines of the program, and the reports are about the calls
that wait when all routines are out. -/
theorem exists_linked {p : Program} {o : Options} {entry : Routine} {code : Code}
    (hentry : entryCandidates p o = [entry]) (hcode : (generate p o).result = .ok code) :
    ∃ parts, sources parts = routineSteps p entry ∧
      Linked code (Image.codeAddress o.loadAddress (staticAreaOffset code.stream.size)) parts ∧
      (generate p o).reporter.diagnostics =
        (PendingCalls.groups ⟨waitingCalls code.routines 0 (allMarks parts)⟩).map fun g ↦
          .unresolvedCall g.1 g.2.length := by
  obtain ⟨a, hprogram, hreporter⟩ := runs_of_generate hentry hcode
  rw [Assemble.program_eq_draft] at hprogram
  obtain ⟨_, c, hdraft, hcomplete⟩ := Runs.bind_iff.mp hprogram
  obtain ⟨drafts, hbuilt, hdrafts⟩ := exists_built hdraft
  obtain ⟨reported, d, log, log', hreported, hfill, rfl, rfl⟩ := Assemble.runs_complete hcomplete
  have hstream : reported.stream = c.stream := by rw [hreported]
  obtain ⟨parts, hsources, hlinked, hwaiting, hd⟩ := hbuilt.linked hstream (by rw [hreported])
    (by rw [hreported]) hfill (FieldLayout.ofProgram p).staticSize
  have hsize : reported.stream.size = d.stream.size := by rw [hd, hstream]
  refine ⟨parts, ?_, hsize ▸ hlinked, ?_⟩
  · rw [hsources, hdrafts]
  · have hpending : c.pending = ⟨waitingCalls d.routines 0 (allMarks parts)⟩ := by
      rw [hwaiting]
    have hsame : d.reporter = reported.reporter := by rw [hd]
    have hgroups : reported.reporter.diagnostics =
        c.pending.groups.map fun g ↦ .unresolvedCall g.1 g.2.length := by
      rw [hreported, hbuilt.unreported]
      rfl
    rw [hreporter, ← hpending, ← hgroups, ← hsame]

end NativeBackend
