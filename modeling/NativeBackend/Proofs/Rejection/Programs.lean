import NativeBackend.Proofs.Rejection.Faults

/-!
# Why generation stops

The reasons that make the assembly of a whole program stop, said about its routines in
the order of their code: a step refuses to be passed, or a branch does not reach when
all routines lie where they were planned. A call that waits for its routine is aimed at
the one that the finished program aims it at.
-/

namespace NativeBackend

open Machine NativeBackend.Tree

/-- Every branch of routines that are put one right after the other can be written. -/
def BranchesFit (sources : List (String × List Step)) : Prop :=
  ∀ k name xs, sources[k]? = some (name, xs) →
    ∀ b ∈ branchSites (sourcesSize (sources.take k)) xs,
      b.Fits (resolve? (plannedStarts 0 sources) k)

/-- Why the assembly of routines stops. -/
inductive ProgramCause (sources : List (String × List Step)) (fault : Fault) : Prop
  | depth (h : fault.isDepth = true)
  | refusal (source : String × List Step) (hs : source ∈ sources)
      (h : .refuse fault ∈ leaves source.2)
  | distance (h : fault.isBranch = true) (unfit : ¬BranchesFit sources)

/-- A routine that a name leads to stays the one when more routines are there. -/
theorem resolve?_append_of_some {rs rs' : List (String × Nat)} {k target : Nat} {name : String}
    (hk : k < rs.length) (h : resolve? rs k name = some target) :
    resolve? (rs ++ rs') k name = some target := by
  rw [resolve?, List.take_append_of_le_length hk, List.drop_append_of_le_length hk,
    List.lookup_append, ← Option.or_assoc]
  rw [resolve?] at h
  rw [h, Option.some_or]

private theorem BranchesFit.of_append {before after : List (String × List Step)}
    (h : BranchesFit (before ++ after)) : BranchesFit before := by
  intro k name xs hk b hb target htarget
  have hlt : k < before.length := (List.getElem?_eq_some_iff.mp hk).1
  apply h k name xs (by rw [List.getElem?_append_left hlt, hk]) b
  · rwa [List.take_append_of_le_length hlt.le]
  · cases hgoal : b.goal with
    | offset t => rwa [hgoal] at htarget
    | routine callee =>
      rw [hgoal] at htarget
      rw [plannedStarts_append]
      exact resolve?_append_of_some (by rwa [length_plannedStarts]) htarget

private theorem ProgramCause.append {before : List (String × List Step)} {fault : Fault}
    (h : ProgramCause before fault) (after : List (String × List Step)) :
    ProgramCause (before ++ after) fault := by
  cases h with
  | depth h => exact .depth h
  | refusal source hs h => exact .refusal source (List.mem_append_left _ hs) h
  | distance h unfit => exact .distance h fun hfit ↦ unfit hfit.of_append

namespace Assemble

variable {a b : Assembly}

/-- A call stands at a site, aimed or not. -/
def HoldsCall (a : Assembly) (site : Site) : Prop :=
  ∃ o d, a.stream.get? site.index = some (callAt o d)

private theorem HoldsCall.retarget {site site' : Site} {target : Nat} {u : Unit}
    (h : HoldsCall a site)
    (h' : HoldsCall a site') (hr : Runs (Assemble.retarget site target) a u b) :
    HoldsCall b site' := by
  obtain ⟨o, d, hsite⟩ := h
  obtain ⟨e, i, stream, log, he, hi, hpatch, rfl⟩ := runs_retarget hr
  obtain ⟨-, -, bs, hbs, -, hget⟩ := get?_of_patch he hpatch
  cases hsite.symm.trans he
  by_cases hk : site'.index = site.index
  · obtain ⟨d', -, rfl⟩ := callTo_eq_ok hi
    cases hbs
    exact ⟨o, d', (hget _).trans (if_pos hk)⟩
  · obtain ⟨o', d', hsite'⟩ := h'
    exact ⟨o', d', ((hget _).trans (if_neg hk)).trans hsite'⟩

/-- Aiming calls stops only if one does not reach. -/
theorem blames_retargetAll {target : Nat} {sites : List Site}
    (h : ∀ site ∈ sites, HoldsCall a site) :
    Blames (retargetAll target sites) a fun fault ↦ fault.isBranch = true ∧
      ∃ site ∈ sites, ¬Spans site.origin target Instruction.callLength := by
  induction sites generalizing a with
  | nil => exact .pure
  | cons site sites ih =>
    obtain ⟨hsite, hsites⟩ := List.forall_mem_cons.mp h
    apply Blames.bind
    · obtain ⟨o, d, he⟩ := hsite
      exact (blames_retarget he rfl).mono fun fault hcause ↦ ⟨hcause.1, site, by simp, hcause.2⟩
    · intro _ b hr
      refine (ih fun s hs ↦ hsite.retarget (hsites s hs) hr).mono ?_
      rintro fault ⟨hbranch, s, hs, hfar⟩
      exact ⟨hbranch, s, by simp [hs], hfar⟩

private theorem blames_reportAll (groups : List (String × List Site)) {cause : Fault → Prop} :
    Blames (reportAll groups) a cause := by
  induction groups generalizing a with
  | nil => exact .pure
  | cons g groups ih => exact (Blames.modify_bind .modify).bind fun _ _ _ ↦ ih

end Assemble

/-- A call that waits for a routine is among the instructions. -/
theorem exists_mark_of_sitesOf {t : RoutineTable} {ms : List Marked} {name : String} {site : Site}
    (h : site ∈ PendingCalls.sitesOf ⟨waitingCalls t 0 ms⟩ name) :
    t.start? name = none ∧ ∃ m, ms[site.index]? = some m ∧ m.entry.start = site.origin ∧
      m.purpose = .call name := by
  simp only [PendingCalls.sitesOf, List.mem_map, List.mem_filter, waitingCalls,
    List.mem_filterMap] at h
  obtain ⟨⟨name', site'⟩, ⟨⟨⟨m, k⟩, hmem, hwaiting⟩, hname⟩, rfl⟩ := h
  obtain rfl : name' = name := beq_iff_eq.mp hname
  simp only [Marked.waiting?] at hwaiting
  split at hwaiting
  · next hpurpose =>
    split at hwaiting
    · cases hwaiting
    · next hstart =>
      cases hwaiting
      exact ⟨Option.not_isSome_iff_eq_none.mp hstart, m, List.mk_mem_zipIdx_iff_getElem?.mp hmem,
        rfl, hpurpose⟩
  · cases hwaiting

namespace Built

variable {a b : Assembly} {parts : List Part}

/-- Where routines lie when one more is to come. -/
theorem plannedStarts_eq (h : Built a parts) (name : String) (xs : List Step) :
    plannedStarts 0 (sources parts ++ [(name, xs)]) = starts parts ++ [(name, a.stream.size)] := by
  rw [plannedStarts_append, ← h.contiguous.starts_eq, Nat.zero_add, ← extent_allMarks, ← h.size]
  rfl

/-- A call that waits belongs to a routine that is out. -/
theorem exists_call_of_waiting (h : Built a parts) {name : String} {site : Site}
    (hsite : site ∈ a.pending.sitesOf name) :
    a.routines.start? name = none ∧ ∃ (k : Nat) (q : Part) (m : Marked), parts[k]? = some q ∧
      m ∈ q.marks ∧ m.purpose = .call name ∧ m.entry.start = site.origin ∧
        a.stream.get? site.index = some m.entry := by
  have hwaiting : a.pending = ⟨waitingCalls a.routines 0 (allMarks parts)⟩ := by
    rw [← h.pending]
  rw [hwaiting] at hsite
  obtain ⟨hnone, m, hm, horigin, hpurpose⟩ := exists_mark_of_sitesOf hsite
  obtain ⟨q, hq, hmq⟩ := List.mem_flatMap.mp (List.mem_of_getElem? hm)
  obtain ⟨k, hk⟩ := List.mem_iff_getElem?.mp hq
  refine ⟨hnone, k, q, m, hk, hmq, hpurpose, horigin, ?_⟩
  rw [CodeStream.get?, ← Array.getElem?_toList, h.entries, List.getElem?_map, hm]
  rfl

/-- A call of a routine that is to start next reaches it, if all branches can be written. -/
theorem spans_next (h : Built a parts) {name : String} {xs : List Step}
    (hfit : BranchesFit (sources parts ++ [(name, xs)])) (hnone : a.routines.start? name = none)
    {k : Nat} {q : Part} (hq : parts[k]? = some q) {m : Marked} (hm : m ∈ q.marks)
    (hpurpose : m.purpose = .call name) :
    Spans m.entry.start a.stream.size Instruction.callLength := by
  have hlt : k < (sources parts).length := by
    rw [sources, List.length_map]
    exact (List.getElem?_eq_some_iff.mp hq).1
  have hsource : (sources parts ++ [(name, xs)])[k]? = some (q.name, q.steps) := by
    rw [List.getElem?_append_left hlt, sources, List.getElem?_map, hq]
    rfl
  have hb := q.assembled.sited.mem_of_call hm hpurpose
  rw [h.contiguous.start_eq hq, ← List.take_append_of_le_length hlt.le] at hb
  have hname : name ∉ (starts parts).map Prod.fst := by
    rw [← List.mem_reverse, ← List.map_reverse, ← lookup_eq_none_iff, ← h.start?_eq]
    exact hnone
  apply hfit k q.name q.steps hsource _ hb
  change resolve? _ k name = _
  rw [h.plannedStarts_eq, resolve?_append (by simpa [sources, starts] using hlt),
    resolve?_eq_none_iff.mpr hname, if_pos rfl]
  rfl

/-- The start of a routine stops only if a call that waited for it does not reach. -/
theorem blames_startRoutine (h : Built a parts) (name : String) (xs : List Step) :
    Blames (Assemble.startRoutine name) a fun fault ↦
      fault.isBranch = true ∧ ¬BranchesFit (sources parts ++ [(name, xs)]) := by
  apply Blames.position_bind
  apply Blames.get_bind
  apply Blames.modify_bind
  refine Blames.bind ?_ fun _ _ _ ↦ .modify_bind (.modify_bind .pure)
  have hholds : ∀ site ∈ a.pending.sitesOf name,
      Assemble.HoldsCall { a with pending := a.pending.without name } site := by
    intro site hsite
    obtain ⟨-, k, q, m, -, hm, hpurpose, -, hget⟩ := h.exists_call_of_waiting hsite
    cases q.assembled.shape m hm with
    | call origin d _ => exact ⟨origin, d, hget⟩
    | plain | static => cases hpurpose
  refine (Assemble.blames_retargetAll hholds).mono ?_
  rintro fault ⟨hbranch, site, hsite, hfar⟩
  refine ⟨hbranch, fun hfit ↦ hfar ?_⟩
  obtain ⟨hnone, k, q, m, hq, hm, hpurpose, horigin, -⟩ := h.exists_call_of_waiting hsite
  rw [← horigin]
  exact h.spans_next hfit hnone hq hm hpurpose

/-- Why the steps of the routine that started last make assembly stop. -/
theorem blames_steps {name : String} {start : Nat} {xs : List Step}
    (h : Built a (parts ++ [⟨name, [], start, [], .nil⟩])) (hstart : start = a.stream.size)
    (hsound : Each Step.isSound xs) :
    Blames (Assemble.steps xs) a (ProgramCause (sources parts ++ [(name, xs)])) := by
  refine (Assemble.blames_steps xs hsound).mono fun fault hcause ↦ ?_
  cases hcause with
  | depth h => exact .depth h
  | refusal h => exact .refusal (name, xs) (by simp) h
  | distance hbranch b hb unfit =>
    refine .distance hbranch fun hfit ↦ unfit ?_
    have hsize : a.stream.size = sourcesSize (sources parts) := by
      rw [h.size, ← extent_allMarks, allMarks_append, List.append_nil]
    have hlast : (sources parts ++ [(name, xs)])[(sources parts).length]? = some (name, xs) := by
      simp
    have htake : (sources parts ++ [(name, xs)]).take (sources parts).length = sources parts := by
      simp
    have hfits := hfit _ name xs hlast b (by rwa [htake, ← hsize])
    have hplan : plannedStarts 0 (sources parts ++ [(name, xs)]) =
        starts parts ++ [(name, start)] := by
      have hcontiguous := (contiguous_append.mp h.contiguous).1
      rw [plannedStarts_append, ← hcontiguous.starts_eq, Nat.zero_add, ← hsize, ← hstart]
      rfl
    have hroutines : a.routines.start? =
        resolve? (plannedStarts 0 (sources parts ++ [(name, xs)])) (sources parts).length := by
      funext callee
      have hlength : (sources parts).length = (starts parts).length := by simp [sources, starts]
      rw [h.start?_eq, starts_append, hplan, hlength, resolve?_last]
    rwa [hroutines]

/-- Why the routines that every program carries make assembly stop. -/
theorem blames_builtins (h : Built a parts) (rs : List (String × List Instruction))
    (hsound : ∀ r ∈ rs, Each Step.isSound (r.2.map .frame)) :
    Blames (Assemble.builtins rs) a
      (ProgramCause (sources parts ++ rs.map fun r ↦ (r.1, r.2.map .frame))) := by
  induction rs generalizing a parts with
  | nil => exact .pure
  | cons r rs ih =>
    obtain ⟨name, body⟩ := r
    obtain ⟨hbody, hrs⟩ := List.forall_mem_cons.mp hsound
    rw [List.map_cons, List.append_cons]
    apply Blames.bind
    · refine ((h.blames_startRoutine name (body.map .frame)).discard).mono fun fault hcause ↦ ?_
      exact ProgramCause.append (.distance hcause.1 hcause.2) _
    intro _ b hstart
    obtain ⟨start, hstart⟩ := Runs.discard_iff.mp hstart
    obtain ⟨hs, f, hf, h₁⟩ := h.startRoutine hstart
    have hsteps := h₁.blames_steps hs hbody
    rw [sources_relink, ← appendAll_eq_steps] at hsteps
    refine (hsteps.mono fun fault hcause ↦ hcause.append _).bind fun _ c hrun ↦ ?_
    rw [appendAll_eq_steps] at hrun
    obtain ⟨q, rfl, hq, h₂⟩ := h₁.steps hs hrun
    have hrest := ih h₂ hrs
    rwa [sources, List.map_append, ← sources, sources_relink, List.map_singleton, hq] at hrest

/-- Why a routine of a program makes assembly stop. -/
theorem blames_routine (h : Built a parts) (p : Program) (isEntry : Bool) (r : Routine) :
    Blames (Assemble.routine p (.ofProgram p) isEntry r) a (ProgramCause
      (sources parts ++ [(r.name, lowerMethod ⟨p, .ofProgram p, isEntry⟩ r.method)])) := by
  let s : Surroundings := ⟨p, .ofProgram p, isEntry⟩
  let xs := lowerMethod s r.method
  apply Blames.bind
  · refine (h.blames_startRoutine r.name xs).mono ?_
    exact fun fault hcause ↦ .distance hcause.1 hcause.2
  intro start b hstart
  obtain ⟨hs, f, hf, h₁⟩ := h.startRoutine hstart
  have hsteps : ∀ entry, Blames (Assemble.steps xs) { b with entry, depth := .start }
      (ProgramCause (sources parts ++ [(r.name, xs)])) := by
    intro entry
    have hbuilt : Built { b with entry, depth := .start } _ := h₁.congr rfl rfl rfl rfl rfl
    have hcauses := hbuilt.blames_steps hs ((follows_lowerMethod s r.method).sound rfl)
    rwa [sources_relink] at hcauses
  cases isEntry with
  | true =>
    exact .modify_bind (.modify_bind ((hsteps _).bind fun _ _ _ ↦ .get_bind .modify))
  | false => exact .modify_bind ((hsteps _).bind fun _ _ _ ↦ .get_bind .modify)

/-- Why the routines of a program make assembly stop. -/
theorem blames_routines (h : Built a parts) (p : Program) (entry : Routine) (rs : List Routine) :
    Blames (Assemble.routines p (.ofProgram p) entry rs) a (ProgramCause (sources parts ++
      rs.map fun r ↦
        (r.name, lowerMethod ⟨p, .ofProgram p, Assemble.samePlace r entry⟩ r.method))) := by
  induction rs generalizing a parts with
  | nil => exact .pure
  | cons r rs ih =>
    rw [List.map_cons, List.append_cons]
    refine ((h.blames_routine p _ r).mono fun fault hcause ↦ hcause.append _).bind
      fun _ b hr ↦ ?_
    obtain ⟨parts', h', hsources⟩ := h.routine hr
    have hrest := ih h'
    rwa [hsources] at hrest

/-- The last things never make assembly stop after sound steps. -/
theorem blames_complete (h : Built a parts)
    (hsound : ∀ source ∈ sources parts, Each Step.isSound source.2) (l : FieldLayout) (o : Options)
    {cause : Fault → Prop} : Blames (Assemble.complete l o) a cause := by
  apply Blames.get_bind
  apply (Assemble.blames_reportAll _).bind
  intro _ b hreports
  obtain ⟨log, hb⟩ := Assemble.runs_reportAll hreports
  apply Blames.position_bind
  apply Blames.get_bind
  refine Blames.bind ?_ fun _ _ _ ↦ .get_bind (.modify_bind .pure)
  have hloads : b.staticLoads = a.staticLoads := by rw [hb]
  refine .of_runs (h.fills (by rw [hb]) hloads ?_ _)
  rw [hloads]
  exact h.nonneg_of_staticLoads hsound

end Built

/-- Why a program makes assembly stop. -/
theorem blames_program (p : Program) (o : Options) (entry : Routine) :
    Blames (Assemble.program p o entry) .empty (ProgramCause (routineSteps p entry)) := by
  have hbuiltins : ∀ b ∈ Builtin.routines, Each Step.isSound (b.2.map .frame) := by
    intro b hb
    have hmem : (b.1, b.2.map Step.frame) ∈ routineSteps p entry :=
      List.mem_append_left _ (List.mem_map_of_mem hb)
    exact sound_routineSteps hmem
  refine ((Built.empty.blames_builtins _ hbuiltins).mono fun fault hcause ↦
    hcause.append _).bind fun _ b hr ↦ ?_
  obtain ⟨parts₁, h₁, hsources₁⟩ := Built.empty.builtins hr
  have hroutines := h₁.blames_routines p entry p.routines
  rw [hsources₁] at hroutines
  refine hroutines.bind fun _ c hr' ↦ ?_
  obtain ⟨parts₂, h₂, hsources₂⟩ := h₁.routines hr'
  rw [hsources₁] at hsources₂
  exact h₂.blames_complete (fun _ h ↦ sound_routineSteps (hsources₂ ▸ h)) _ _

end NativeBackend
