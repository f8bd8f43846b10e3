import NativeBackend.Proofs.OperandStack.Discipline
import NativeBackend.Proofs.Rejection.Programs
import NativeBackend.Proofs.Rejection.Refusals

/-!
# Rejected trees

A program with one entry is rejected exactly if some use of its bodies is ill-formed, too
many words are taken off the stack at once, or a branch does not reach. In every other
case there is code.
-/

namespace NativeBackend

open Machine NativeBackend.Tree
open Source (IllFormed ExceedsWords)

/-- The branches of finished code could all be written. -/
theorem Linked.branchesFit {code : Code} {base : UInt64} {parts : List Part}
    (h : Linked code base parts) : BranchesFit (sources parts) := by
  intro k name xs hk b hb target htarget
  rw [sources, List.getElem?_map] at hk
  obtain ⟨q, hq, hsource⟩ := Option.map_eq_some_iff.mp hk
  cases hsource
  rw [← h.contiguous.start_eq hq] at hb
  obtain ⟨origin, length, goal⟩ := b
  cases goal with
  | offset t =>
    cases htarget
    exact q.assembled.sited.spans _ hb _ rfl
  | routine callee =>
    obtain ⟨m, hm, hpurpose, rfl, rfl⟩ := q.assembled.sited.exists_call hb
    have haimed := h.aimed k q hq m hm
    rw [← h.contiguous.starts_eq] at htarget
    have hresolve : resolve? (starts parts) k callee = some target := htarget
    simp only [Aimed, hpurpose, hresolve] at haimed
    obtain ⟨d, hd, -⟩ := callTo_eq_ok haimed
    exact .of_distance hd

/-- All uses of a program are accepted if none is ill-formed and none exceeds a limit. -/
theorem accepted_iff {p : Program} :
    (∀ r ∈ p.routines, ∀ u ∈ Source.methodUses r.method, u.2.isAccepted p u.1 = true) ↔
      ¬IllFormed p ∧ ¬ExceedsWords p := by
  simp only [IllFormed, ExceedsWords, not_exists, not_and, Bool.not_eq_false,
    Source.Use.isAccepted, Bool.and_eq_true]
  constructor
  · intro h
    exact ⟨fun r hr u hu ↦ (h r hr u hu).1, fun r hr u hu ↦ (h r hr u hu).2⟩
  · rintro ⟨hwell, hwords⟩ r hr u hu
    exact ⟨hwell r hr u hu, hwords r hr u hu⟩

/-- The steps of a program hold no refusal exactly if its uses are well-formed and keep to the
limits. -/
theorem passed_routineSteps {p : Program} {entry : Routine} :
    (∀ source ∈ routineSteps p entry, Each Step.isPassed source.2) ↔
      ¬IllFormed p ∧ ¬ExceedsWords p := by
  have hmethod (r : Routine) : Each Step.isPassed (lowerMethod (surroundings p entry r) r.method) ↔
      ∀ u ∈ Source.methodUses r.method, u.2.isAccepted p u.1 = true :=
    (follows_lowerMethod (surroundings p entry r) r.method).passed_iff rfl
  rw [← accepted_iff, routineSteps, List.forall_mem_append, List.forall_mem_map,
    List.forall_mem_map]
  constructor
  · intro h r hr
    exact (hmethod r).mp (h.2 r hr)
  · intro h
    exact ⟨fun b hb ↦ passed_silent (isSilent_builtins b hb), fun r hr ↦ (hmethod r).mpr (h r hr)⟩

private theorem Fault.kind_of_internal {fault : Fault} (h : fault.internal?.isSome = true) :
    fault.kind = "Internal" ∧ ∀ cause, fault ≠ .storage cause := by
  cases fault with
  | tree | branch | stack => exact ⟨rfl, nofun⟩
  | storage | stream | compilationFailed | misalignedLoadAddress | missingEntry => cases h

section Generation

variable {p : Program} {o : Options} {entry : Routine}

/-- Why generation stops. -/
theorem cause_of_generate (hentry : entryCandidates p o = [entry]) {fault : Fault}
    (h : (generate p o).result = .error fault) :
    fault.kind = "Internal" ∧ (∀ cause, fault ≠ .storage cause) ∧
      ((∃ source ∈ routineSteps p entry, ¬Each Step.isPassed source.2) ∨
        ¬BranchesFit (routineSteps p entry)) := by
  have hrun : ((Assemble.program p o entry).run.run .empty).1 = .error fault := by
    simp only [generate, hentry] at h
    exact h
  cases (blames_program p o entry).of_error (Prod.ext hrun rfl) with
  | depth hdepth =>
    rw [isDepth_of_generate h] at hdepth
    cases hdepth
  | refusal source hs hrefusal =>
    have hinternal := sound_routineSteps hs _ hrefusal
    obtain ⟨hkind, hstorage⟩ := Fault.kind_of_internal hinternal
    refine ⟨hkind, hstorage, .inl ⟨source, hs, fun hpassed ↦ ?_⟩⟩
    cases hpassed _ hrefusal
  | distance hbranch unfit =>
    cases fault with
    | branch =>
      refine ⟨rfl, fun cause hcause ↦ ?_, .inr unfit⟩
      cases hcause
    | tree | stack | storage | stream | compilationFailed | misalignedLoadAddress | missingEntry =>
      cases hbranch

/-- There is code for a program whose uses are well-formed and keep to the limits, if its branches
reach. -/
theorem exists_code (hentry : entryCandidates p o = [entry]) (hwell : ¬IllFormed p)
    (hwords : ¬ExceedsWords p) (hfit : BranchesFit (routineSteps p entry)) :
    ∃ code, (generate p o).result = .ok code := by
  cases hresult : (generate p o).result with
  | ok code => exact ⟨code, rfl⟩
  | error fault =>
    obtain ⟨-, -, ⟨source, hs, hrefused⟩ | hunfit⟩ := cause_of_generate hentry hresult
    · exact absurd (passed_routineSteps.mpr ⟨hwell, hwords⟩ source hs) hrefused
    · exact absurd hfit hunfit

/-- Code comes from well-formed uses that keep to the limits, and its branches reach. -/
theorem accepted_of_generate (hentry : entryCandidates p o = [entry]) {code : Code}
    (hcode : (generate p o).result = .ok code) :
    ¬IllFormed p ∧ ¬ExceedsWords p ∧ BranchesFit (routineSteps p entry) := by
  obtain ⟨parts, hsources, hlinked, -⟩ := exists_linked hentry hcode
  have hfit := hlinked.branchesFit
  have hpassed := passed_sources parts
  rw [hsources] at hfit hpassed
  obtain ⟨hwell, hwords⟩ := passed_routineSteps.mp hpassed
  exact ⟨hwell, hwords, hfit⟩

/-- Generation stops if a use is ill-formed or exceeds a limit, or a branch does not reach. -/
theorem exists_fault (hentry : entryCandidates p o = [entry])
    (h : IllFormed p ∨ ExceedsWords p ∨ ¬BranchesFit (routineSteps p entry)) :
    ∃ fault, (generate p o).result = .error fault := by
  cases hresult : (generate p o).result with
  | error fault => exact ⟨fault, rfl⟩
  | ok code =>
    obtain ⟨hwell, hwords, hfit⟩ := accepted_of_generate hentry hresult
    obtain h | h | h := h
    · exact absurd h hwell
    · exact absurd h hwords
    · exact absurd hfit h

end Generation

/-- Which trees are rejected. A program with one entry has no code exactly if a use of its bodies is
ill-formed where names have their scopes, a count of words exceeds its limit or the distance of a
branch its 32 bits. What stops generation then is always an internal fault: no instruction is
found invalid, and none that is overwritten is missing or changes its length. Nor is it ever a
negative slot. -/
theorem rejected_iff {p : Program} {o : Options} {entry : Routine}
    (hentry : entryCandidates p o = [entry]) :
    ((∃ fault, (generate p o).result = .error fault) ↔
      IllFormed p ∨ ExceedsWords p ∨ ¬BranchesFit (routineSteps p entry)) ∧
    ∀ fault, (generate p o).result = .error fault →
      fault.kind = "Internal" ∧ ∀ cause, fault ≠ .storage cause := by
  refine ⟨⟨?_, exists_fault hentry⟩, fun fault h ↦ ?_⟩
  · rintro ⟨fault, h⟩
    by_contra haccepted
    push Not at haccepted
    obtain ⟨hwell, hwords, hfit⟩ := haccepted
    obtain ⟨code, hcode⟩ := exists_code hentry hwell hwords hfit
    rw [hcode] at h
    cases h
  · obtain ⟨hkind, hstorage, -⟩ := cause_of_generate hentry h
    exact ⟨hkind, hstorage⟩

/-- An entry that assigns to a variable behind the block that declares it. -/
def leakingEntry : MethodDecl :=
  ⟨"main", .void, true, false, [⟨"args", .array (.object "String")⟩],
    [.block [.declare ⟨"x", .int, ⟨0⟩⟩ (.literal (.int 1))],
      .assign (.localName (.var ⟨0⟩)) (.literal (.int 2))]⟩

/-- A program with this entry is rejected. -/
theorem rejected_leaking :
    ∃ fault, (generate ⟨[⟨"Main", [], [leakingEntry]⟩]⟩ {}).result = .error fault ∧
      fault.kind = "Internal" := by
  have hentry : entryCandidates ⟨[⟨"Main", [], [leakingEntry]⟩]⟩ {} =
      [⟨0, 0, "Main", leakingEntry⟩] := rfl
  obtain ⟨hiff, hkind⟩ := rejected_iff hentry
  obtain ⟨fault, hfault⟩ := hiff.mpr (.inl (by decide))
  exact ⟨fault, hfault, (hkind fault hfault).1⟩

/-- A static field. -/
def staticWord : FieldDecl := ⟨"word", .int, true, false⟩

/-- The static field behind 2^28 others. -/
def farField : FieldRef := ⟨0, 2 ^ 28⟩

/-- An entry that assigns to that field. -/
def crowdedEntry : MethodDecl :=
  ⟨"main", .void, true, false, [⟨"args", .array (.object "String")⟩],
    [.assign (.field farField) (.literal (.int 1))]⟩

/-- A program with this entry and a count of static fields. -/
def crowdedProgram (count : Nat) : Program :=
  ⟨[⟨"Main", List.replicate count staticWord, [crowdedEntry]⟩]⟩

private theorem field?_crowded {count : Nat} (h : 2 ^ 28 < count) :
    (crowdedProgram count).field? farField = some staticWord := by
  have hfields : (crowdedProgram count).field? farField =
      (List.replicate count staticWord)[2 ^ 28]? := rfl
  rw [hfields, List.getElem?_replicate, if_pos h]

private theorem staticRank_crowded {count : Nat} (h : 2 ^ 28 < count) :
    (crowdedProgram count).staticRank farField = 2 ^ 28 := by
  have hrank : (crowdedProgram count).staticRank farField =
      0 + ((List.replicate count staticWord).take (2 ^ 28)).countP (·.isStatic) := rfl
  have hstatic : staticWord.isStatic = true := rfl
  rw [hrank, List.take_replicate, List.countP_replicate, if_pos hstatic, Nat.min_eq_left h.le,
    Nat.zero_add]

private theorem branchSites_frames (o : Nat) (is : List Instruction) :
    branchSites o (is.map .frame) = [] := by
  induction is generalizing o with
  | nil => rfl
  | cons i is ih => exact ih _

private theorem branchSites_crowded {count : Nat} (h : 2 ^ 28 < count) (o : Nat) :
    branchSites o (lowerMethod ⟨crowdedProgram count, .ofProgram (crowdedProgram count), true⟩
      crowdedEntry) = [] := by
  have hslot := slot?_ofProgram (crowdedProgram count) farField
  rw [field?_crowded h] at hslot
  have htarget (f : Frame) : lowerReference ⟨crowdedProgram count,
      .ofProgram (crowdedProgram count), true⟩ f (.field farField) .address =
        .staticAddress (slotOffset ((crowdedProgram count).staticRank farField)) ::
          lowerWord 0 .address := by
    rw [lowerReference, lowerField, hslot]
    rfl
  simp only [lowerMethod, crowdedEntry, lowerStatements, lowerStatement, htarget]
  rfl

private theorem exists_code_crowded {count : Nat} (h : 2 ^ 28 < count) :
    ∃ code, (generate (crowdedProgram count) {}).result = .ok code := by
  have hentry : entryCandidates (crowdedProgram count) {} = [⟨0, 0, "Main", crowdedEntry⟩] := rfl
  have haccepted : ∀ r ∈ (crowdedProgram count).routines, ∀ u ∈ Source.methodUses r.method,
      u.2.isAccepted (crowdedProgram count) u.1 = true := by
    have hroutines : (crowdedProgram count).routines = [⟨0, 0, "Main", crowdedEntry⟩] := rfl
    have huses : Source.methodUses crowdedEntry =
        [(Source.Scope.ofMethod crowdedEntry, .target (.field farField))] := rfl
    rw [hroutines, List.forall_mem_singleton, huses, List.forall_mem_singleton]
    simp [Source.Use.isAccepted, Source.Use.isWellFormed, Source.isAssignable, Source.hasValue,
      field?_crowded h, staticWord, Source.Use.isWithinLimits, Source.isNear, Source.rootParam?]
  obtain ⟨hwell, hwords⟩ := accepted_iff.mp haccepted
  refine exists_code hentry hwell hwords fun k name xs hk b hb ↦ ?_
  have hnone : branchSites (sourcesSize ((routineSteps (crowdedProgram count)
      ⟨0, 0, "Main", crowdedEntry⟩).take k)) xs = [] := by
    obtain hmem | hmem := List.mem_append.mp (List.mem_of_getElem? hk)
    · obtain ⟨r, -, hr⟩ := List.mem_map.mp hmem
      cases hr
      exact branchSites_frames _ _
    · obtain ⟨r, hr, hsource⟩ := List.mem_map.mp hmem
      cases List.mem_singleton.mp hr
      cases hsource
      exact branchSites_crowded h _
  rw [hnone] at hb
  cases hb

/-- An entry that prints a count of zeros at once. -/
def printingEntry (count : Nat) : MethodDecl :=
  ⟨"main", .void, true, false, [⟨"args", .array (.object "String")⟩],
    [.call .println (List.replicate count (.literal (.int 0)))]⟩

/-- A program with this entry. -/
def printingProgram (count : Nat) : Program := ⟨[⟨"Main", [], [printingEntry count]⟩]⟩

private theorem argumentUses_literals (count : Nat) (l : Literal) :
    Source.argumentUses (List.replicate count (.literal l)) = [] := by
  induction count with
  | zero => rfl
  | succ count ih =>
    rw [List.replicate_succ, Source.argumentUses, ih]
    rfl

private theorem methodUses_printing (count : Nat) :
    Source.methodUses (printingEntry count) =
      [(Source.Scope.ofMethod (printingEntry count), .callee .println count)] := by
  simp only [Source.methodUses, printingEntry, Source.bodyUses, Source.statementUses,
    argumentUses_literals, List.length_replicate, List.nil_append, List.append_nil, List.map_cons,
    List.map_nil]

private theorem rejected_printing {count : Nat} (h : 2 ^ 28 ≤ count) :
    ¬IllFormed (printingProgram count) ∧
      ∃ fault, (generate (printingProgram count) {}).result = .error fault := by
  have hentry :
      entryCandidates (printingProgram count) {} = [⟨0, 0, "Main", printingEntry count⟩] := rfl
  have hroutines : (printingProgram count).routines = [⟨0, 0, "Main", printingEntry count⟩] := rfl
  have huses := methodUses_printing count
  constructor
  · rintro ⟨r, hr, u, hu, hill⟩
    rw [hroutines] at hr
    cases List.mem_singleton.mp hr
    rw [huses] at hu
    cases List.mem_singleton.mp hu
    cases hill
  · refine exists_fault hentry (.inr (.inl ⟨_, hroutines ▸ List.mem_singleton_self _, _,
      huses ▸ List.mem_singleton_self _, ?_⟩))
    exact decide_eq_false (Nat.not_lt.mpr h)

/-- An entry that prints a variable behind the loop whose body declares it. -/
def loopingEntry : MethodDecl :=
  ⟨"main", .void, true, false, [⟨"args", .array (.object "String")⟩],
    [.loop (.literal (.bool false)) (.declare ⟨"x", .int, ⟨0⟩⟩ (.literal (.int 1))),
      .call .println [.ref (.localName (.var ⟨0⟩))]]⟩

private theorem rejected_looping :
    ∃ fault, (generate ⟨[⟨"Main", [], [loopingEntry]⟩]⟩ {}).result = .error fault := by
  have hentry : entryCandidates ⟨[⟨"Main", [], [loopingEntry]⟩]⟩ {} =
      [⟨0, 0, "Main", loopingEntry⟩] := rfl
  exact exists_fault hentry (.inl (by decide))

/-- What is limited is not a count of slots: there is code for the use of a static field behind 2^28
others. The words that are taken off at once must be fewer than 2^28, and what the body of a loop
declares is out of scope behind the loop. -/
theorem limits_of_rejection :
    ((crowdedProgram (2 ^ 28 + 1)).staticRank farField = 2 ^ 28 ∧
      ∃ code, (generate (crowdedProgram (2 ^ 28 + 1)) {}).result = .ok code) ∧
    (¬IllFormed (printingProgram (2 ^ 28)) ∧
      ∃ fault, (generate (printingProgram (2 ^ 28)) {}).result = .error fault) ∧
    ∃ fault, (generate ⟨[⟨"Main", [], [loopingEntry]⟩]⟩ {}).result = .error fault := by
  have hfar : 2 ^ 28 < 2 ^ 28 + 1 := Nat.lt_succ_self _
  exact ⟨⟨staticRank_crowded hfar, exists_code_crowded hfar⟩,
    rejected_printing (Nat.le_refl _), rejected_looping⟩

end NativeBackend
