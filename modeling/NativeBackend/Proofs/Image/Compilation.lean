import NativeBackend.Proofs.Linking.EntryPoint
import NativeBackend.Proofs.Rejection.Undeclared

/-!
# What becomes of a program

A program becomes an image only if everything is in order. The entry is looked for first,
then code is generated, then the calls that no routine answers are reported, and last the
load address is checked. What fails first is what is reported. An image starts at the code of
the very routine that was found to be the entry, whatever other routines are called.
-/

namespace NativeBackend

open Machine NativeBackend.Tree

/-- A routine can be the entry: it is a public static method of the entry's name, which takes an
array of texts and gives nothing back, in the class of the entry if there is one. -/
structure IsEntry (o : Options) (r : Routine) : Prop where
  owner : ∀ c, o.entryClass = some c → c = r.className
  name : r.method.name = o.entryName
  isPublic : r.method.isPrivate = false
  isStatic : r.method.isStatic = true
  isVoid : r.method.returnType = .void
  takesTexts : ∃ name element, r.method.params = [⟨name, .array element⟩] ∧
    (element = .unsupported ∨ element = .object "String")

/-- The routines of a program that can be the entry, in declaration order. -/
structure AreEntries (p : Program) (o : Options) (rs : List Routine) : Prop where
  ordered : rs.Sublist p.routines
  all : ∀ r, r ∈ rs ↔ r ∈ p.routines ∧ IsEntry o r

/-- Code begins a routine of a program at an offset. It is the one that was begun in its turn, not
another one of its name. -/
structure EntersAt (p : Program) (main : Routine) (code : Code) (j start : Nat) : Prop where
  place : p.routines[j]? = some main
  turn : ∃ a, Started p main j main a ∧ a.stream.size = start
  begun : code.begun[Builtin.routines.length + j]? = some (main.name, start)
  opens : ∃ e e' es, code.entriesIn (Builtin.routines.length + j) = e :: e' :: es ∧
    e.start = start ∧ [e.instruction, e'.instruction] = Builtin.prologue

/-- The problems of a program with code: the names that are called and that no routine has. -/
def ReportsCalls (p : Program) (ds : List Diagnostic) : Prop :=
  ∀ d, d ∈ ds ↔ ∃ name ∈ (Source.calledNames p).flatten, name ∉ Source.routineNames p ∧
    d = .unresolvedCall name ((Source.calledNames p).flatten.count name)

/-- What becomes of a program, given the routines that can be the entry. -/
inductive Compilation (p : Program) (o : Options) : List Routine → Prop
  | noEntry (nothing : (generate p o).result = .ok .empty)
      (reported : (generate p o).reporter.diagnostics = [.noEntry o.entryName])
      (failed : compile p o = .error (.compilationFailed [.noEntry o.entryName])) :
      Compilation p o []
  | manyEntries {r r' : Routine} {rs : List Routine} {names : List String}
      (listed : names = (r :: r' :: rs).map Routine.name)
      (nothing : (generate p o).result = .ok .empty)
      (reported : (generate p o).reporter.diagnostics = [.manyEntries o.entryName names])
      (failed : compile p o = .error (.compilationFailed [.manyEntries o.entryName names])) :
      Compilation p o (r :: r' :: rs)
  | fault {main : Routine} {fault : Fault} (refused : (generate p o).result = .error fault)
      (failed : compile p o = .error fault) : Compilation p o [main]
  | unresolved {main : Routine} {code : Code} {ds : List Diagnostic}
      (generated : (generate p o).result = .ok code)
      (reported : (generate p o).reporter.diagnostics = ds) (calls : ReportsCalls p ds)
      (some : ds ≠ []) (failed : compile p o = .error (.compilationFailed ds)) :
      Compilation p o [main]
  | misaligned {main : Routine} {code : Code} (generated : (generate p o).result = .ok code)
      (reported : (generate p o).reporter.diagnostics = []) (calls : ReportsCalls p [])
      (address : ¬0x1000 ∣ o.loadAddress.toNat)
      (failed : compile p o = .error (.misalignedLoadAddress o.loadAddress)) :
      Compilation p o [main]
  | image {main : Routine} {code : Code} {image : Image} {j start : Nat}
      (generated : (generate p o).result = .ok code)
      (reported : (generate p o).reporter.diagnostics = []) (calls : ReportsCalls p [])
      (address : 0x1000 ∣ o.loadAddress.toNat)
      (compiled : compile p o = .ok image) (contents : image.code = code.stream.bytes)
      (enters : EntersAt p main code j start)
      (starts : image.entryAddress = o.loadAddress + 120 + UInt64.ofNat start) :
      Compilation p o [main]

section Candidates

variable {p : Program} {o : Options}

private theorem areArguments_iff {params : List Parameter} :
    areArguments params = true ↔ ∃ name element, params = [⟨name, .array element⟩] ∧
      (element = .unsupported ∨ element = .object "String") := by
  constructor
  · intro h
    unfold areArguments at h
    split at h
    · next name element =>
      refine ⟨name, element, rfl, ?_⟩
      unfold isArgumentType at h
      split at h
      · exact .inl rfl
      · exact .inr (congrArg _ (beq_iff_eq.mp h))
      · cases h
    · cases h
  · rintro ⟨name, element, rfl, rfl | rfl⟩ <;> rfl

private theorem isEntry_iff {r : Routine} :
    (o.entryClass.all (· == r.className) && isEntryShape r.method o.entryName) = true ↔
      IsEntry o r := by
  simp only [isEntryShape, Bool.and_eq_true, beq_iff_eq, Bool.not_eq_true', Option.all_eq_true]
  constructor
  · rintro ⟨howner, ⟨⟨⟨hname, hpublic⟩, hstatic⟩, hvoid⟩, harguments⟩
    exact ⟨howner, hname, hpublic, hstatic, hvoid, areArguments_iff.mp harguments⟩
  · rintro ⟨howner, hname, hpublic, hstatic, hvoid, harguments⟩
    exact ⟨howner, ⟨⟨⟨hname, hpublic⟩, hstatic⟩, hvoid⟩, areArguments_iff.mpr harguments⟩

private theorem areEntries_entryCandidates (p : Program) (o : Options) :
    AreEntries p o (entryCandidates p o) := by
  refine ⟨List.filter_sublist, fun r ↦ ?_⟩
  rw [entryCandidates, List.mem_filter, isEntry_iff]

end Candidates

section Compile

variable {p : Program} {o : Options} {code : Code} {ds : List Diagnostic}

private theorem hasErrors_eq (h : (generate p o).reporter.diagnostics = ds) :
    (generate p o).reporter.hasErrors = !ds.isEmpty := by
  rw [Reporter.hasErrors, h]

private theorem compile_of_error {fault : Fault} (h : (generate p o).result = .error fault) :
    compile p o = .error fault := by
  rw [compile, Generation.image, h]
  rfl

private theorem compile_of_reports (hcode : (generate p o).result = .ok code)
    (hreported : (generate p o).reporter.diagnostics = ds) (hsome : ds ≠ []) :
    compile p o = .error (.compilationFailed ds) := by
  have herrors : (generate p o).reporter.hasErrors = true := by
    simpa [hasErrors_eq hreported] using hsome
  rw [compile, Generation.image, hcode, hreported]
  simp only [herrors, if_true]
  rfl

private theorem compile_of_code (hcode : (generate p o).result = .ok code)
    (hreported : (generate p o).reporter.diagnostics = []) :
    compile p o = Image.ofGenerated code o.loadAddress := by
  rw [compile, Generation.image, hcode]
  simp only [hasErrors_eq hreported]
  rfl

end Compile

section Entry

variable {p : Program} {o : Options} {main : Routine} {code : Code}

/-- All that is reported about code are the names that are called and that no routine has. -/
theorem reportsCalls_of_generate (hmain : entryCandidates p o = [main])
    (hcode : (generate p o).result = .ok code) :
    ReportsCalls p (generate p o).reporter.diagnostics := by
  intro d
  constructor
  · intro hd
    obtain ⟨parts, -, -, hreports⟩ := exists_linked hmain hcode
    obtain ⟨g, -, rfl⟩ := List.mem_map.mp (hreports ▸ hd)
    obtain ⟨hcalled, hfree, hcount⟩ := (mem_diagnostics_iff hmain hcode).mp hd
    exact ⟨g.1, hcalled, hfree, congrArg _ hcount⟩
  · rintro ⟨name, hcalled, hfree, rfl⟩
    exact (mem_diagnostics_iff hmain hcode).mpr ⟨hcalled, hfree, rfl⟩

/-- Code enters the program at the routine that was found to be the entry. -/
theorem exists_entersAt (hmain : entryCandidates p o = [main])
    (hcode : (generate p o).result = .ok code) :
    ∃ j start, code.entry = some start ∧ EntersAt p main code j start := by
  obtain ⟨z, hprogram, -⟩ := runs_of_generate hmain hcode
  obtain ⟨parts, hsources, hlinked, -⟩ := exists_linked hmain hcode
  have hmem : main ∈ p.routines :=
    ((areEntries_entryCandidates p o).all main |>.mp (hmain ▸ List.mem_singleton_self main)).1
  obtain ⟨j, hj⟩ := List.getElem?_of_mem hmem
  obtain ⟨a, ha⟩ := exists_started hprogram hj
  have hbegun := ha.begun hprogram
  obtain ⟨q, r, hq, hstart, -, hsteps⟩ := hlinked.declared_part hsources hbegun
  have hopens := (hsteps ▸ q.assembled).prologue
  rw [← hlinked.entriesIn hq, hstart] at hopens
  exact ⟨j, a.stream.size, ha.entry_eq hprogram (samePlace_iff.mpr ⟨rfl, rfl⟩), hj, ⟨a, ha, rfl⟩,
    hbegun, hopens⟩

end Entry

private theorem codeAddress_eq (load : UInt64) (offset : Nat) :
    Image.codeAddress load offset = load + 120 + UInt64.ofNat offset := by
  rw [Image.codeAddress, UInt64.ofNat_add, UInt64.add_assoc]
  rfl

private theorem generate_of_problem {p : Program} {o : Options} {rs : List Routine}
    (hrs : entryCandidates p o = rs) (hother : ∀ main, rs ≠ [main]) :
    (generate p o).result = .ok .empty ∧
      (generate p o).reporter.diagnostics = [entryProblem o rs] := by
  rw [generate, hrs]
  split
  · next main => exact absurd rfl (hother main)
  · exact ⟨rfl, rfl⟩

/-- What becomes of a program with one routine that can be the entry. -/
theorem compilation_of_entry {p : Program} {o : Options} {main : Routine}
    (hmain : entryCandidates p o = [main]) : Compilation p o [main] := by
  cases hcode : (generate p o).result with
  | error fault => exact .fault hcode (compile_of_error hcode)
  | ok code =>
    have hcalls := reportsCalls_of_generate hmain hcode
    by_cases hreported : (generate p o).reporter.diagnostics = []
    · rw [hreported] at hcalls
      obtain ⟨j, start, hentry, henters⟩ := exists_entersAt hmain hcode
      have hcompile := compile_of_code hcode hreported
      rw [Image.ofGenerated, hentry] at hcompile
      by_cases haligned : 0x1000 ∣ o.loadAddress.toNat
      · have hzero : o.loadAddress.toNat % pageSize = 0 := Nat.mod_eq_zero_of_dvd haligned
        simp only [Image.withLoadAddress, hzero, if_true] at hcompile
        refine .image hcode hreported hcalls haligned hcompile rfl henters ?_
        exact codeAddress_eq o.loadAddress start
      · have hrest : o.loadAddress.toNat % pageSize ≠ 0 := fun hzero ↦
          haligned (Nat.dvd_of_mod_eq_zero hzero)
        simp only [Image.withLoadAddress, hrest, if_false] at hcompile
        exact .misaligned hcode hreported hcalls haligned hcompile
    · exact .unresolved hcode rfl hcalls hreported (compile_of_reports hcode rfl hreported)

private theorem compilation (p : Program) (o : Options) :
    Compilation p o (entryCandidates p o) := by
  match hrs : entryCandidates p o with
  | [] =>
    obtain ⟨hnothing, hreported⟩ := generate_of_problem hrs (by simp)
    exact .noEntry hnothing hreported (compile_of_reports hnothing hreported (by simp))
  | [main] => exact compilation_of_entry hrs
  | r :: r' :: rs =>
    obtain ⟨hnothing, hreported⟩ := generate_of_problem hrs (by simp)
    exact .manyEntries rfl hnothing hreported (compile_of_reports hnothing hreported (by simp))

/-- What becomes of every program. The routines that can be the entry are the ones listed, and what
follows from them, from generation, from its reports and from the load address is decided in this
order. That code has no entry is never found only when the image is made. -/
theorem compile_outcome (p : Program) (o : Options) :
    AreEntries p o (entryCandidates p o) ∧ Compilation p o (entryCandidates p o) ∧
      compile p o ≠ .error .missingEntry := by
  refine ⟨areEntries_entryCandidates p o, compilation p o, fun hmissing ↦ ?_⟩
  have h := compilation p o
  generalize hrs : entryCandidates p o = rs at h
  cases h with
  | noEntry _ _ failed => cases failed.symm.trans hmissing
  | manyEntries _ _ _ failed => cases failed.symm.trans hmissing
  | unresolved _ _ _ _ failed => cases failed.symm.trans hmissing
  | misaligned _ _ _ _ failed => cases failed.symm.trans hmissing
  | image _ _ _ _ compiled => cases compiled.symm.trans hmissing
  | fault refused failed =>
    -- the faults of generation are of another kind
    cases failed.symm.trans hmissing
    exact absurd (cause_of_generate hrs refused).1 (by decide)

end NativeBackend
