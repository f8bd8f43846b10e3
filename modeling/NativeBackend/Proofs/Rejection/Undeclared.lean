import NativeBackend.Image.Elf
import NativeBackend.Proofs.Linking.ByName
import NativeBackend.Proofs.Rejection.Trees

/-!
# Calls of undeclared methods

A call of a method that the program does not declare gets a name of its own and is
reported when no routine turns out to have that name. Two things stand in the way: the
base of such a call is pushed as a receiver, so it must have a value, which a class has
not; and a declared routine may have the very name.
-/

namespace NativeBackend

open Machine NativeBackend.Tree

namespace Source

/-- The name for the method that a callee refers to, if the program does not declare it. -/
def undeclared? (p : Program) (r : Reference) : Option String :=
  (calledMethod? r).bind fun (m, _) ↦
    if (p.method? m).isNone then some (danglingName p m) else none

/-- The callee of a use and its name, if it is a call of an undeclared method. -/
def Use.undeclared? (p : Program) : Use → Option (Reference × String)
  | callee r _ => (Source.undeclared? p r).map (r, ·)
  | _ => none

/-- The calls of undeclared methods, each with its scope and the name for the method. -/
def undeclaredCalls (p : Program) : List (Scope × Reference × String) :=
  p.routines.flatMap fun r ↦
    (methodUses r.method).filterMap fun u ↦ (u.2.undeclared? p).map (u.1, ·)

/-- All uses are well-formed, calls of undeclared methods apart. -/
def WellFormedApart (p : Program) : Prop :=
  ∀ r ∈ p.routines, ∀ u ∈ methodUses r.method,
    u.2.isWellFormed p u.1 = true ∨ (u.2.undeclared? p).isSome = true

instance (p : Program) : Decidable (WellFormedApart p) :=
  inferInstanceAs (Decidable (∀ r ∈ _, _))

section Names

variable {p : Program} {r : Reference} {name : String}

/-- What is called is there to be called, under the name for it. -/
theorem routine?_of_undeclared (h : undeclared? p r = some name) :
    isCallee r = true ∧ (CallNode.call r).routine? p = some name := by
  obtain ⟨⟨m, base⟩, hm, hname⟩ := Option.bind_eq_some_iff.mp h
  simp only [Option.isNone_iff_eq_none] at hname
  split at hname
  · next hnone =>
    obtain rfl := Option.some.inj hname
    obtain ⟨rfl, rfl⟩ | ⟨b, rfl, rfl⟩ := calledMethod?_cases hm <;>
      simp [isCallee, CallNode.routine?, callee?, calledMethod?, calleeOf, hnone]
  · cases hname

private theorem mem_undeclaredCalls {c : Scope} :
    (c, r, name) ∈ undeclaredCalls p ↔ undeclared? p r = some name ∧
      ∃ q ∈ p.routines, ∃ count, (c, .callee r count) ∈ methodUses q.method := by
  simp only [undeclaredCalls, List.mem_flatMap, List.mem_filterMap, Option.map_eq_some_iff]
  constructor
  · rintro ⟨q, hq, ⟨c', u⟩, hu, ⟨r', name'⟩, hundeclared, hx⟩
    cases hx
    cases u with
    | callee r' count =>
      obtain ⟨name', hname, hx⟩ := Option.map_eq_some_iff.mp hundeclared
      cases hx
      exact ⟨hname, q, hq, count, hu⟩
    | value | target | blockEnd => cases hundeclared
  · rintro ⟨hname, q, hq, count, hu⟩
    exact ⟨q, hq, _, hu, (r, name), by simp [Use.undeclared?, hname], rfl⟩

end Names

section Calls

variable {r : Reference} {count : Nat}

mutual

/-- What an expression uses as a callee, it calls. -/
theorem mem_expressionCalls : (e : Expression) → .callee r count ∈ expressionUses e →
    .call r ∈ expressionCalls e
  | .literal _, h | .newObject _, h => by cases h
  | .ref _, h => by simp [expressionUses] at h
  | .index _ i, h => by
    simp only [expressionUses, List.mem_cons, reduceCtorEq, false_or] at h
    exact mem_expressionCalls i h
  | .unary _ operand, h => mem_expressionCalls operand h
  | .binary _ left right, h => by
    rw [expressionCalls, List.mem_append]
    exact (List.mem_append.mp h).imp (mem_expressionCalls left) (mem_expressionCalls right)
  | .call callee args, h => by
    rw [expressionCalls, List.mem_append]
    refine (List.mem_append.mp h).imp (mem_argumentCalls args) fun hlast ↦ ?_
    cases List.mem_singleton.mp hlast
    exact List.mem_singleton_self _
  | .newArray _ size, h => List.mem_append_left _ (mem_expressionCalls size h)

/-- So do arguments. -/
theorem mem_argumentCalls : (es : List Expression) → .callee r count ∈ argumentUses es →
    .call r ∈ argumentCalls es
  | [], h => by cases h
  | e :: es, h => by
    rw [argumentCalls, List.mem_append]
    exact (List.mem_append.mp h).imp (mem_expressionCalls e) (mem_argumentCalls es)

end

private theorem mem_uses_of_mem_map {c c' : Scope} {u : Use} {us : List Use}
    (h : (c, u) ∈ us.map (c', ·)) : u ∈ us := by
  obtain ⟨u', hu, hx⟩ := List.mem_map.mp h
  cases hx
  exact hu

mutual

/-- What a statement uses as a callee, it calls. -/
theorem mem_statementCalls {c : Scope} : (st : Statement) → {c' : Scope} →
    (c, .callee r count) ∈ statementUses c' st → .call r ∈ statementCalls st
  | .block body, _, h => by
    simp only [statementUses, List.mem_append, List.mem_singleton, Prod.mk.injEq, reduceCtorEq,
      and_false, or_false] at h
    exact mem_bodyCalls body h
  | .declare _ init, _, h => mem_expressionCalls init (mem_uses_of_mem_map h)
  | .assign _ value, _, h => by
    have huse := mem_uses_of_mem_map h
    simp only [List.mem_cons, reduceCtorEq, false_or] at huse
    exact mem_expressionCalls value huse
  | .assignElement _ i value, _, h => by
    have huse := mem_uses_of_mem_map h
    simp only [List.mem_cons, reduceCtorEq, false_or, List.mem_append] at huse
    rw [statementCalls, List.mem_append]
    exact huse.imp (mem_expressionCalls i) (mem_expressionCalls value)
  | .call callee args, _, h => mem_expressionCalls (.call callee args) (mem_uses_of_mem_map h)
  | .giveBack none, _, h => by cases h
  | .giveBack (some value), _, h => mem_expressionCalls value (mem_uses_of_mem_map h)
  | .branch cond yes none, _, h => by
    rw [statementCalls, List.mem_append]
    exact (List.mem_append.mp h).imp (fun h ↦ mem_expressionCalls cond (mem_uses_of_mem_map h))
      (mem_statementCalls yes)
  | .branch cond yes (some no), _, h => by
    rw [statementCalls, List.mem_append, List.mem_append]
    refine (List.mem_append.mp h).imp (fun h ↦ mem_expressionCalls cond (mem_uses_of_mem_map h))
      fun h ↦ ?_
    exact (List.mem_append.mp h).imp (mem_statementCalls yes) (mem_statementCalls no)
  | .loop cond body, _, h => by
    rw [statementCalls, List.mem_append]
    exact (List.mem_append.mp h).imp (fun h ↦ mem_expressionCalls cond (mem_uses_of_mem_map h))
      (mem_statementCalls body)

private theorem mem_bodyCalls {c : Scope} : (sts : List Statement) → {c' : Scope} →
    (c, .callee r count) ∈ bodyUses c' sts → .call r ∈ bodyCalls sts
  | [], _, h => by cases h
  | st :: sts, _, h => by
    rw [bodyCalls, List.mem_append]
    exact (List.mem_append.mp h).imp (mem_statementCalls st) (mem_bodyCalls sts)

end

end Calls

/-- The name of an undeclared method is among those that the program calls. -/
theorem mem_calledNames {p : Program} {c : Scope} {r : Reference} {name : String}
    (h : (c, r, name) ∈ undeclaredCalls p) : name ∈ (calledNames p).flatten := by
  obtain ⟨hname, q, hq, count, hu⟩ := mem_undeclaredCalls.mp h
  have hcall : CallNode.call r ∈ bodyCalls q.method.body := mem_bodyCalls _ hu
  have hbody : bodyCalls q.method.body ∈ programCalls p :=
    List.mem_append_right _ (List.mem_map_of_mem hq)
  rw [calledNames, List.mem_flatten]
  exact ⟨_, List.mem_map_of_mem hbody,
    List.mem_filterMap.mpr ⟨_, hcall, (routine?_of_undeclared hname).2⟩⟩

/-- A program that is well-formed apart from calls of undeclared methods is well-formed if the bases
of these have values. -/
theorem wellFormed_iff_bases {p : Program} (h : WellFormedApart p) :
    ¬IllFormed p ↔
      ∀ x ∈ undeclaredCalls p, (receiver? p x.2.1).all (hasValue p x.1) = true := by
  have hcallable : ∀ {c : Scope} {r : Reference} {name : String}, undeclared? p r = some name →
      isCallable p c r = (receiver? p r).all (hasValue p c) := by
    intro c r name hname
    rw [isCallable, (routine?_of_undeclared hname).1, Bool.true_and]
  constructor
  · rintro hwell ⟨c, r, name⟩ hx
    obtain ⟨hname, q, hq, count, hu⟩ := mem_undeclaredCalls.mp hx
    rw [← hcallable hname]
    by_contra hill
    exact hwell ⟨q, hq, _, hu, Bool.eq_false_iff.mpr hill⟩
  · rintro hbases ⟨q, hq, ⟨c, u⟩, hu, hill⟩
    obtain hwell | hundeclared := h q hq (c, u) hu
    · rw [hwell] at hill
      cases hill
    · cases u with
      | callee r count =>
        obtain ⟨x, hx⟩ := Option.isSome_iff_exists.mp hundeclared
        obtain ⟨name, hname, rfl⟩ := Option.map_eq_some_iff.mp hx
        have hbase := hbases (c, r, name) (mem_undeclaredCalls.mpr ⟨hname, q, hq, count, hu⟩)
        rw [← hcallable hname] at hbase
        exact Bool.noConfusion (hill.symm.trans hbase)
      | value | target | blockEnd => cases hundeclared

end Source

/-- A name that is called is reported as unresolved, with the count of its calls, and compilation
fails with all that is reported. -/
structure Diagnosed (p : Program) (o : Options) (name : String) : Prop where
  reported : .unresolvedCall name ((Source.calledNames p).flatten.count name) ∈
    (generate p o).reporter.diagnostics
  failed : compile p o = .error (.compilationFailed (generate p o).reporter.diagnostics)

section Reports

variable {p : Program} {o : Options} {entry : Routine} {code : Code}

/-- What is reported about code: the names that are called and that no routine has. -/
theorem mem_diagnostics_iff (hentry : entryCandidates p o = [entry])
    (hcode : (generate p o).result = .ok code) {name : String} {count : Nat} :
    .unresolvedCall name count ∈ (generate p o).reporter.diagnostics ↔
      name ∈ (Source.calledNames p).flatten ∧ name ∉ Source.routineNames p ∧
        count = (Source.calledNames p).flatten.count name := by
  obtain ⟨parts, hsources, hlinked, hreports⟩ := exists_linked hentry hcode
  have hmem := hlinked.mem_unresolved hsources name
  rw [hlinked.begun_names hsources] at hmem
  rw [hreports, PendingCalls.groups, List.map_map, List.mem_map]
  constructor
  · rintro ⟨name', hname', heq⟩
    cases heq
    obtain ⟨hcalled, hfree⟩ := hmem.mp hname'
    refine ⟨hcalled, hfree, hlinked.length_unresolved hsources ?_⟩
    rwa [hlinked.begun_names hsources]
  · rintro ⟨hcalled, hfree, rfl⟩
    refine ⟨name, hmem.mpr ⟨hcalled, hfree⟩, congrArg _ (hlinked.length_unresolved hsources ?_)⟩
    rwa [hlinked.begun_names hsources]

/-- A called name is diagnosed exactly if no routine has it. -/
theorem diagnosed_iff (hentry : entryCandidates p o = [entry])
    (hcode : (generate p o).result = .ok code) {name : String}
    (hname : name ∈ (Source.calledNames p).flatten) :
    Diagnosed p o name ↔ name ∉ Source.routineNames p := by
  constructor
  · intro h
    exact ((mem_diagnostics_iff hentry hcode).mp h.reported).2.1
  · intro hfree
    have hreported := (mem_diagnostics_iff hentry hcode).mpr ⟨hname, hfree, rfl⟩
    have herrors : (generate p o).reporter.hasErrors = true := by
      rw [Reporter.hasErrors, Bool.not_eq_true', List.isEmpty_eq_false_iff_exists_mem]
      exact ⟨_, hreported⟩
    refine ⟨hreported, ?_⟩
    simp only [compile, Generation.image, hcode, herrors, if_true]
    rfl

end Reports

/-- What becomes of calls of undeclared methods. In a program with one entry that is well-formed
apart from them and keeps to the limits, generation succeeds exactly if what qualifies such a call
has a value, which a class has not; otherwise it stops with an internal fault. When it succeeds,
such a call is diagnosed exactly if no routine has the name that stands for the method. -/
theorem undeclared_calls_diagnosed {p : Program} {o : Options} {entry : Routine}
    (hentry : entryCandidates p o = [entry]) (hapart : Source.WellFormedApart p)
    (hwords : ¬Source.ExceedsWords p) (hfit : BranchesFit (routineSteps p entry)) :
    ((∃ code, (generate p o).result = .ok code) ↔ ∀ x ∈ Source.undeclaredCalls p,
      (Source.receiver? p x.2.1).all (Source.hasValue p x.1) = true) ∧
    (∀ fault, (generate p o).result = .error fault → fault.kind = "Internal") ∧
    ∀ code, (generate p o).result = .ok code → ∀ x ∈ Source.undeclaredCalls p,
      (Diagnosed p o x.2.2 ↔ x.2.2 ∉ Source.routineNames p) := by
  rw [← Source.wellFormed_iff_bases hapart]
  refine ⟨⟨?_, ?_⟩, fun fault h ↦ (cause_of_generate hentry h).1, ?_⟩
  · rintro ⟨code, hcode⟩
    exact (accepted_of_generate hentry hcode).1
  · intro hwell
    exact exists_code hentry hwell hwords hfit
  · rintro code hcode ⟨c, r, name⟩ hx
    exact diagnosed_iff hentry hcode (Source.mem_calledNames hx)

/-- The undeclared method that two routines of a program call is diagnosed. -/
theorem undeclared_calls_diagnosed_relay : Diagnosed relayProgram {} "Main.#9" := by
  have hok : (generate relayProgram {}).result.isOk = true := by decide +kernel
  obtain ⟨code, hcode⟩ := exists_ok_of_isOk hok
  have hmem : (⟨true, 1, []⟩, .method ⟨0, 9⟩, "Main.#9") ∈ Source.undeclaredCalls relayProgram := by
    decide +kernel
  have hfit := (accepted_of_generate rfl hcode).2.2
  have hdiagnosed := (undeclared_calls_diagnosed rfl (by decide) (by decide) hfit).2.2 code hcode
  exact (hdiagnosed _ hmem).mpr (by decide +kernel)

/-- An entry that calls one thing. -/
private def callingEntry (callee : Reference) : MethodDecl :=
  ⟨"main", .void, true, false, [⟨"args", .array (.object "String")⟩], [.call callee []]⟩

/-- A program whose entry calls an undeclared method, qualified by the name of its class. -/
def strayClassCall : Program :=
  ⟨[⟨"Main", [], [callingEntry (.qualified (.classAt 0) (.method ⟨0, 5⟩))]⟩]⟩

/-- A program whose entry calls an undeclared method, while a declared one has the name for it. -/
def takenNameCall : Program :=
  ⟨[⟨"Main", [], [callingEntry (.method ⟨0, 5⟩), ⟨"#5", .void, true, false, [], []⟩]⟩]⟩

/-- Calls of undeclared methods that are not diagnosed: one stops generation with an internal fault,
the other runs a declared method of another place. -/
theorem undeclared_calls_undiagnosed :
    (Source.undeclaredCalls strayClassCall).map (·.2.2) = ["Main.#5"] ∧
    Source.WellFormedApart strayClassCall ∧
    (generate strayClassCall {}).result = .error (.tree (.noValue (.classAt 0))) ∧
    (Source.undeclaredCalls takenNameCall).map (·.2.2) = ["Main.#5"] ∧
    ¬Source.IllFormed takenNameCall ∧
    (compile takenNameCall {}).isOk = true := by
  refine ⟨?_, ?_, ?_, ?_, ?_, ?_⟩ <;> decide +kernel

end NativeBackend
