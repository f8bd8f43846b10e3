import NativeBackend.Proofs.Linking.Hiding

/-!
# Calls and the methods they refer to

A reference in a tree names one method by the positions of its class and of itself, but
code is linked by names. A call leads to the very method it refers to exactly when that
method is not hidden from the caller by another routine of the same name.
-/

namespace NativeBackend

open Machine NativeBackend.Tree

namespace Source

/-- Whether a call refers to a routine that there is: a built-in one or a declared method. -/
def CallNode.isDeclared (p : Program) : CallNode → Bool
  | allocation => true
  | call .println => true
  | call callee => (calledMethod? callee).any fun (m, _) ↦ (p.method? m).isSome

/-- Whether a routine is the method at the very place that a reference names. -/
def isAt (m : MethodRef) (r : Routine) : Bool :=
  r.owner == m.owner.toNat && r.position == m.position.toNat

/-- The position, among the routines in the order they begin, of the one that a call refers to. A
method is found by its place in the program, not by its name. -/
def CallNode.place? (p : Program) : CallNode → Option Nat
  | allocation => some 0
  | call .println => some 1
  | call callee => do
    let (m, _) ← calledMethod? callee
    let i ← p.routines.findIdx? (isAt m)
    return Builtin.routines.length + i

end Source

section Places

variable {p : Program} {m : MethodRef} {decl : MethodDecl}

private theorem mem_routines_iff {r : Routine} :
    r ∈ p.routines ↔ ∃ c, p.classes[r.owner]? = some c ∧ c.methods[r.position]? = some r.method ∧
      c.name = r.className := by
  constructor
  · intro h
    obtain ⟨⟨c, owner⟩, hc, hr⟩ := List.mem_flatMap.mp h
    obtain ⟨⟨m, position⟩, hm, rfl⟩ := List.mem_map.mp hr
    exact ⟨c, List.mem_zipIdx_iff_getElem?.mp hc, List.mem_zipIdx_iff_getElem?.mp hm, rfl⟩
  · rintro ⟨c, hc, hm, hname⟩
    refine List.mem_flatMap.mpr ⟨(c, r.owner), List.mem_zipIdx_iff_getElem?.mpr hc,
      List.mem_map.mpr ⟨(r.method, r.position), List.mem_zipIdx_iff_getElem?.mpr hm, ?_⟩⟩
    rw [hname]

/-- A declared method is the routine at its place. -/
theorem exists_routine (h : p.method? m = some decl) :
    ∃ i r, p.routines.findIdx? (Source.isAt m) = some i ∧ p.routines[i]? = some r ∧
      Source.isAt m r = true ∧ r.method = decl ∧ p.routineName? m = some r.name := by
  obtain ⟨c, hc, hdecl⟩ := Option.bind_eq_some_iff.mp h
  have hname : p.routineName? m = some (routineName c.name decl.name) := by
    simp only [Program.routineName?, hc, Option.bind_eq_bind, Option.bind_some, hdecl]
    rfl
  have hmem : ⟨m.owner.toNat, m.position.toNat, c.name, decl⟩ ∈ p.routines :=
    mem_routines_iff.mpr ⟨c, hc, hdecl, rfl⟩
  have hany : p.routines.any (Source.isAt m) = true :=
    List.any_eq_true.mpr ⟨_, hmem, by simp [Source.isAt]⟩
  rw [← List.findIdx?_isSome] at hany
  obtain ⟨i, hi⟩ := Option.isSome_iff_exists.mp hany
  obtain ⟨hlt, hat, -⟩ := List.findIdx?_eq_some_iff_getElem.mp hi
  obtain ⟨c', hc', hdecl', hname'⟩ := mem_routines_iff.mp (List.getElem_mem hlt)
  have hplace := hat
  simp only [Source.isAt, Bool.and_eq_true, beq_iff_eq] at hplace
  rw [hplace.1] at hc'
  rw [hplace.2] at hdecl'
  cases Option.some.inj (hc'.symm.trans hc)
  have hmethod := Option.some.inj (hdecl'.symm.trans hdecl)
  refine ⟨i, p.routines[i], hi, List.getElem?_eq_getElem hlt, hat, hmethod, ?_⟩
  rw [hname, Routine.name, ← hname', hmethod]

private theorem exists_place_method (base : Option Reference) (h : p.method? m = some decl) :
    ∃ i, p.routines.findIdx? (Source.isAt m) = some i ∧
      (Source.routineNames p)[Builtin.routines.length + i]? =
        some (calleeOf p m base).routine := by
  obtain ⟨i, r, hi, hr, -, -, hcallee⟩ := exists_routine h
  refine ⟨i, hi, ?_⟩
  have hroutine : (calleeOf p m base).routine = r.name := by
    rw [calleeOf, h, hcallee]
  have hname : (p.routines.map Routine.name)[i]? = some r.name := by
    rw [List.getElem?_map, hr]
    rfl
  rw [hroutine, ← hname, Source.routineNames, Nat.add_comm]
  rfl

private theorem exists_place {node : Source.CallNode} {name : String}
    (hdeclared : node.isDeclared p) (hname : node.routine? p = some name) :
    ∃ j, node.place? p = some j ∧ (Source.routineNames p)[j]? = some name := by
  cases node with
  | allocation =>
    cases hname
    exact ⟨0, rfl, rfl⟩
  | call callee =>
    cases callee with
    | println =>
      cases hname
      exact ⟨1, rfl, rfl⟩
    | method m =>
      obtain ⟨decl, hdecl⟩ := Option.isSome_iff_exists.mp hdeclared
      obtain ⟨i, hi, hplace⟩ := exists_place_method none hdecl
      exact ⟨_, Option.bind_eq_some_iff.mpr ⟨i, hi, rfl⟩, hplace.trans hname⟩
    | qualified base member =>
      cases member with
      | field f => cases hdeclared
      | method m =>
        obtain ⟨decl, hdecl⟩ := Option.isSome_iff_exists.mp hdeclared
        obtain ⟨i, hi, hplace⟩ := exists_place_method (some base) hdecl
        exact ⟨_, Option.bind_eq_some_iff.mpr ⟨i, hi, rfl⟩, hplace.trans hname⟩
    | this | localName | field | classAt => cases hdeclared

end Places

/-- A call leads to the start of the routine that it refers to. -/
def LandsOn (p : Program) (code : Code) (e : Emitted) (node : Source.CallNode) : Prop :=
  ∃ j name start, node.place? p = some j ∧ code.begun[j]? = some (name, start) ∧
    e.instruction.branchTarget? e.start = some start

/-- Every call of a routine that there is leads to the very one that it refers to, exactly when that
one is not hidden from the caller by another of its name. -/
theorem landsOn_iff_not_hidden {p : Program} {o : Options} {entry : Routine} {code : Code}
    (hentry : entryCandidates p o = [entry]) (hcode : (generate p o).result = .ok code) {k : Nat}
    {nodes : List Source.CallNode} (hk : (Source.programCalls p)[k]? = some nodes) :
    List.Forall₂ (fun e node ↦ node.isDeclared p → ∃ j, node.place? p = some j ∧
        (LandsOn p code e node ↔ ¬Hidden (Source.routineNames p) k j))
      (code.callsIn k) nodes := by
  obtain ⟨parts, hsources, hlinked, -⟩ := exists_linked hentry hcode
  refine (hlinked.leadsTo hsources hk).imp ?_
  rintro e node ⟨name, hname, hleads⟩ hdeclared
  obtain ⟨j, hj, hplace⟩ := exists_place hdeclared hname
  rw [← hlinked.begun_names hsources, List.getElem?_map, Option.map_eq_some_iff] at hplace
  obtain ⟨⟨name, start⟩, hstart, rfl⟩ := hplace
  refine ⟨j, hj, ?_⟩
  rw [← hlinked.begun_names hsources, ← hlinked.branchTarget?_iff hsources hstart hleads]
  constructor
  · rintro ⟨j', name', start', hj', hstart', htarget⟩
    cases hj'.symm.trans hj
    cases hstart'.symm.trans hstart
    exact htarget
  · exact fun htarget ↦ ⟨j, name, start, hj, hstart, htarget⟩

/-- A program in which two methods of a class have the same name, and the entry calls both. -/
def overloadedProgram : Program :=
  let print (e : Expression) : Statement := .call .println [e]
  let n : Parameter := ⟨"n", .int⟩
  let args : Parameter := ⟨"args", .array (.object "String")⟩
  ⟨[⟨"Main", [],
    [⟨"show", .void, true, false, [], [print (.literal (.int 65))]⟩,
    ⟨"show", .void, true, false, [n], [print (.ref (.localName (.param 0)))]⟩,
    ⟨"main", .void, true, false, [args],
      [.call (.method ⟨0, 0⟩) [], .call (.method ⟨0, 1⟩) [.literal (.int 66)],
        print (.literal (.int 67))]⟩]⟩]⟩

/-- The calls of its entry. -/
def overloadedCalls : List Source.CallNode :=
  [.call (.method ⟨0, 0⟩), .call (.method ⟨0, 1⟩), .call .println]

private theorem generate_overloaded :
    ∃ code, (generate overloadedProgram {}).result = .ok code ∧ code.entry.isSome ∧
      code.begun[2]? = some ("Main.show", 80) ∧
      (code.callsIn 4).map (fun e ↦ e.instruction.branchTarget? e.start) =
        [some 106, some 106, some 44] := by
  have hfacts : (generate overloadedProgram {}).result.toOption.map (fun code ↦
      (code.entry.isSome, code.begun[2]?,
        (code.callsIn 4).map fun e ↦ e.instruction.branchTarget? e.start)) =
      some (true, some ("Main.show", 80), [some 106, some 106, some 44]) := by
    decide +kernel
  obtain ⟨code, hcode, hvalues⟩ := exists_ok_of_map hfacts
  obtain ⟨hentry, hrest⟩ := Prod.mk.inj hvalues
  obtain ⟨hbegun, htargets⟩ := Prod.mk.inj hrest
  exact ⟨code, hcode, hentry, hbegun, htargets⟩

/-- A call of the first of two methods of one name lands on the second, and nothing is reported. -/
theorem overloaded_not_landsOn :
    ∃ code, (generate overloadedProgram {}).result = .ok code ∧ code.entry.isSome ∧
      (generate overloadedProgram {}).reporter.diagnostics = [] ∧
      (Source.programCalls overloadedProgram)[4]? = some overloadedCalls ∧
      ¬List.Forall₂ (fun e node ↦ node.isDeclared overloadedProgram →
          LandsOn overloadedProgram code e node)
        (code.callsIn 4) overloadedCalls := by
  obtain ⟨code, hcode, hentry, hbegun, htargets⟩ := generate_overloaded
  refine ⟨code, hcode, hentry, by decide +kernel, rfl, fun h ↦ ?_⟩
  cases hcalls : code.callsIn 4 with
  | nil =>
    rw [hcalls] at htargets
    cases htargets
  | cons e es =>
    rw [hcalls] at htargets h
    obtain ⟨htarget, -⟩ := List.cons.inj htargets
    obtain ⟨j, name, start, hj, hstart, hlands⟩ := (List.forall₂_cons.mp h).1 rfl
    have hplace : 2 = j := Option.some.inj hj
    rw [← hplace, hbegun] at hstart
    rw [← (Prod.mk.inj (Option.some.inj hstart)).2] at hlands
    cases hlands.symm.trans htarget

/-- There the call of the second method lands on it, and so does the call of the built-in
routine. -/
theorem landsOn_overloaded :
    ∃ code e₁ e₂ e₃, (generate overloadedProgram {}).result = .ok code ∧
      code.callsIn 4 = [e₁, e₂, e₃] ∧
      ¬LandsOn overloadedProgram code e₁ (.call (.method ⟨0, 0⟩)) ∧
      LandsOn overloadedProgram code e₂ (.call (.method ⟨0, 1⟩)) ∧
      LandsOn overloadedProgram code e₃ (.call .println) := by
  obtain ⟨code, hcode, -⟩ := generate_overloaded
  have hcalls : (Source.programCalls overloadedProgram)[4]? = some overloadedCalls := rfl
  have h := landsOn_iff_not_hidden rfl hcode hcalls
  generalize hes : code.callsIn 4 = es at h
  cases h with
  | cons h₁ h =>
    cases h with
    | cons h₂ h =>
      cases h with
      | cons h₃ h =>
        cases h
        obtain ⟨j₁, hj₁, hlands₁⟩ := h₁ rfl
        obtain ⟨j₂, hj₂, hlands₂⟩ := h₂ rfl
        obtain ⟨j₃, hj₃, hlands₃⟩ := h₃ rfl
        cases hj₁
        cases hj₂
        cases hj₃
        exact ⟨code, _, _, _, hcode, hes, fun h ↦ hlands₁.mp h (by decide), hlands₂.mpr (by decide),
          hlands₃.mpr (by decide)⟩

end NativeBackend
