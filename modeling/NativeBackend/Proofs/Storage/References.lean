import NativeBackend.Proofs.Layout.StaticRanks
import NativeBackend.Proofs.Rejection.Refusals

/-!
# References to static fields

Evaluating a reference asks for the address of at most one static field: the reference
is one itself, or a base of it is, or none. The addresses that the steps of a routine
ask for are those of the static fields that its body refers to, in the same order.
-/

namespace NativeBackend

open Machine NativeBackend.Tree Convention
open Source (Scope Use)

namespace Source

/-- The static field at which the evaluation of a reference starts. What qualifies a static field is
not evaluated. -/
def static? (p : Program) : Reference → Option FieldRef
  | .field f => if p.isStaticField f then some f else none
  | .qualified base (.field f) =>
    match p.field? f with
    | none => none
    | some d => if d.isStatic then some f else static? p base
  | _ => none

/-- The static field that a use refers to. -/
def Use.static? (p : Program) : Use → Option FieldRef
  | value r | target r => Source.static? p r
  | callee r _ => (receiver? p r).bind (Source.static? p)
  | blockEnd _ => none

/-- The references of a method to static fields, in the order of evaluation. -/
def methodStatics (p : Program) (m : MethodDecl) : List FieldRef :=
  (methodUses m).filterMap fun u ↦ u.2.static? p

/-- The references of a program to static fields, in the order of its code. -/
def programStatics (p : Program) : List FieldRef :=
  p.routines.flatMap fun r ↦ methodStatics p r.method

private theorem isStaticField_of_static? {p : Program} {r : Reference} {f : FieldRef}
    (h : static? p r = some f) : p.isStaticField f = true := by
  fun_induction static? p r with
  | case1 g hg =>
    cases h
    exact hg
  | case4 base g d hd hstatic =>
    cases h
    exact isStaticField_iff.mpr ⟨d, hd, hstatic⟩
  | case5 base g d hd hstatic ih => exact ih h
  | case2 | case3 | case6 => cases h

/-- What a program refers to as static fields are static fields of it. -/
theorem isStaticField_of_mem {p : Program} {f : FieldRef} (h : f ∈ programStatics p) :
    p.isStaticField f = true := by
  obtain ⟨r, -, hf⟩ := List.mem_flatMap.mp h
  obtain ⟨⟨c, u⟩, -, hu⟩ := List.mem_filterMap.mp hf
  cases u with
  | value r => exact isStaticField_of_static? hu
  | target r => exact isStaticField_of_static? hu
  | callee r count =>
    obtain ⟨b, -, hb⟩ := Option.bind_eq_some_iff.mp hu
    exact isStaticField_of_static? hb
  | blockEnd count => cases hu

end Source

/-- The offset of the static word whose address a step asks for. -/
def Step.static? : Step → Option Int32
  | staticAddress offset => some offset
  | _ => none

/-- The offsets of the static words whose addresses steps ask for. -/
def staticOffsets (xs : List Step) : List Int32 := (leaves xs).filterMap Step.static?

/-- The offset of the word of a static field in the static area. -/
def fieldOffset (p : Program) (f : FieldRef) : Int32 := slotOffset (p.staticRank f)

section Offsets

variable {s : Surroundings} {f : Frame} {xs ys : List Step}

@[simp] private theorem staticOffsets_append :
    staticOffsets (xs ++ ys) = staticOffsets xs ++ staticOffsets ys := by
  rw [staticOffsets, leaves_append, List.filterMap_append]
  rfl

private theorem staticOffsets_silent (h : xs.all Step.isSilent) : staticOffsets xs = [] := by
  rw [staticOffsets, leaves_silent h, List.filterMap_eq_nil_iff]
  intro x hx
  have hsilent := List.all_eq_true.mp h x hx
  cases x with
  | emit | frame | call | settle => rfl
  | staticAddress | undeclared | refuse | «when» | choose | loop => cases hsilent

-- A static field is asked for itself, and for any other one its object may be.
private theorem staticOffsets_lowerField (hlayout : s.layout = .ofProgram s.program)
    (field : FieldRef) (access : Access) :
    staticOffsets (lowerField s field xs access) =
      match s.program.field? field with
      | none => []
      | some d => if d.isStatic then [fieldOffset s.program field] else staticOffsets xs := by
  have hword (offset : Int32) : staticOffsets (lowerWord offset access) = [] :=
    staticOffsets_silent (isSilent_lowerWord offset access)
  rw [lowerField, hlayout, slot?_ofProgram]
  cases s.program.field? field with
  | none => rfl
  | some d =>
    cases hd : d.isStatic with
    | true =>
      simp only [Option.map_some, hd, if_true]
      exact congrArg (_ :: ·) (hword 0)
    | false => simp [hd, hword]

/-- A reference asks for the static field at which its evaluation starts. -/
theorem staticOffsets_lowerReference (hlayout : s.layout = .ofProgram s.program) (r : Reference)
    (access : Access) :
    staticOffsets (lowerReference s f r access) =
      ((Source.static? s.program r).map (fieldOffset s.program)).toList := by
  fun_induction lowerReference s f r access with
  | case1 | case4 | case6 | case9 | case10 | case11 | case12 => rfl
  | case2 =>
    rw [lowerThis]
    split <;> rfl
  | case3 => exact staticOffsets_silent (isSilent_lowerSlot _ _)
  | case5 => exact staticOffsets_silent (isSilent_lowerSlot _ _)
  | case7 field access =>
    have hobject : staticOffsets (loadReceiver f field) = [] := by
      rw [loadReceiver]
      split <;> rfl
    rw [staticOffsets_lowerField hlayout, Source.static?, Program.isStaticField, hobject]
    cases s.program.field? field with
    | none => rfl
    | some d => cases hd : d.isStatic <;> simp [hd]
  | case8 base field access ih =>
    have hpop : staticOffsets (emitAll [.popReg result]) = [] := rfl
    rw [staticOffsets_lowerField hlayout, Source.static?, staticOffsets_append, ih, hpop]
    cases s.program.field? field with
    | none => rfl
    | some d => cases hd : d.isStatic <;> simp [hd]

private theorem staticOffsets_releaseSteps (words : Nat) :
    staticOffsets (releaseSteps words) = [] := by
  rw [releaseSteps]
  split
  · rfl
  · split <;> rfl

private theorem staticOffsets_receiverSteps (hlayout : s.layout = .ofProgram s.program)
    (r : Reference) (count : Nat) :
    staticOffsets (receiverSteps s f r) =
      (((Use.callee r count).static? s.program).map (fieldOffset s.program)).toList := by
  rw [receiverSteps, Use.static?]
  cases Source.receiver? s.program r with
  | none => rfl
  | some b => exact staticOffsets_lowerReference hlayout b .value

private theorem staticOffsets_lowerCall (hlayout : s.layout = .ofProgram s.program)
    (r : Reference) (count : Nat) (h : Each Step.isPassed (lowerCall s f r xs count)) :
    Each Step.isPassed xs ∧ staticOffsets (lowerCall s f r xs count) = staticOffsets xs ++
      (((Use.callee r count).static? s.program).map (fieldOffset s.program)).toList := by
  cases hc : callee? s.program r with
  | none =>
    simp only [lowerCall, hc] at h
    exact absurd (h _ (List.mem_singleton_self _)) Bool.false_ne_true
  | some c =>
    have hnote : staticOffsets (if c.declared then [] else [.undeclared c.routine]) = [] := by
      split <;> rfl
    have hcall : staticOffsets [.call c.routine] = [] := rfl
    rw [lowerCall_eq s f xs count hc] at h ⊢
    simp only [each_append] at h
    refine ⟨h.1.1.1.2, ?_⟩
    simp only [staticOffsets_append, hnote, hcall, staticOffsets_releaseSteps,
      staticOffsets_receiverSteps hlayout r count, List.nil_append, List.append_nil]

/-- Steps that are passed ask for the static fields of the uses that they follow. -/
theorem Follows.staticOffsets_eq (hlayout : s.layout = .ofProgram s.program)
    {us : List (Scope × Use)} (h : Follows s xs us) (hpassed : Each Step.isPassed xs) :
    staticOffsets xs =
      (us.filterMap fun u ↦ u.2.static? s.program).map (fieldOffset s.program) := by
  have hsingle (c : Scope) (u : Use) :
      ([(c, u)].filterMap fun u ↦ u.2.static? s.program).map (fieldOffset s.program) =
        ((u.static? s.program).map (fieldOffset s.program)).toList := by
    cases h : u.static? s.program <;> simp [h]
  induction h with
  | silent h => exact staticOffsets_silent h
  | value f r => rw [hsingle, staticOffsets_lowerReference hlayout, Use.static?]
  | target f r => rw [hsingle, staticOffsets_lowerReference hlayout, Use.static?]
  | callee f r count _ ih =>
    obtain ⟨hargs, hoffsets⟩ := staticOffsets_lowerCall hlayout r count hpassed
    rw [hoffsets, ih hargs, List.filterMap_append, List.map_append, hsingle]
  | blockEnd c count => exact staticOffsets_releaseSteps count
  | append _ _ ih ih' =>
    obtain ⟨hfirst, hsecond⟩ := each_append.mp hpassed
    rw [staticOffsets_append, ih hfirst, ih' hsecond, List.filterMap_append, List.map_append]
  | «when» _ ih =>
    rw [← ih (each_when.mp hpassed), staticOffsets, staticOffsets]
    simp [Step.leaves]
  | choose _ _ ih ih' =>
    obtain ⟨hyes, hno⟩ := each_choose.mp hpassed
    rw [List.filterMap_append, List.map_append, ← ih hyes, ← ih' hno, staticOffsets]
    simp [Step.leaves, staticOffsets]
  | loop _ _ ih ih' =>
    obtain ⟨hcond, hbody⟩ := each_loop.mp hpassed
    rw [List.filterMap_append, List.map_append, ← ih hcond, ← ih' hbody, staticOffsets]
    simp [Step.leaves, staticOffsets]

end Offsets

/-- The steps of all routines ask for the static fields that the program refers to. The built-in
ones ask for none. -/
theorem staticOffsets_routineSteps {p : Program} {entry : Routine}
    (hpassed : ∀ source ∈ routineSteps p entry, Each Step.isPassed source.2) :
    (routineSteps p entry).flatMap (fun source ↦ staticOffsets source.2) =
      (Source.programStatics p).map (fieldOffset p) := by
  obtain ⟨-, hroutines⟩ := List.forall_mem_append.mp hpassed
  have hbuiltins : (Builtin.routines.map fun b ↦ (b.1, b.2.map Step.frame)).flatMap
      (fun source ↦ staticOffsets source.2) = [] := by
    rw [List.flatMap_map, List.flatMap_eq_nil_iff]
    exact fun b hb ↦ staticOffsets_silent (isSilent_builtins b hb)
  rw [routineSteps, List.flatMap_append, hbuiltins, List.nil_append, Source.programStatics,
    List.flatMap_map, List.map_flatMap]
  refine List.flatMap_congr fun r hr ↦ ?_
  exact (follows_lowerMethod _ r.method).staticOffsets_eq rfl (hroutines _ (List.mem_map_of_mem hr))

end NativeBackend
