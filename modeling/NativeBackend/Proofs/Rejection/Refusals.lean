import NativeBackend.Proofs.Emission.Leaves
import NativeBackend.Proofs.Layout.FieldPlaces

/-!
# Refused uses

The steps of a routine hold a refusal exactly if its body has a use that is ill-formed or
exceeds a limit.
-/

namespace NativeBackend

open Machine NativeBackend.Tree Convention
open Source (Scope Use)

/-- Whether generation passes a step. -/
def Step.isPassed : Step → Bool
  | refuse _ => false
  | _ => true

/-- Whether a use is well-formed and keeps to the limits. -/
def Source.Use.isAccepted (p : Program) (c : Scope) (u : Use) : Bool :=
  u.isWellFormed p c && u.isWithinLimits p c

section Passed

variable {s : Surroundings} {f : Frame} {xs : List Step}

private theorem isPassed_of_isSilent (x : Step) (h : x.isSilent = true) : x.isPassed = true := by
  cases x with
  | emit | frame | call | settle => rfl
  | staticAddress | undeclared | refuse | «when» | choose | loop => cases h

/-- Silent steps hold no refusal. -/
theorem passed_silent (h : xs.all Step.isSilent) : Each Step.isPassed xs :=
  each_silent isPassed_of_isSilent h

private theorem not_passed_refuseTree (cause : TreeFault) :
    ¬Each Step.isPassed [refuseTree cause] := by
  simp [Each, refuseTree, Step.leaves, Step.isPassed]

private theorem passed_lowerThis : Each Step.isPassed (lowerThis f) ↔ f.hasReceiver = true := by
  cases h : f.hasReceiver with
  | true =>
    simp only [lowerThis, Frame.receiver?, h, if_true, iff_true]
    exact passed_silent rfl
  | false =>
    simp only [lowerThis, Frame.receiver?, h, Bool.false_eq_true, if_false, iff_false]
    exact not_passed_refuseTree _

private theorem passed_loadReceiver (field : FieldRef) :
    Each Step.isPassed (loadReceiver f field) ↔ f.hasReceiver = true := by
  cases h : f.hasReceiver with
  | true =>
    simp only [loadReceiver, Frame.receiver?, h, if_true, iff_true]
    exact passed_silent rfl
  | false =>
    simp only [loadReceiver, Frame.receiver?, h, Bool.false_eq_true, if_false, iff_false]
    exact not_passed_refuseTree _

-- A field has to be there, and so does its object, unless it is a static one.
private theorem passed_lowerField (hlayout : s.layout = .ofProgram s.program) (field : FieldRef)
    (access : Access) :
    Each Step.isPassed (lowerField s field xs access) ↔
      ∃ d, s.program.field? field = some d ∧ (d.isStatic = false → Each Step.isPassed xs) := by
  have hword (offset : Int32) : Each Step.isPassed (lowerWord offset access) :=
    passed_silent (isSilent_lowerWord offset access)
  rw [lowerField, hlayout, slot?_ofProgram]
  cases s.program.field? field with
  | none => simpa using not_passed_refuseTree _
  | some d =>
    cases hd : d.isStatic with
    | true =>
      have hload (offset : Int32) : Each Step.isPassed [.staticAddress offset] := by
        simp [Each, Step.leaves, Step.isPassed]
      simpa [hd] using each_append.mpr ⟨hload _, hword 0⟩
    | false => simp [hd, each_append, hword]

private theorem param?_isSome (f : Frame) (position : Nat) :
    (f.param? position).isSome = true ↔
      position < f.scope.params ∧ f.scope.params ≤ position + 2 ^ 31 := by
  show (f.param? position).isSome = true ↔
    position < f.paramCount ∧ f.paramCount ≤ position + 2 ^ 31
  by_cases h : position < f.paramCount ∧ f.paramCount - 1 - position < 0x80000000
  · rw [Frame.param?, if_pos h]
    simp only [Option.isSome_some, true_iff]
    omega
  · rw [Frame.param?, if_neg h]
    simp only [Option.isSome_none, Bool.false_eq_true, false_iff]
    omega

private theorem local?_isSome (f : Frame) (id : VarId) :
    (f.local? id).isSome = true ↔ id ∈ f.scope.locals := by
  simp [Frame.local?, Frame.scope, List.findIdx?_isSome]

/-- A reference is passed if it has a value that is close enough; what is assigned to must not be
the receiver. -/
theorem passed_lowerReference (hlayout : s.layout = .ofProgram s.program) (r : Reference)
    (access : Access) :
    Each Step.isPassed (lowerReference s f r access) ↔
      (access = .address → r ≠ .this) ∧ Source.hasValue s.program f.scope r = true ∧
        Source.isNear s.program f.scope r = true := by
  fun_induction lowerReference s f r access with
  | case1 => simpa using not_passed_refuseTree _
  | case2 => simp [passed_lowerThis, Source.hasValue, Source.isNear, Source.rootParam?, Frame.scope]
  | case3 position access offset h =>
    have hparam := param?_isSome f position.toNat
    rw [h] at hparam
    simpa [passed_silent (isSilent_lowerSlot offset access), Source.hasValue, Source.isNear,
      Source.rootParam?] using hparam
  | case4 position access h =>
    have hparam := param?_isSome f position.toNat
    rw [h] at hparam
    simpa [not_passed_refuseTree, Source.hasValue, Source.isNear, Source.rootParam?] using hparam
  | case5 id access offset h =>
    have hlocal := local?_isSome f id
    rw [h] at hlocal
    simpa [passed_silent (isSilent_lowerSlot offset access), Source.hasValue, Source.isNear,
      Source.rootParam?] using hlocal
  | case6 id access h =>
    have hlocal := local?_isSome f id
    rw [h] at hlocal
    simpa [not_passed_refuseTree, Source.hasValue, Source.isNear, Source.rootParam?] using hlocal
  | case7 field access =>
    rw [passed_lowerField hlayout, passed_loadReceiver]
    cases hfield : s.program.field? field with
    | none => simp [Source.hasValue, hfield]
    | some d => cases hd : d.isStatic <;>
        simp [Source.hasValue, Source.isNear, Source.rootParam?, Frame.scope, hfield, hd]
  | case8 base field access ih =>
    have hpop : Each Step.isPassed (emitAll [.popReg result]) := passed_silent rfl
    rw [passed_lowerField hlayout, each_append, ih]
    cases hfield : s.program.field? field with
    | none => simp [Source.hasValue, hfield]
    | some d => cases hd : d.isStatic <;>
        simp [Source.hasValue, Source.isNear, Source.rootParam?, hfield, hd, hpop]
  | case9 | case10 | case11 | case12 => simpa [Source.hasValue] using not_passed_refuseTree _

private theorem passed_releaseSteps (words : Nat) :
    Each Step.isPassed (releaseSteps words) ↔ words < 2 ^ 28 := by
  have hfits : wordSize * words < 0x80000000 ↔ words < 2 ^ 28 := by
    simp only [wordSize]
    omega
  by_cases hzero : words = 0
  · simp [releaseSteps, hzero, each_nil]
  by_cases hwords : words < 2 ^ 28
  · simp only [releaseSteps, hzero, hfits, hwords, if_true, if_false, iff_true]
    exact passed_silent rfl
  · simp only [releaseSteps, hzero, hfits, hwords, if_false, iff_false]
    simp [Each, Step.leaves, Step.isPassed]

private theorem passed_lowerCall (hlayout : s.layout = .ofProgram s.program) (r : Reference)
    (count : Nat) :
    Each Step.isPassed (lowerCall s f r xs count) ↔
      Each Step.isPassed xs ∧ (Use.callee r count).isAccepted s.program f.scope = true := by
  cases hc : callee? s.program r with
  | none =>
    have hcallee := (callee?_eq_none_iff s.program).mp hc
    simp only [lowerCall, hc, Use.isAccepted, Use.isWellFormed, Source.isCallable, hcallee]
    simpa using not_passed_refuseTree _
  | some c =>
    have hcallee : Source.isCallee r = true := by
      rw [← Bool.not_eq_false, ← callee?_eq_none_iff s.program, hc]
      exact Option.some_ne_none c
    have hnote : Each Step.isPassed (if c.declared then [] else [.undeclared c.routine]) := by
      split
      · exact each_nil
      · simp [Each, Step.leaves, Step.isPassed]
    have hcall : Each Step.isPassed [.call c.routine] := passed_silent rfl
    have hreceiver : Each Step.isPassed (receiverSteps s f r) ↔
        (Source.receiver? s.program r).all (Source.hasValue s.program f.scope) = true ∧
          (Source.receiver? s.program r).all (Source.isNear s.program f.scope) = true := by
      rw [receiverSteps]
      cases Source.receiver? s.program r with
      | none => simp [each_nil]
      | some b => simp [passed_lowerReference hlayout]
    rw [lowerCall_eq s f xs count hc]
    simp only [each_append, hnote, hcall, hreceiver, passed_releaseSteps, passedCount,
      Use.isAccepted, Use.isWellFormed, Use.isWithinLimits, Source.isCallable, hcallee,
      Bool.and_eq_true, decide_eq_true_eq, true_and, and_true, and_assoc]

/-- Steps hold no refusal if all the uses that they follow are accepted. -/
theorem Follows.passed_iff (hlayout : s.layout = .ofProgram s.program)
    {us : List (Scope × Use)} (h : Follows s xs us) :
    Each Step.isPassed xs ↔ ∀ u ∈ us, u.2.isAccepted s.program u.1 = true := by
  induction h with
  | silent h => simp [passed_silent h]
  | value f r =>
    simp [passed_lowerReference hlayout, Use.isAccepted, Use.isWellFormed, Use.isWithinLimits]
  | target f r =>
    simp [passed_lowerReference hlayout, Use.isAccepted, Use.isWellFormed, Use.isWithinLimits,
      Source.isAssignable, and_assoc]
  | callee f r count _ ih =>
    rw [passed_lowerCall hlayout, ih, List.forall_mem_append, List.forall_mem_singleton]
  | blockEnd c count =>
    simp [passed_releaseSteps, Use.isAccepted, Use.isWellFormed, Use.isWithinLimits]
  | append _ _ ih ih' => rw [each_append, ih, ih', List.forall_mem_append]
  | «when» _ ih => rw [each_when, ih]
  | choose _ _ ih ih' => rw [each_choose, ih, ih', List.forall_mem_append]
  | loop _ _ ih ih' => rw [each_loop, ih, ih', List.forall_mem_append]

end Passed

/-- Steps that became code hold no refusal. -/
theorem Assembled.passed {o : Nat} {xs : List Step} {ms : List Marked} (h : Assembled o xs ms) :
    Each Step.isPassed xs := by
  induction h with
  | nil => exact each_nil
  | emit _ _ ih | frame _ _ ih | call _ ih | staticAddress _ ih | undeclared _ ih | settle _ ih =>
    exact List.forall_mem_cons.mpr ⟨rfl, ih⟩
  | when _ _ _ _ ihbody ih => exact List.forall_mem_append.mpr ⟨ihbody, ih⟩
  | choose _ _ _ _ _ _ _ _ ihyes ihno ih =>
    exact List.forall_mem_append.mpr ⟨List.forall_mem_append.mpr ⟨ihyes, ihno⟩, ih⟩
  | loop _ _ _ _ _ _ _ _ _ ihcond ihbody ih =>
    exact List.forall_mem_append.mpr ⟨List.forall_mem_append.mpr ⟨ihcond, ihbody⟩, ih⟩

/-- The routines of assembled code hold no refusal. -/
theorem passed_sources (parts : List Part) :
    ∀ source ∈ sources parts, Each Step.isPassed source.2 := by
  intro source hs
  obtain ⟨q, -, rfl⟩ := List.mem_map.mp hs
  exact q.assembled.passed

end NativeBackend
