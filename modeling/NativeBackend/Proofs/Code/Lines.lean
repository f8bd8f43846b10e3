import NativeBackend.Proofs.Emission.StaticAddresses
import NativeBackend.Proofs.Source.Evaluation

/-!
# Straight-line code

Steps that ask for nothing but instructions and static addresses become these
instructions in order. The steps of every reference, and of every expression without
calls and allocations, are of this kind.
-/

namespace NativeBackend

open Machine NativeBackend.Tree Convention

/-- Whether an instruction is a call. -/
def Machine.Instruction.isCall : Instruction → Bool
  | call _ => true
  | _ => false

/-- Whether a step asks for an instruction that is not a call or for a static address, or for
nothing at all. -/
def Step.isLine : Step → Bool
  | emit i => !i.isCall
  | staticAddress _ | refuse _ => true
  | _ => false

/-- The instructions of steps that ask for nothing but instructions and static addresses, given the
address of the first static field. -/
def straight? (base : UInt64) : List Step → Option (List Instruction)
  | [] => some []
  | .emit i :: steps => (straight? base steps).map (i :: ·)
  | .staticAddress offset :: steps =>
    (straight? base steps).map (.movAbs result (base + UInt64.ofInt offset.toInt) :: ·)
  | _ :: _ => none

section Straight

variable {base : UInt64} {xs ys : List Step} {is : List Instruction}

private theorem straight?_emitAll (is : List Instruction) : straight? base (emitAll is) = some is :=
  by
  induction is with
  | nil => rfl
  | cons i is ih =>
    change (straight? base (emitAll is)).map (i :: ·) = _
    rw [ih]
    rfl

private theorem straight?_append (xs ys : List Step) :
    straight? base (xs ++ ys) =
      (straight? base xs).bind fun is ↦ (straight? base ys).map (is ++ ·) := by
  fun_induction straight? base xs with
  | case1 => simp
  | case2 i xs ih =>
    simp only [List.cons_append, straight?, ih]
    cases straight? base xs <;> cases straight? base ys <;> rfl
  | case3 offset xs ih =>
    simp only [List.cons_append, straight?, ih]
    cases straight? base xs <;> cases straight? base ys <;> rfl
  | case4 x xs h h' => cases x <;> simp_all [straight?]

/-- The instructions of steps in a row are those of both parts. -/
theorem straight?_append_eq_some (h : straight? base (xs ++ ys) = some is) :
    ∃ js ks, straight? base xs = some js ∧ straight? base ys = some ks ∧ is = js ++ ks := by
  rw [straight?_append] at h
  obtain ⟨js, hjs, h⟩ := Option.bind_eq_some_iff.mp h
  obtain ⟨ks, hks, h⟩ := Option.map_eq_some_iff.mp h
  exact ⟨js, ks, hjs, hks, h.symm⟩

/-- Plain instructions behind steps come behind theirs. -/
theorem straight?_append_emitAll {ks : List Instruction}
    (h : straight? base (xs ++ emitAll ks) = some is) :
    ∃ js, straight? base xs = some js ∧ is = js ++ ks := by
  obtain ⟨js, ks', hjs, hks, rfl⟩ := straight?_append_eq_some h
  rw [straight?_emitAll] at hks
  exact ⟨js, hjs, by rw [Option.some.inj hks]⟩

end Straight

/-- Lines that are assembled become their instructions, once the static addresses are filled in. -/
theorem straight?_of_assembled (base : UInt64) {o : Nat} {steps : List Step} {ms : List Marked}
    (h : Assembled o steps ms) (hline : steps.all Step.isLine) :
    straight? base steps = some (ms.map fun m ↦ (m.filled base).entry.instruction) := by
  induction h with
  | nil => rfl
  | emit encoded _ ih =>
    obtain ⟨-, hrest⟩ := Bool.and_eq_true_iff.mp hline
    rw [straight?, ih hrest]
    rfl
  | staticAddress _ ih =>
    obtain ⟨-, hrest⟩ := Bool.and_eq_true_iff.mp hline
    rw [straight?, ih hrest]
    rfl
  | frame | call | undeclared | settle | when | choose | loop =>
    cases hline

/-- Plain instructions without calls are a straight line. -/
theorem isLine_emitAll {is : List Instruction} (h : is.all (!·.isCall)) :
    (emitAll is).all Step.isLine := by
  rw [emitAll, List.all_map]
  exact h

/-- Two straight lines in a row are one. -/
theorem isLine_append {xs ys : List Step} (hx : xs.all Step.isLine) (hy : ys.all Step.isLine) :
    (xs ++ ys).all Step.isLine := by
  rw [List.all_append, hx, hy, Bool.and_self]

private theorem isLine_lowerSlot (offset : Int32) (access : Access) :
    (lowerSlot offset access).all Step.isLine := by
  cases access <;> rfl

private theorem isLine_lowerWord (offset : Int32) (access : Access) :
    (lowerWord offset access).all Step.isLine := by
  cases access with
  | value => rfl
  | address =>
    rw [lowerWord]
    split <;> rfl

private theorem isLine_lowerField (s : Surroundings) (field : FieldRef) {object : List Step}
    (access : Access) (h : object.all Step.isLine) :
    (lowerField s field object access).all Step.isLine := by
  rw [lowerField]
  split
  · rfl
  · exact isLine_lowerWord 0 access
  · exact isLine_append h (isLine_lowerWord _ _)

private theorem isLine_loadReceiver (f : Frame) (field : FieldRef) :
    (loadReceiver f field).all Step.isLine := by
  rw [loadReceiver]
  split <;> rfl

/-- The steps of the receiver are a straight line. -/
theorem isLine_lowerThis (f : Frame) : (lowerThis f).all Step.isLine := by
  rw [lowerThis]
  split <;> rfl

/-- The code of a reference is straight. -/
theorem isLine_lowerReference (s : Surroundings) (f : Frame) (r : Reference) (access : Access) :
    (lowerReference s f r access).all Step.isLine := by
  fun_induction lowerReference s f r access with
  | case1 => rfl
  | case2 => exact isLine_lowerThis f
  | case3 => exact isLine_lowerSlot _ _
  | case4 => rfl
  | case5 => exact isLine_lowerSlot _ _
  | case6 => rfl
  | case7 => exact isLine_lowerField s _ _ (isLine_loadReceiver f _)
  | case8 object field access ih =>
    exact isLine_lowerField s _ _ (isLine_append ih (isLine_emitAll rfl))
  | case9 | case10 | case11 | case12 => rfl

/-- The code of an expression without calls and allocations is straight. -/
theorem isLine_lowerExpression (s : Surroundings) (f : Frame) (e : Expression)
    (h : Source.isPlain e) : (lowerExpression s f e).all Step.isLine := by
  fun_induction Source.isPlain e with
  | case1 value => rfl
  | case2 r => exact isLine_lowerReference s f r .value
  | case3 array i ih =>
    exact isLine_append (isLine_append (isLine_lowerReference s f array _) (ih h))
      (isLine_emitAll rfl)
  | case4 op operand ih =>
    apply isLine_append (ih h)
    apply isLine_emitAll
    cases op <;> rfl
  | case5 op left right ihl ihr =>
    obtain ⟨hl, hr⟩ := Bool.and_eq_true_iff.mp h
    apply isLine_append (isLine_append (ihl hl) (ihr hr))
    apply isLine_emitAll
    cases op <;> rfl
  | case6 | case7 | case8 => cases h

end NativeBackend
