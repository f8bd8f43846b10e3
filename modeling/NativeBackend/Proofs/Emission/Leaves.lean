import NativeBackend.Proofs.Emission.WholeProgram
import NativeBackend.Proofs.Layout.FieldPlaces
import NativeBackend.Proofs.Layout.FrameSlots
import NativeBackend.Proofs.OperandStack.Balance
import NativeBackend.Proofs.Source.Uses

/-!
# Steps and uses

The steps of a routine follow what its body uses: each use has steps of its own, and all
others are silent. Whatever is to be known of the steps of a routine, apart from the
branches around them, is then known from the steps of a use.

Every instruction among the steps can be encoded and none loads an address, no word of the
static area lies before its start, and a refusal has to do with the tree or its size.
-/

namespace NativeBackend

open Machine NativeBackend.Tree Convention
open Source (Scope Use)

mutual

/-- A step, or the steps that it branches around. -/
def Step.leaves : Step → List Step
  | .emit i => [.emit i]
  | .frame i => [.frame i]
  | .call routine => [.call routine]
  | .staticAddress offset => [.staticAddress offset]
  | .undeclared routine => [.undeclared routine]
  | .refuse fault => [.refuse fault]
  | .settle live => [.settle live]
  | .when body => leaves body
  | .choose yes no => leaves yes ++ leaves no
  | .loop cond body => leaves cond ++ leaves body

/-- Steps with all branches taken apart, in order. -/
def leaves : List Step → List Step
  | [] => []
  | x :: xs => x.leaves ++ leaves xs

end

/-- Every step passes a test, apart from branches around others. -/
def Each (test : Step → Bool) (xs : List Step) : Prop := ∀ x ∈ leaves xs, test x = true

/-- Whether an instruction loads an address. -/
def Machine.Instruction.isLoad : Instruction → Bool
  | movAbs _ _ => true
  | _ => false

/-- Whether an instruction can be encoded and loads no address. -/
def Machine.Instruction.isSound (i : Instruction) : Bool := i.encode.isOk && !i.isLoad

namespace Step

/-- Whether a step stands for nothing that a routine body uses. -/
def isSilent : Step → Bool
  | emit i | frame i => i.isSound
  | call _ | settle _ => true
  | _ => false

/-- Whether the instruction of a step is sound, its word lies in the static area, or its refusal has
to do with the tree or its size. -/
def isSound : Step → Bool
  | emit i | frame i => i.isSound
  | staticAddress offset => 0 ≤ offset
  | refuse fault => fault.internal?.isSome
  | _ => true

end Step

section Leaves

variable {test : Step → Bool} {xs ys : List Step}

@[simp] private theorem leaves_nil : leaves [] = [] := rfl

/-- The leaves of steps are those of the first step and of the rest. -/
@[simp] theorem leaves_cons (x : Step) (xs : List Step) :
    leaves (x :: xs) = x.leaves ++ leaves xs := rfl

/-- The leaves of steps in a row are those of both parts. -/
@[simp] theorem leaves_append (xs ys : List Step) : leaves (xs ++ ys) = leaves xs ++ leaves ys := by
  induction xs with
  | nil => rfl
  | cons x xs ih => simp [ih]

/-- Silent steps are their own leaves. -/
theorem leaves_silent (h : xs.all Step.isSilent) : leaves xs = xs := by
  induction xs with
  | nil => rfl
  | cons x xs ih =>
    simp only [List.all_cons, Bool.and_eq_true] at h
    rw [leaves_cons, ih h.2]
    cases x with
    | emit | frame | call | settle => rfl
    | staticAddress | undeclared | refuse | «when» | choose | loop => cases h.1

/-- No step fails a test where there is none. -/
theorem each_nil : Each test [] := fun _ hx ↦ nomatch hx

/-- All steps in a row pass a test if those of both parts do. -/
theorem each_append : Each test (xs ++ ys) ↔ Each test xs ∧ Each test ys := by
  simp only [Each, leaves_append, List.forall_mem_append]

/-- Steps under a condition pass a test by themselves. -/
theorem each_when : Each test [.when xs] ↔ Each test xs := by
  simp only [Each, leaves_cons, leaves_nil, Step.leaves, List.append_nil]

/-- A choice passes a test if both its parts do. -/
theorem each_choose : Each test [.choose xs ys] ↔ Each test xs ∧ Each test ys := by
  simp only [Each, leaves_cons, leaves_nil, Step.leaves, List.append_nil, List.forall_mem_append]

/-- A loop passes a test if its condition and its body do. -/
theorem each_loop : Each test [.loop xs ys] ↔ Each test xs ∧ Each test ys := by
  simp only [Each, leaves_cons, leaves_nil, Step.leaves, List.append_nil, List.forall_mem_append]

/-- A test that silent steps pass. -/
theorem each_silent (htest : ∀ x, x.isSilent = true → test x = true)
    (h : xs.all Step.isSilent) : Each test xs := by
  intro x hx
  rw [leaves_silent h] at hx
  exact htest x (List.all_eq_true.mp h x hx)

end Leaves

/-- What names stand for in a frame. -/
def Frame.scope (f : Frame) : Scope := ⟨!f.hasReceiver, f.paramCount, f.locals⟩

@[simp] private theorem Frame.scope_ofMethod (m : MethodDecl) :
    (Frame.ofMethod m).scope = Scope.ofMethod m := by
  simp [scope, ofMethod, Scope.ofMethod]

@[simp] private theorem Frame.scope_after (f : Frame) (st : Statement) :
    (f.after st).scope = f.scope.after st := by
  cases st with
  | declare | block | assign | assignElement | call | giveBack | branch | loop => rfl

private theorem Frame.live_foldl_after (f : Frame) (sts : List Statement) :
    (sts.foldl Frame.after f).live = f.live + sts.countP Source.isDeclaration := by
  induction sts generalizing f with
  | nil => rfl
  | cons st sts ih =>
    rw [List.foldl_cons, ih, List.countP_cons]
    cases st with
    | declare =>
      simp only [Frame.after, Frame.live_declare, Source.isDeclaration, if_true]
      omega
    | block | assign | assignElement | call | giveBack | branch | loop => rfl

/-- Steps with the uses that they stand for, in order. -/
inductive Follows (s : Surroundings) : List Step → List (Scope × Use) → Prop
  | silent {xs : List Step} (h : xs.all Step.isSilent) : Follows s xs []
  | value (f : Frame) (r : Reference) :
      Follows s (lowerReference s f r .value) [(f.scope, .value r)]
  | target (f : Frame) (r : Reference) :
      Follows s (lowerReference s f r .address) [(f.scope, .target r)]
  | callee (f : Frame) (r : Reference) (count : Nat) {xs : List Step} {us : List (Scope × Use)}
      (args : Follows s xs us) :
      Follows s (lowerCall s f r xs count) (us ++ [(f.scope, .callee r count)])
  | blockEnd (c : Scope) (count : Nat) : Follows s (releaseSteps count) [(c, .blockEnd count)]
  | append {xs ys : List Step} {us vs : List (Scope × Use)} (first : Follows s xs us)
      (second : Follows s ys vs) : Follows s (xs ++ ys) (us ++ vs)
  | when {xs : List Step} {us : List (Scope × Use)} (body : Follows s xs us) :
      Follows s [.when xs] us
  | choose {xs ys : List Step} {us vs : List (Scope × Use)} (yes : Follows s xs us)
      (no : Follows s ys vs) : Follows s [.choose xs ys] (us ++ vs)
  | loop {xs ys : List Step} {us vs : List (Scope × Use)} (cond : Follows s xs us)
      (body : Follows s ys vs) : Follows s [.loop xs ys] (us ++ vs)

section Lowering

variable (s : Surroundings) {xs ys : List Step} {us : List (Scope × Use)}

private theorem Follows.then_silent {s : Surroundings} (h : Follows s xs us)
    (hys : ys.all Step.isSilent) : Follows s (xs ++ ys) us := by
  simpa using h.append (.silent hys)

private theorem isSilent_binaryInstructions (op : BinaryOp) :
    (emitAll ([.popReg scratch, .popReg result] ++ binaryInstructions op)).all Step.isSilent := by
  cases op with
  | add | sub | and | or | mul | div | eq | ne | lt | le | gt | ge => rfl

private theorem isSilent_unaryInstruction (op : UnaryOp) :
    (emitAll [.popReg result, unaryInstruction op, .pushReg result]).all Step.isSilent := by
  cases op with
  | not | neg => rfl

private theorem isSilent_leaveSteps : (leaveSteps s).all Step.isSilent := by
  unfold leaveSteps
  cases s.isEntry with
  | true | false => rfl

mutual

/-- The steps of an expression follow its uses. -/
theorem follows_lowerExpression (f : Frame) : (e : Expression) →
    Follows s (lowerExpression s f e) ((Source.expressionUses e).map (f.scope, ·))
  | .literal _ | .newObject _ => .silent rfl
  | .ref r => .value f r
  | .index array i =>
    ((Follows.value f array).append (follows_lowerExpression f i)).then_silent rfl
  | .unary op operand =>
    (follows_lowerExpression f operand).then_silent (isSilent_unaryInstruction op)
  | .binary op left right => by
    rw [Source.expressionUses, List.map_append]
    exact ((follows_lowerExpression f left).append (follows_lowerExpression f right)).then_silent
      (isSilent_binaryInstructions op)
  | .call callee args => by
    rw [Source.expressionUses, List.map_append]
    exact (Follows.callee f callee args.length (follows_lowerArguments f args)).then_silent rfl
  | .newArray _ size => (follows_lowerExpression f size).then_silent rfl

/-- So do the steps of arguments. -/
theorem follows_lowerArguments (f : Frame) : (args : List Expression) →
    Follows s (lowerArguments s f args) ((Source.argumentUses args).map (f.scope, ·))
  | [] => .silent rfl
  | e :: es => by
    rw [Source.argumentUses, List.map_append]
    exact (follows_lowerExpression f e).append (follows_lowerArguments f es)

end

private theorem follows_lowerCondition (f : Frame) (cond : Expression) :
    Follows s (lowerCondition s f cond) ((Source.expressionUses cond).map (f.scope, ·)) :=
  (follows_lowerExpression s f cond).then_silent rfl

private theorem isSilent_releaseSteps {words : Nat} (h : words ≤ 1) :
    (releaseSteps words).all Step.isSilent := by
  match words, h with
  | 0, _ | 1, _ => rfl

-- A statement in a scope of its own has at most one word to take off.
private theorem follows_scopedSteps {f : Frame} {st : Statement}
    (h : Follows s (lowerStatement s f st).1 us) : Follows s (scopedSteps s f st) us := by
  obtain ⟨new, hnew, hlength⟩ := f.after_eq_extended st
  have hdeclared : Source.declared st ≤ 1 := by
    cases st with
    | declare => exact Nat.le_refl 1
    | block | assign | assignElement | call | giveBack | branch | loop => exact Nat.zero_le 1
  refine h.then_silent (isSilent_releaseSteps ?_)
  rw [lowerStatement_frame, hnew, Frame.beyond_extended, hlength]
  exact hdeclared

mutual

/-- The steps of a statement follow its uses. -/
theorem follows_lowerStatement : (st : Statement) → (f : Frame) →
    Follows s (lowerStatement s f st).1 (Source.statementUses f.scope st)
  | .block body, f => by
    have hcount : (lowerStatements s f body).2.beyond f.live =
        body.countP Source.isDeclaration := by
      rw [Frame.beyond, lowerStatements_frame, Frame.live_foldl_after, Nat.add_sub_cancel_left]
    have hbody := (follows_lowerStatements body f).append
      (.blockEnd f.scope (body.countP Source.isDeclaration))
    rw [← hcount] at hbody
    rw [Source.statementUses, ← hcount]
    exact hbody.then_silent rfl
  | .declare decl init, f => by
    have hslot : Follows s [.emit (.pushImm 0)] [] := .silent rfl
    exact ((hslot.append (follows_lowerExpression s (f.declare decl.id) init)).then_silent
      rfl).then_silent rfl
  | .assign target value, f =>
    (((Follows.target f target).append (follows_lowerExpression s f value)).then_silent
      rfl).then_silent rfl
  | .assignElement array i value, f => by
    rw [Source.statementUses, List.map_cons, List.map_append]
    exact ((((Follows.value f array).append (follows_lowerExpression s f i)).append
      (follows_lowerExpression s f value)).then_silent rfl).then_silent rfl
  | .call callee args, f => by
    rw [Source.statementUses, List.map_append]
    exact (Follows.callee f callee args.length (follows_lowerArguments s f args)).then_silent rfl
  | .giveBack none, f => (Follows.silent (isSilent_leaveSteps s)).then_silent rfl
  | .giveBack (some value), f =>
    (((follows_lowerExpression s f value).then_silent rfl).then_silent
      (isSilent_leaveSteps s)).then_silent rfl
  | .branch cond yes none, f => by
    rw [lowerStatement_when]
    exact ((follows_lowerCondition s f cond).append
      (.when (follows_scopedSteps s (follows_lowerStatement yes f)))).then_silent rfl
  | .branch cond yes (some no), f => by
    rw [lowerStatement_choose]
    exact ((follows_lowerCondition s f cond).append
      (.choose (follows_scopedSteps s (follows_lowerStatement yes f))
        (follows_scopedSteps s (follows_lowerStatement no f)))).then_silent rfl
  | .loop cond body, f => by
    rw [lowerStatement_loop]
    exact (Follows.loop (follows_lowerCondition s f cond)
      (follows_scopedSteps s (follows_lowerStatement body f))).then_silent rfl

/-- So do the steps of statements in order. -/
theorem follows_lowerStatements : (sts : List Statement) → (f : Frame) →
    Follows s (lowerStatements s f sts).1 (Source.bodyUses f.scope sts)
  | [], _ => .silent rfl
  | st :: sts, f => by
    have hrest := follows_lowerStatements sts (f.after st)
    rw [Frame.scope_after, ← lowerStatement_frame s f st] at hrest
    exact (follows_lowerStatement st f).append hrest

end

/-- The steps of a routine follow the uses of its method. -/
theorem follows_lowerMethod (m : MethodDecl) :
    Follows s (lowerMethod s m) (Source.methodUses m) := by
  have hbody := follows_lowerStatements s m.body (.ofMethod m)
  rw [Frame.scope_ofMethod] at hbody
  exact ((Follows.silent rfl).append hbody).then_silent (isSilent_leaveSteps s)

end Lowering

section Calls

variable (s : Surroundings) (f : Frame) {r : Reference} {m : MethodRef} {base : Option Reference}

/-- The steps that push the receiver of a call, if there is one. -/
def receiverSteps (r : Reference) : List Step :=
  (Source.receiver? s.program r).elim [] fun b ↦ lowerReference s f b .value

/-- The words that a call with a count of arguments passes. -/
def passedCount (p : Program) (r : Reference) (count : Nat) : Nat :=
  count + (Source.receiver? p r).elim 0 fun _ ↦ 1

/-- A method is called by itself or on a base. -/
theorem calledMethod?_cases (h : calledMethod? r = some (m, base)) :
    (r = .method m ∧ base = none) ∨ ∃ b, r = .qualified b (.method m) ∧ base = some b := by
  unfold calledMethod? at h
  split at h
  · obtain ⟨rfl, rfl⟩ := Prod.mk.inj (Option.some.inj h)
    exact .inl ⟨rfl, rfl⟩
  · obtain ⟨rfl, rfl⟩ := Prod.mk.inj (Option.some.inj h)
    exact .inr ⟨_, rfl, rfl⟩
  · cases h

private theorem routineName?_isSome (p : Program) (m : MethodRef) :
    (p.routineName? m).isSome = (p.method? m).isSome := by
  unfold Program.routineName? Program.method?
  cases p.class? m.owner with
  | none => rfl
  | some owner =>
    simp only [Option.bind_eq_bind, Option.bind_some]
    cases owner.methods[m.position.toNat]? with
    | none | some => rfl

/-- The receiver that a call of a method passes. -/
theorem receiver_calleeOf (h : calledMethod? r = some (m, base)) :
    lowerReceiver s f (calleeOf s.program m base).receiver = receiverSteps s f r ∧
      (calleeOf s.program m base).receiver.words = passedCount s.program r 0 := by
  have hsome := routineName?_isSome s.program m
  unfold calleeOf receiverSteps passedCount
  cases hm : s.program.method? m with
  | none =>
    obtain ⟨rfl, rfl⟩ | ⟨b, rfl, rfl⟩ := calledMethod?_cases h
    · simp [Source.receiver?, hm, lowerReceiver, Receiver.words]
    · simp [Source.receiver?, hm, lowerReceiver, Receiver.words]
  | some decl =>
    rw [hm] at hsome
    obtain ⟨name, hname⟩ := Option.isSome_iff_exists.mp hsome
    rw [hname]
    obtain ⟨rfl, rfl⟩ | ⟨b, rfl, rfl⟩ := calledMethod?_cases h
    · cases hstatic : decl.isStatic <;>
        simp [Source.receiver?, hm, hstatic, lowerReceiver, lowerReference, Receiver.words]
    · cases hstatic : decl.isStatic <;>
        simp [Source.receiver?, hm, hstatic, lowerReceiver, Receiver.words]

/-- The steps of a call: its arguments and its receiver are pushed, and taken off again. -/
theorem lowerCall_eq {c : Callee} (args : List Step) (count : Nat)
    (h : callee? s.program r = some c) :
    lowerCall s f r args count =
      (if c.declared then [] else [.undeclared c.routine]) ++ args ++ receiverSteps s f r
        ++ [.call c.routine] ++ releaseSteps (passedCount s.program r count) := by
  have hreceiver : lowerReceiver s f c.receiver = receiverSteps s f r ∧
      c.receiver.words = passedCount s.program r 0 := by
    unfold callee? at h
    split at h
    · obtain rfl := Option.some.inj h
      exact ⟨rfl, rfl⟩
    · obtain ⟨⟨m, base⟩, hm, rfl⟩ := Option.map_eq_some_iff.mp h
      exact receiver_calleeOf s f hm
  simp only [lowerCall, h, hreceiver, passedCount, Nat.zero_add]

/-- There is a callee if the reference stands for something to call. -/
theorem callee?_eq_none_iff (p : Program) : callee? p r = none ↔ Source.isCallee r = false := by
  cases r with
  | qualified base member => cases member with
    | field | method => simp [callee?, calledMethod?, Source.isCallee]
  | println | method | this | localName | field | classAt =>
    simp [callee?, calledMethod?, Source.isCallee]

end Calls

/-- The steps of a slot of the frame are silent. -/
theorem isSilent_lowerSlot (offset : Int32) (access : Access) :
    (lowerSlot offset access).all Step.isSilent := by
  cases access with
  | value | address => rfl

/-- The steps of a word in the result register are silent. -/
theorem isSilent_lowerWord (offset : Int32) (access : Access) :
    (lowerWord offset access).all Step.isSilent := by
  cases access with
  | value => rfl
  | address =>
    by_cases h : offset = 0
    · simp only [lowerWord, h, if_true]
      rfl
    · simp only [lowerWord, h, if_false]
      rfl

/-- The built-in routines are silent. -/
theorem isSilent_builtins : ∀ b ∈ Builtin.routines, (b.2.map Step.frame).all Step.isSilent := by
  decide

section Soundness

variable (s : Surroundings) (f : Frame) {xs : List Step}

private theorem isSound_of_isSilent (x : Step) (h : x.isSilent = true) : x.isSound = true := by
  cases x with
  | emit | frame => exact h
  | call | settle => rfl
  | staticAddress | undeclared | refuse | «when» | choose | loop => cases h

private theorem sound_silent (h : xs.all Step.isSilent) : Each Step.isSound xs :=
  each_silent isSound_of_isSilent h

private theorem sound_single {x : Step} (hleaf : x.leaves = [x]) (h : x.isSound = true) :
    Each Step.isSound [x] := by
  simpa [Each, hleaf] using h

private theorem slotOffset_nonneg (slot : Nat) : 0 ≤ slotOffset slot := by
  rw [Int32.le_iff_toInt_le, toInt_slotOffset_eq_min]
  exact Int.natCast_nonneg _

private theorem nonneg_of_slot? {p : Program} {field : FieldRef} {offset : Int32}
    (h : (FieldLayout.ofProgram p).slot? field = some (.inStatics offset)) : 0 ≤ offset := by
  rw [slot?_ofProgram] at h
  obtain ⟨d, -, hslot⟩ := Option.map_eq_some_iff.mp h
  split at hslot
  · cases hslot
    exact slotOffset_nonneg _
  · cases hslot

private theorem sound_lowerField (hlayout : s.layout = .ofProgram s.program) (field : FieldRef)
    (access : Access) (h : Each Step.isSound xs) :
    Each Step.isSound (lowerField s field xs access) := by
  rw [lowerField]
  split
  · exact sound_single rfl rfl
  · next offset hslot =>
    rw [hlayout] at hslot
    exact each_append.mpr ⟨sound_single (x := .staticAddress offset) rfl
      (decide_eq_true (nonneg_of_slot? hslot)), sound_silent (isSilent_lowerWord 0 access)⟩
  · exact each_append.mpr ⟨h, sound_silent (isSilent_lowerWord _ access)⟩

private theorem sound_lowerReference (hlayout : s.layout = .ofProgram s.program) (r : Reference)
    (access : Access) : Each Step.isSound (lowerReference s f r access) := by
  fun_induction lowerReference s f r access with
  | case1 => exact sound_single rfl rfl
  | case2 =>
    rw [lowerThis]
    split
    · exact sound_silent rfl
    · exact sound_single rfl rfl
  | case3 => exact sound_silent (isSilent_lowerSlot _ _)
  | case4 => exact sound_single rfl rfl
  | case5 => exact sound_silent (isSilent_lowerSlot _ _)
  | case6 => exact sound_single rfl rfl
  | case7 field access =>
    apply sound_lowerField s hlayout
    rw [loadReceiver]
    split
    · exact sound_silent rfl
    · exact sound_single rfl rfl
  | case8 object field access ih =>
    exact sound_lowerField s hlayout field access (each_append.mpr ⟨ih, sound_silent rfl⟩)
  | case9 | case10 | case11 | case12 => exact sound_single rfl rfl

private theorem sound_releaseSteps (words : Nat) : Each Step.isSound (releaseSteps words) := by
  rw [releaseSteps]
  split
  · exact each_nil
  · split
    · exact sound_silent rfl
    · exact sound_single rfl rfl

private theorem sound_lowerCall (hlayout : s.layout = .ofProgram s.program) (r : Reference)
    (count : Nat) (h : Each Step.isSound xs) : Each Step.isSound (lowerCall s f r xs count) := by
  cases hc : callee? s.program r with
  | none =>
    simp only [lowerCall, hc]
    exact sound_single rfl rfl
  | some c =>
    have hnote : Each Step.isSound (if c.declared then [] else [.undeclared c.routine]) := by
      split
      · exact each_nil
      · exact sound_single rfl rfl
    have hreceiver : Each Step.isSound (receiverSteps s f r) := by
      rw [receiverSteps]
      cases Source.receiver? s.program r with
      | none => exact each_nil
      | some b => exact sound_lowerReference s f hlayout b .value
    rw [lowerCall_eq s f xs count hc]
    simp only [each_append]
    exact ⟨⟨⟨⟨hnote, h⟩, hreceiver⟩, sound_silent rfl⟩, sound_releaseSteps _⟩

variable {s}

/-- Steps that follow uses are sound, where fields have the slots of their program. -/
theorem Follows.sound {us : List (Scope × Use)} (h : Follows s xs us)
    (hlayout : s.layout = .ofProgram s.program) : Each Step.isSound xs := by
  induction h with
  | silent h => exact sound_silent h
  | value f r => exact sound_lowerReference s f hlayout r .value
  | target f r => exact sound_lowerReference s f hlayout r .address
  | callee f r count _ ih => exact sound_lowerCall s f hlayout r count ih
  | blockEnd c count => exact sound_releaseSteps count
  | append _ _ ih ih' => exact each_append.mpr ⟨ih, ih'⟩
  | «when» _ ih => exact each_when.mpr ih
  | choose _ _ ih ih' => exact each_choose.mpr ⟨ih, ih'⟩
  | loop _ _ ih ih' => exact each_loop.mpr ⟨ih, ih'⟩

/-- The steps of every routine are sound, those of the built-in ones included. -/
theorem sound_routineSteps {p : Program} {entry : Routine} {source : String × List Step}
    (h : source ∈ routineSteps p entry) : Each Step.isSound source.2 := by
  obtain h | h := List.mem_append.mp h
  · obtain ⟨b, hb, rfl⟩ := List.mem_map.mp h
    exact sound_silent (isSilent_builtins b hb)
  · obtain ⟨r, -, rfl⟩ := List.mem_map.mp h
    exact (follows_lowerMethod _ r.method).sound rfl

private theorem Assembled.staticAddress_mem {o : Nat} {ms : List Marked} (h : Assembled o xs ms)
    {m : Marked} (hm : m ∈ ms) {offset : Int32} (hpurpose : m.purpose = .static offset) :
    .staticAddress offset ∈ leaves xs := by
  induction h with
  | nil => cases hm
  | emit _ _ ih | frame _ _ ih | call _ ih =>
    obtain rfl | hm := List.mem_cons.mp hm
    · cases hpurpose
    · exact List.mem_cons_of_mem _ (ih hm)
  | staticAddress _ ih =>
    obtain rfl | hm := List.mem_cons.mp hm
    · cases hpurpose
      exact List.mem_cons_self
    · exact List.mem_cons_of_mem _ (ih hm)
  | undeclared _ ih | settle _ ih => exact List.mem_cons_of_mem _ (ih hm)
  | «when» _ _ _ _ ihbody ih =>
    obtain rfl | hm := List.mem_cons.mp hm
    · cases hpurpose
    · exact List.mem_append.mpr ((List.mem_append.mp hm).imp ihbody ih)
  | choose _ _ _ _ _ _ _ _ ihyes ihno ih =>
    simp only [List.mem_cons, List.mem_append] at hm
    simp only [leaves_cons, Step.leaves, List.mem_append]
    obtain rfl | hm | rfl | hm | hm := hm
    · cases hpurpose
    · exact .inl (.inl (ihyes hm))
    · cases hpurpose
    · exact .inl (.inr (ihno hm))
    · exact .inr (ih hm)
  | loop _ _ _ _ _ _ _ _ _ ihcond ihbody ih =>
    simp only [List.mem_cons, List.mem_append] at hm
    simp only [leaves_cons, Step.leaves, List.mem_append]
    obtain hm | rfl | hm | rfl | hm := hm
    · exact .inl (.inl (ihcond hm))
    · cases hpurpose
    · exact .inl (.inr (ihbody hm))
    · cases hpurpose
    · exact .inr (ih hm)

private theorem Assembled.nonneg_of_purpose {o : Nat} {ms : List Marked} (h : Assembled o xs ms)
    (hsound : Each Step.isSound xs) {m : Marked} (hm : m ∈ ms) {offset : Int32}
    (hpurpose : m.purpose = .static offset) : 0 ≤ offset :=
  of_decide_eq_true (hsound _ (h.staticAddress_mem hm hpurpose))

private theorem exists_mark_of_staticLoads {index : Nat} {ms : List Marked} {load : StaticLoad}
    (h : load ∈ staticLoads index ms) : ∃ m ∈ ms, m.purpose = .static load.offset := by
  obtain ⟨⟨m, k⟩, hm, hload⟩ := List.mem_filterMap.mp h
  refine ⟨m, List.fst_mem_of_mem_zipIdx hm, ?_⟩
  simp only [Marked.load?] at hload
  split at hload
  · next hpurpose =>
    cases hload
    exact hpurpose
  · cases hload

/-- Sound steps ask for no address before the start of the static area. -/
theorem Assembled.nonneg_of_staticLoads {o index : Nat} {ms : List Marked} (h : Assembled o xs ms)
    (hsound : Each Step.isSound xs) : ∀ load ∈ staticLoads index ms, 0 ≤ load.offset := by
  intro load hload
  obtain ⟨m, hm, hpurpose⟩ := exists_mark_of_staticLoads hload
  exact h.nonneg_of_purpose hsound hm hpurpose

/-- Neither do routines of sound steps. -/
theorem Built.nonneg_of_staticLoads {a : Assembly} {parts : List Part} (h : Built a parts)
    (hsound : ∀ source ∈ sources parts, Each Step.isSound source.2) :
    ∀ load ∈ a.staticLoads.toList, 0 ≤ load.offset := by
  intro load hload
  rw [h.loads] at hload
  obtain ⟨m, hm, hpurpose⟩ := exists_mark_of_staticLoads hload
  obtain ⟨q, hq, hm⟩ := List.mem_flatMap.mp hm
  exact q.assembled.nonneg_of_purpose (hsound _ (List.mem_map_of_mem hq)) hm hpurpose

end Soundness

end NativeBackend
