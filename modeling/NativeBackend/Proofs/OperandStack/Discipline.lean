import NativeBackend.Proofs.Emission.WholeProgram
import NativeBackend.Proofs.OperandStack.Balance

/-!
# Operand stack discipline

Generation keeps count of the words on the operand stack and stops when the count is
not what it should be. `Ends` says of an action that it either ends in a state with a
property or stops for another reason than the count. Balanced steps never stop because
of it, so no program makes generation stop because of it.
-/

namespace NativeBackend

open Machine NativeBackend.Tree

/-- An action ends in a state with a property, unless it stops for another reason than the depth of
the operand stack. -/
structure Ends {α : Type} (x : Assemble α) (a : Assembly) (post : Assembly → Prop) : Prop where
  ok : ∀ {v : α} {b : Assembly}, Runs x a v b → post b
  other : ∀ {fault : Fault} {b : Assembly}, x.run.run a = (.error fault, b) →
    fault.isDepth = false

namespace Ends

variable {α β : Type} {x : Assemble α} {f : α → Assemble β} {a : Assembly}
  {mid post : Assembly → Prop}

private theorem bind (hx : Ends x a mid) (hf : ∀ v b, mid b → Ends (f v) b post) :
    Ends (x >>= f) a post := by
  constructor
  · intro w c h
    obtain ⟨v, b, hv, hw⟩ := Runs.bind_iff.mp h
    exact (hf v b (hx.ok hv)).ok hw
  · intro fault c h
    rw [Assemble.run_bind] at h
    split at h
    · next v b hrun => exact (hf v b (hx.ok hrun)).other h
    · next hrun =>
      cases h
      exact hx.other hrun

private theorem pure {v : α} (h : post a) : Ends (Pure.pure v) a post := by
  constructor
  · intro w b hr
    rwa [(Runs.pure_iff.mp hr).2]
  · nofun

private theorem throw {fault : Fault} (h : fault.isDepth = false) :
    Ends (throw fault : Assemble α) a post := by
  constructor
  · intro v b hr
    exact (Runs.not_throw hr).elim
  · intro _ b hr
    cases hr
    exact h

private theorem modify {g : Assembly → Assembly} (h : post (g a)) : Ends (modify g) a post := by
  constructor
  · intro u b hr
    rwa [Runs.modify_iff.mp hr]
  · nofun

private theorem get_bind {f : Assembly → Assemble β} (h : Ends (f a) a post) :
    Ends (get >>= f) a post := ⟨h.ok, h.other⟩

private theorem modify_bind {g : Assembly → Assembly} {f : Unit → Assemble β}
    (h : Ends (f ()) (g a) post) : Ends (MonadState.modifyGet (fun a ↦ ((), g a)) >>= f) a post :=
  ⟨h.ok, h.other⟩

private theorem position_bind {f : Nat → Assemble β} (h : Ends (f a.stream.size) a post) :
    Ends (Assemble.position >>= f) a post := ⟨h.ok, h.other⟩

private theorem discard (h : Ends x a post) : Ends (discard x) a post := by
  have hdiscard : Functor.discard x = x >>= fun _ ↦ Pure.pure () := by
    rw [bind_pure_comp]
    rfl
  rw [hdiscard]
  exact h.bind fun _ _ hb ↦ pure hb

end Ends

namespace Assemble

variable {a : Assembly} {i : Instruction} {d : Nat}

private theorem ends_append (h : a.depth.words = d) : Ends (append i) a (·.depth.words = d) := by
  apply Ends.get_bind
  split
  · exact .modify_bind (.pure h)
  · exact .throw rfl

private theorem ends_adjust {effect : Int} (h : (d : Int) = a.depth.words + effect) :
    Ends (adjust effect) a (·.depth.words = d) := by
  apply Ends.get_bind
  dsimp only
  split
  · apply Ends.modify
    change a.depth.words + effect.toNat = d
    omega
  · have hpop : a.depth.pop? effect.natAbs = some ⟨d, a.depth.deepest⟩ := by
      rw [OperandDepth.pop?, if_pos (by omega)]
      congr 2
      omega
    rw [hpop]
    exact .modify rfl

/-- An instruction is emitted at a depth that bears its effect. -/
theorem ends_emit (h : (d : Int) = a.depth.words + i.stackEffect) :
    Ends (emit i) a (·.depth.words = d) := by
  apply (ends_append rfl).bind
  intro v b hb
  apply (ends_adjust (by rwa [hb])).bind
  intro _ c hc
  exact .pure hc

private theorem ends_overwrite {index : Nat} (h : a.depth.words = d) :
    Ends (overwrite index i) a (·.depth.words = d) := by
  apply Ends.get_bind
  split
  · exact .modify h
  · exact .throw rfl

private theorem ends_retarget {site : Site} {target : Nat} (h : a.depth.words = d) :
    Ends (retarget site target) a (·.depth.words = d) := by
  apply Ends.get_bind
  dsimp only
  split
  · exact .throw rfl
  · split
    · exact .throw rfl
    · exact .modify_bind (ends_overwrite h)

private theorem ends_forward (h : a.depth.words = d) (hi : i.stackEffect = 0) :
    Ends (forward i) a (·.depth.words = d) := by
  apply Ends.position_bind
  apply (ends_emit (d := d) (by omega)).bind
  intro _ b hb
  exact .pure hb

private theorem ends_land {site : Site} (h : a.depth.words = d) :
    Ends (land site) a (·.depth.words = d) :=
  .position_bind (ends_retarget h)

private theorem ends_settle (h : a.depth.words = d) : Ends (settle d) a (·.depth.words = d) := by
  apply Ends.get_bind
  dsimp only
  rw [if_pos h]
  exact .pure h

private theorem ends_call {name : String} (h : a.depth.words = d) :
    Ends (call name) a (·.depth.words = d) := by
  apply Ends.position_bind
  apply Ends.get_bind
  split
  · split
    · next i hi =>
      obtain ⟨distance, -, rfl⟩ := callTo_eq_ok hi
      exact .discard (ends_emit (by rw [h]; rfl))
    · exact .throw rfl
  · apply (ends_emit (d := d) (by rw [h]; rfl)).bind
    intro _ b hb
    exact .modify hb

private theorem ends_staticAddress {offset : Int32} (h : a.depth.words = d) :
    Ends (staticAddress offset) a (·.depth.words = d) := by
  apply (ends_emit (d := d) (by rw [h]; rfl)).bind
  intro _ b hb
  exact .modify hb

private theorem ends_jumpBack {target : Nat} (h : a.depth.words = d) :
    Ends (jumpBack target) a (·.depth.words = d) := by
  apply Ends.position_bind
  split
  · next i hi =>
    have heffect : i.stackEffect = 0 := by
      obtain ⟨distance, -, -, -, rfl⟩ | hnear := jmpFitted_eq_ok hi
      · rfl
      · obtain ⟨distance, -, rfl⟩ := jmpNear_eq_ok hnear
        rfl
    exact .discard (ends_emit (by omega))
  · exact .throw rfl

private theorem ends_frames (is : List Instruction) (h : a.depth.words = d) :
    Ends (steps (is.map .frame)) a (·.depth.words = d) := by
  induction is generalizing a with
  | nil => exact .pure h
  | cons i is ih =>
    apply (Ends.discard (ends_append h)).bind
    intro _ b hb
    exact ih hb

section Branches

variable {body yes no cond : List Step}

private theorem ends_when
    (hbody : ∀ {a : Assembly}, a.depth.words = d → Ends (steps body) a (·.depth.words = d))
    (h : a.depth.words = d) : Ends (step (.when body)) a (·.depth.words = d) := by
  apply (ends_forward h rfl).bind
  intro skip b hb
  apply (hbody hb).bind
  intro _ c hc
  exact ends_land hc

private theorem ends_choose
    (hyes : ∀ {a : Assembly}, a.depth.words = d → Ends (steps yes) a (·.depth.words = d))
    (hno : ∀ {a : Assembly}, a.depth.words = d → Ends (steps no) a (·.depth.words = d))
    (h : a.depth.words = d) : Ends (step (.choose yes no)) a (·.depth.words = d) := by
  apply (ends_forward h rfl).bind
  intro skip a₁ h₁
  apply (hyes h₁).bind
  intro _ a₂ h₂
  apply (ends_forward h₂ rfl).bind
  intro leave a₃ h₃
  apply (ends_land h₃).bind
  intro _ a₄ h₄
  apply (hno h₄).bind
  intro _ a₅ h₅
  exact ends_land h₅

private theorem ends_loop
    (hcond : ∀ {a : Assembly}, a.depth.words = d → Ends (steps cond) a (·.depth.words = d))
    (hbody : ∀ {a : Assembly}, a.depth.words = d → Ends (steps body) a (·.depth.words = d))
    (h : a.depth.words = d) : Ends (step (.loop cond body)) a (·.depth.words = d) := by
  apply Ends.position_bind
  apply (hcond h).bind
  intro _ a₁ h₁
  apply (ends_forward h₁ rfl).bind
  intro exit a₂ h₂
  apply (hbody h₂).bind
  intro _ a₃ h₃
  apply (ends_jumpBack h₃).bind
  intro _ a₄ h₄
  exact ends_land h₄

end Branches

end Assemble

open Assemble in
/-- Steps without branches lead to the depth that they should lead to. -/
theorem Stretch.ends {d d' : Nat} {xs : List Step} (h : Stretch d xs d') {a : Assembly}
    (ha : a.depth.words = d) : Ends (steps xs) a (·.depth.words = d') := by
  induction h generalizing a with
  | nil => exact .pure ha
  | emit _ effect _ ih =>
    apply (Ends.discard (ends_emit (by rw [ha]; exact effect))).bind
    intro _ b hb
    exact ih hb
  | call _ ih =>
    apply (ends_call ha).bind
    intro _ b hb
    exact ih hb
  | staticAddress _ ih =>
    apply (ends_staticAddress ha).bind
    intro _ b hb
    exact ih hb
  | undeclared _ ih => exact .modify_bind (ih ha)
  | refuse other => exact .throw other

open Assemble in
/-- Balanced steps lead to the depth that they should lead to. -/
theorem Balanced.ends {s : Surroundings} {d d' : Nat} {xs : List Step} (h : Balanced s d xs d')
    {a : Assembly} (ha : a.depth.words = d) : Ends (steps xs) a (·.depth.words = d') := by
  induction h generalizing a with
  | nil => exact .pure ha
  | stretch first _ ih =>
    rw [steps_append]
    exact (first.ends ha).bind fun _ _ hb ↦ ih hb
  | leave _ ih =>
    rw [steps_append]
    exact (ends_frames _ ha).bind fun _ _ hb ↦ ih hb
  | settle _ ih =>
    apply (ends_settle ha).bind
    intro _ b hb
    exact ih hb
  | when _ _ ihbody ih => exact (ends_when ihbody ha).bind fun _ _ hb ↦ ih hb
  | choose _ _ _ ihyes ihno ih => exact (ends_choose ihyes ihno ha).bind fun _ _ hb ↦ ih hb
  | loop test _ _ ihbody ih => exact (ends_loop test.ends ihbody ha).bind fun _ _ hb ↦ ih hb

/-- The code of a routine leads from an empty operand stack to the locals of its body. -/
theorem ends_lowerMethod (s : Surroundings) (m : MethodDecl) {a : Assembly}
    (ha : a.depth.words = 0) :
    Ends (Assemble.steps (lowerMethod s m)) a
      (·.depth.words = (lowerStatements s (.ofMethod m) m.body).2.live) := by
  rw [lowerMethod, List.append_assoc, Assemble.steps_append]
  apply (Assemble.ends_frames _ ha).bind
  intro _ b hb
  exact ((balanced_lowerStatements s m.body (.ofMethod m)).append (balanced_leaveSteps s _)).ends hb

namespace Assemble

variable {a : Assembly}

private theorem ends_retargetAll (target : Nat) (sites : List Site) :
    Ends (retargetAll target sites) a fun _ ↦ True := by
  induction sites generalizing a with
  | nil => exact .pure trivial
  | cons site sites ih => exact (ends_retarget rfl).bind fun _ _ _ ↦ ih

private theorem ends_startRoutine (name : String) : Ends (startRoutine name) a fun _ ↦ True := by
  apply Ends.position_bind
  apply Ends.get_bind
  apply Ends.modify_bind
  apply (ends_retargetAll _ _).bind
  intro _ b _
  exact .modify_bind (.modify_bind (.pure trivial))

private theorem ends_builtins (rs : List (String × List Instruction)) :
    Ends (builtins rs) a fun _ ↦ True := by
  induction rs generalizing a with
  | nil => exact .pure trivial
  | cons r rs ih =>
    apply (Ends.discard (ends_startRoutine r.1)).bind
    intro _ b _
    rw [appendAll_eq_steps]
    exact (ends_frames r.2 rfl).bind fun _ _ _ ↦ ih

private theorem ends_routine (p : Program) (l : FieldLayout) (isEntry : Bool) (r : Routine) :
    Ends (routine p l isEntry r) a fun _ ↦ True := by
  apply (ends_startRoutine r.name).bind
  intro start b _
  cases isEntry with
  | true =>
    apply Ends.modify_bind
    apply Ends.modify_bind
    apply (ends_lowerMethod ⟨p, l, true⟩ r.method rfl).bind
    intro _ c _
    exact .get_bind (.modify trivial)
  | false =>
    apply Ends.modify_bind
    apply (ends_lowerMethod ⟨p, l, false⟩ r.method rfl).bind
    intro _ c _
    exact .get_bind (.modify trivial)

private theorem ends_routines (p : Program) (l : FieldLayout) (entry : Routine)
    (rs : List Routine) : Ends (routines p l entry rs) a fun _ ↦ True := by
  induction rs generalizing a with
  | nil => exact .pure trivial
  | cons r rs ih => exact (ends_routine p l _ r).bind fun _ _ _ ↦ ih

private theorem ends_reportAll (groups : List (String × List Site)) :
    Ends (reportAll groups) a fun _ ↦ True := by
  induction groups generalizing a with
  | nil => exact .pure trivial
  | cons g groups ih =>
    have hreport : Ends (report (.unresolvedCall g.1 g.2.length)) a fun _ ↦ True :=
      .modify_bind (.modify trivial)
    exact hreport.bind fun _ _ _ ↦ ih

private theorem ends_fillStatics (base : UInt64) (loads : List StaticLoad) :
    Ends (fillStatics base loads) a fun _ ↦ True := by
  induction loads generalizing a with
  | nil => exact .pure trivial
  | cons load loads ih =>
    rw [fillStatics]
    split
    · exact .throw rfl
    · exact (ends_overwrite rfl).bind fun _ _ _ ↦ ih

/-- No program makes generation stop because of the depth of the operand stack. -/
theorem ends_program (p : Program) (o : Options) (entry : Routine) :
    Ends (program p o entry) a fun _ ↦ True := by
  apply (ends_builtins Builtin.routines).bind
  intro _ b _
  apply (ends_routines p _ entry p.routines).bind
  intro _ c _
  apply Ends.get_bind
  apply (ends_reportAll c.pending.groups).bind
  intro _ d _
  apply Ends.position_bind
  apply Ends.get_bind
  apply (ends_fillStatics _ d.staticLoads.toList).bind
  intro _ e _
  exact .get_bind (.modify_bind (.pure trivial))

end Assemble

/-- The words that marked instructions add to the machine stack. -/
def effectOf (ms : List Marked) : Int := stackEffect (ms.map (·.entry.instruction))

@[simp] private theorem effectOf_nil : effectOf [] = 0 := rfl

@[simp] private theorem effectOf_cons (m : Marked) (ms : List Marked) :
    effectOf (m :: ms) = m.entry.instruction.stackEffect + effectOf ms := rfl

/-- Instructions lead from a depth to another through depths that are never below zero. -/
def Climbs (d d' : Nat) (ms : List Marked) : Prop :=
  effectOf ms = d' - d ∧ ∀ k, 0 ≤ d + effectOf (ms.take k)

private theorem Climbs.cons {d d₁ d' : Nat} {m : Marked} {ms : List Marked} (h : Climbs d₁ d' ms)
    (heffect : (d₁ : Int) = d + m.entry.instruction.stackEffect) : Climbs d d' (m :: ms) := by
  obtain ⟨hsum, hlow⟩ := h
  constructor
  · rw [effectOf_cons, hsum]
    omega
  · rintro (_ | k)
    · simp
    · have hk := hlow k
      rw [List.take_succ_cons, effectOf_cons]
      omega

/-- Steps without branches become instructions that lead from the depth before to the one after. -/
theorem Stretch.climbs {d d' : Nat} {xs : List Step} (h : Stretch d xs d') {o : Nat}
    {ms : List Marked} (hcode : Assembled o xs ms) : Climbs d d' ms := by
  induction h generalizing o ms with
  | nil =>
    cases hcode
    simp [Climbs]
  | emit _ effect _ ih =>
    cases hcode with
    | emit encoded rest => exact (ih rest).cons effect
  | call _ ih =>
    cases hcode with
    | call rest => exact (ih rest).cons (Int.add_zero _).symm
  | staticAddress _ ih =>
    cases hcode with
    | staticAddress rest => exact (ih rest).cons (Int.add_zero _).symm
  | undeclared _ ih =>
    cases hcode with
    | undeclared rest => exact ih rest
  | refuse other => cases hcode

/-- From every state, steps append instructions whose effects on the stack sum to a count of words
and to no less than zero on the way, and the tracked depth rises by that count. If generation stops
at one of them, it is for another reason than the depth. -/
def Pushes (words : Nat) (xs : List Step) : Prop :=
  ∀ a : Assembly, Ends (Assemble.steps xs) a fun b ↦
    b.depth.words = a.depth.words + words ∧
      ∃ es : List Emitted, b.stream.entries.toList = a.stream.entries.toList ++ es ∧
        stackEffect (es.map Emitted.instruction) = words ∧
        ∀ k, 0 ≤ stackEffect ((es.take k).map Emitted.instruction)

private theorem pushes_of_stretch {words : Nat} {xs : List Step}
    (h : ∀ d, Stretch d xs (d + words)) : Pushes words xs := by
  intro a
  have hends := (h a.depth.words).ends rfl
  refine ⟨fun {_ b} hrun ↦ ⟨hends.ok hrun, ?_⟩, hends.other⟩
  obtain ⟨ms, happends, hcode⟩ := assembled_steps xs hrun
  obtain ⟨hsum, hlow⟩ := (h 0).climbs hcode
  refine ⟨ms.map Marked.entry, happends.entries, ?_, fun k ↦ ?_⟩
  · rw [List.map_map]
    change effectOf ms = words
    omega
  · have hk := hlow k
    rw [← List.map_take, List.map_map]
    change 0 ≤ effectOf (ms.take k)
    omega

/-- Generation does not stop because of the depth of the operand stack. -/
theorem isDepth_of_generate {p : Program} {o : Options} {fault : Fault}
    (h : (generate p o).result = .error fault) : fault.isDepth = false := by
  rw [generate] at h
  split at h
  · next entry _ =>
    exact (Assemble.ends_program (a := .empty) p o entry).other (Prod.ext h rfl)
  · cases h

/-- The discipline of the operand stack. The code of an expression, and that of a reference in
either access, pushes exactly one word, and that of a call none: whatever the state, the frame and
the program, the effects of the appended instructions sum to that, no part of them from the start on
takes off more than it has pushed, and the tracked depth rises by as much. A statement that starts
with the live locals on the operand stack leaves exactly the live locals. So generation never stops
because a word is popped that is not there, or because a statement left the wrong count of words. -/
theorem operand_stack_discipline :
    (∀ s f e, Pushes 1 (lowerExpression s f e)) ∧
    (∀ s f r access, Pushes 1 (lowerReference s f r access)) ∧
    (∀ s f callee args,
      Pushes 0 (lowerCall s f callee (lowerArguments s f args) args.length)) ∧
    (∀ s f st (a : Assembly), a.depth.words = f.live →
      Ends (Assemble.steps (lowerStatement s f st).1) a
        (·.depth.words = (lowerStatement s f st).2.live)) ∧
    (∀ p o words depth,
      (generate p o).result ≠ .error (.stack (.underflow words depth)) ∧
      (generate p o).result ≠ .error (.stack (.unbalanced words depth))) := by
  refine ⟨fun s f e ↦ ?_, fun s f r access ↦ ?_, fun s f callee args ↦ ?_, fun s f st a ha ↦ ?_,
    fun p o words depth ↦ ?_⟩
  · exact pushes_of_stretch fun d ↦ stretch_lowerExpression s f e d
  · exact pushes_of_stretch fun d ↦ stretch_lowerReference s f d r access
  · exact pushes_of_stretch fun d ↦
      stretch_lowerCall s f d callee (stretch_lowerArguments s f args d)
  · exact (balanced_lowerStatement s st f).ends ha
  · exact ⟨fun h ↦ Bool.noConfusion (isDepth_of_generate h),
      fun h ↦ Bool.noConfusion (isDepth_of_generate h)⟩

/-- A loop whose body declares a local and leaves the routine while the local is live. -/
def leavingLoop : Statement :=
  .loop (.literal (.bool true)) (.block [
    .declare ⟨"x", .int, ⟨0⟩⟩ (.binary .add (.literal (.int 1)) (.literal (.int 2))),
    .branch (.ref (.localName (.var ⟨0⟩))) (.giveBack none) none])

/-- What a routine without locals is lowered in. -/
def bareSurroundings : Surroundings := ⟨⟨[]⟩, .ofProgram ⟨[]⟩, false⟩

/-- The frame of a routine without parameters and locals. -/
def bareFrame : Frame := ⟨false, 0, []⟩

/-- The loop can be generated, and leaves no word. -/
theorem operand_stack_discipline_leavingLoop :
    ((Assemble.steps (lowerStatement bareSurroundings bareFrame leavingLoop).1).run.run
        .empty).1.isOk = true ∧
      Ends (Assemble.steps (lowerStatement bareSurroundings bareFrame leavingLoop).1) .empty
        (·.depth.words = (lowerStatement bareSurroundings bareFrame leavingLoop).2.live) :=
  ⟨by decide +kernel,
    operand_stack_discipline.2.2.2.1 bareSurroundings bareFrame leavingLoop .empty rfl⟩

end NativeBackend
