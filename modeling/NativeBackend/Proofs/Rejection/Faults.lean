import NativeBackend.Proofs.Emission.Leaves
import NativeBackend.Proofs.Emission.Plan
import NativeBackend.Proofs.Emission.Stages

/-!
# Why assembly stops

Assembly of sound steps stops for one of three reasons: the count of words on the operand
stack is not what it should be, a step refuses to be passed, or a branch does not reach.
Instructions can always be encoded, and aiming an earlier branch keeps its length.
-/

namespace NativeBackend

open Machine NativeBackend.Tree

/-- Whether a fault says that a branch does not reach. -/
def Fault.isBranch : Fault → Bool
  | branch _ => true
  | _ => false

/-- Whatever makes an action stop has a property. -/
structure Blames {α : Type} (x : Assemble α) (a : Assembly) (cause : Fault → Prop) : Prop where
  of_error : ∀ {fault : Fault} {b : Assembly}, x.run.run a = (.error fault, b) → cause fault

/-- Why steps at an offset make assembly stop, given the routines that have started. -/
inductive Cause (routine : String → Option Nat) (o : Nat) (xs : List Step) (fault : Fault) : Prop
  | depth (h : fault.isDepth = true)
  | refusal (h : .refuse fault ∈ leaves xs)
  | distance (h : fault.isBranch = true)
      (b : BranchSite) (hb : b ∈ branchSites o xs) (unfit : ¬b.Fits routine)

namespace Blames

variable {α β : Type} {x : Assemble α} {f : α → Assemble β} {a : Assembly}
  {cause cause' : Fault → Prop}

/-- What stops for a reason stops for every weaker one. -/
theorem mono (h : Blames x a cause) (himp : ∀ fault, cause fault → cause' fault) :
    Blames x a cause' := ⟨fun hr ↦ himp _ (h.of_error hr)⟩

/-- Two parts in a row stop for the reasons of either. -/
theorem bind (hx : Blames x a cause) (hf : ∀ v b, Runs x a v b → Blames (f v) b cause) :
    Blames (x >>= f) a cause := by
  constructor
  intro fault c h
  rw [Assemble.run_bind] at h
  split at h
  · next v b hrun => exact (hf v b hrun).of_error h
  · next hrun =>
    cases h
    exact hx.of_error hrun

/-- An action that succeeds does not stop. -/
theorem of_runs {v : α} {b : Assembly} (h : Runs x a v b) : Blames x a cause := by
  constructor
  intro fault c hr
  rw [Runs, hr] at h
  cases h

/-- A value never stops. -/
theorem pure {v : α} : Blames (Pure.pure v) a cause := .of_runs (Runs.pure_iff.mpr ⟨rfl, rfl⟩)

/-- A change of the state never stops. -/
theorem modify {g : Assembly → Assembly} : Blames (modify g) a cause := ⟨nofun⟩

private theorem throw {fault : Fault} (h : cause fault) :
    Blames (throw fault : Assemble α) a cause := by
  constructor
  intro _ b hr
  cases hr
  exact h

/-- Reading the state adds no reason to stop. -/
theorem get_bind {f : Assembly → Assemble β} (h : Blames (f a) a cause) :
    Blames (get >>= f) a cause := ⟨h.of_error⟩

/-- A change of the state adds none. -/
theorem modify_bind {g : Assembly → Assembly} {f : Unit → Assemble β}
    (h : Blames (f ()) (g a) cause) :
    Blames (MonadState.modifyGet (fun a ↦ ((), g a)) >>= f) a cause := ⟨h.of_error⟩

/-- Asking for the position adds none. -/
theorem position_bind {f : Nat → Assemble β} (h : Blames (f a.stream.size) a cause) :
    Blames (Assemble.position >>= f) a cause := ⟨h.of_error⟩

/-- What is run for its effect stops for the same reasons. -/
theorem discard (h : Blames x a cause) : Blames (discard x) a cause := by
  have hdiscard : Functor.discard x = x >>= fun _ ↦ Pure.pure () := by
    rw [bind_pure_comp]
    rfl
  rw [hdiscard]
  exact h.bind fun _ _ _ ↦ pure

end Blames

/-- The length of a branch that can be aimed again. -/
def Machine.Instruction.aimedLength? : Instruction → Option Nat
  | jmp (.near _) => some 5
  | jcc _ (.near _) => some 6
  | call _ => some callLength
  | _ => none

/-- A branch is aimed at any target that it reaches, and keeps its length. -/
theorem retarget_cases {i : Instruction} {length : Nat} (h : i.aimedLength? = some length)
    (origin target : Nat) :
    (∃ i' bs, i.retarget origin target = .ok i' ∧ i'.encode = .ok bs ∧ bs.length = length) ∨
      ∃ cause, i.retarget origin target = .error cause ∧ ¬Spans origin target length := by
  have hdistance : (∃ d, distance origin target length = .ok d) ∨
      ∃ cause, distance origin target length = .error cause ∧ ¬Spans origin target length := by
    rw [← distance_isOk_iff]
    cases distance origin target length with
    | ok d => exact .inl ⟨d, rfl⟩
    | error cause => exact .inr ⟨cause, rfl, nofun⟩
  unfold Instruction.aimedLength? at h
  split at h
  · obtain rfl := Option.some.inj h
    obtain ⟨d, hd⟩ | ⟨cause, hd, hfar⟩ := hdistance
    · exact .inl ⟨_, _, by simp only [Instruction.retarget, Instruction.jmpNear, hd]; rfl, rfl, rfl⟩
    · exact .inr ⟨cause, by simp only [Instruction.retarget, Instruction.jmpNear, hd]; rfl, hfar⟩
  · obtain rfl := Option.some.inj h
    obtain ⟨d, hd⟩ | ⟨cause, hd, hfar⟩ := hdistance
    · exact .inl ⟨_, _, by simp only [Instruction.retarget, Instruction.jccNear, hd]; rfl, rfl, rfl⟩
    · exact .inr ⟨cause, by simp only [Instruction.retarget, Instruction.jccNear, hd]; rfl, hfar⟩
  · obtain rfl := Option.some.inj h
    obtain ⟨d, hd⟩ | ⟨cause, hd, hfar⟩ := hdistance
    · exact .inl ⟨_, _, by simp only [Instruction.retarget, Instruction.callTo, hd]; rfl, rfl, rfl⟩
    · exact .inr ⟨cause, by simp only [Instruction.retarget, Instruction.callTo, hd]; rfl, hfar⟩
  · cases h

namespace Assemble

variable {a : Assembly} {i : Instruction} {cause : Fault → Prop}

private theorem blames_append (h : i.encode.isOk = true) : Blames (append i) a cause := by
  apply Blames.get_bind
  split
  · exact .modify_bind .pure
  · next herror =>
    rw [herror] at h
    cases h

private theorem blames_adjust (effect : Int) : Blames (adjust effect) a (·.isDepth = true) := by
  apply Blames.get_bind
  dsimp only
  split
  · exact .modify
  · split
    · exact .modify
    · exact .throw rfl

private theorem blames_emit (h : i.encode.isOk = true) : Blames (emit i) a (·.isDepth = true) := by
  apply (blames_append h).bind
  intro n b _
  exact (blames_adjust _).bind fun _ _ _ ↦ .pure

private theorem blames_forward (h : i.encode.isOk = true) :
    Blames (forward i) a (·.isDepth = true) := by
  apply Blames.position_bind
  exact (blames_emit h).bind fun _ _ _ ↦ .pure

/-- Aiming an earlier branch stops only if it does not reach. -/
theorem blames_retarget {site : Site} {target : Nat} {e : Emitted}
    (he : a.stream.get? site.index = some e)
    (hlength : e.instruction.aimedLength? = some e.bytes.length) :
    Blames (retarget site target) a
      fun fault ↦ fault.isBranch = true ∧ ¬Spans site.origin target e.bytes.length := by
  apply Blames.get_bind
  obtain ⟨i, bs, hi, hbs, hsame⟩ | ⟨cause, hi, hfar⟩ := retarget_cases hlength site.origin target
  · simp only [he, hi]
    apply Blames.modify_bind
    apply Blames.get_bind
    have hpatch : ∃ stream, a.stream.patch site.index i = .ok stream := by
      simp only [CodeStream.patch, he, hbs, hsame, if_true, Except.ok.injEq, exists_eq']
    obtain ⟨stream, hstream⟩ := hpatch
    simp only [hstream]
    exact .modify
  · simp only [he, hi]
    exact .throw ⟨rfl, hfar⟩

private theorem blames_land {b : Assembly} {o : Nat} {bs : List UInt8} (ms ms' : List Marked)
    (h : Appends a b (ms ++ .plain i o bs :: ms')) (hlength : i.aimedLength? = some bs.length)
    (hfar : ∀ fault, fault.isBranch = true → ¬Spans o b.stream.size bs.length → cause fault) :
    Blames (land ⟨a.stream.length + ms.length, o⟩) b cause := by
  have hget : b.stream.get? (a.stream.length + ms.length) = some ⟨i, o, bs⟩ := by
    have hsplit : b.stream.entries.toList =
        (a.stream.entries.toList ++ ms.map Marked.entry) ++ ⟨i, o, bs⟩ :: ms'.map Marked.entry := by
      rw [h.entries, List.map_append, List.map_cons, List.append_assoc]
      rfl
    have hindex : a.stream.length + ms.length =
        (a.stream.entries.toList ++ ms.map Marked.entry).length := by
      simp [CodeStream.length]
    rw [hindex, CodeStream.get?_of_split hsplit]
  apply Blames.position_bind
  exact (blames_retarget hget hlength).mono fun fault hcause ↦ hfar fault hcause.1 hcause.2

end Assemble

/-- A branch that does not reach its target. -/
theorem BranchSite.not_fits {routine : String → Option Nat} {o target length : Nat}
    (h : ¬Spans o target length) : ¬BranchSite.Fits routine ⟨o, length, .offset target⟩ :=
  fun hfits ↦ h (hfits target rfl)

/-- What makes steps stop makes steps around them stop. -/
theorem Cause.mono {routine : String → Option Nat} {o o' : Nat} {xs ys : List Step} {fault : Fault}
    (h : Cause routine o xs fault) (hleaves : ∀ x ∈ leaves xs, x ∈ leaves ys)
    (hsites : ∀ b ∈ branchSites o xs, b ∈ branchSites o' ys) : Cause routine o' ys fault := by
  cases h with
  | depth h => exact .depth h
  | refusal h => exact .refusal (hleaves _ h)
  | distance h b hb unfit => exact .distance h b (hsites b hb) unfit

namespace Assemble

variable {a : Assembly} {cause : Fault → Prop}

private theorem blames_call (name : String) :
    Blames (call name) a (Cause a.routines.start? a.stream.size [.call name]) := by
  apply Blames.position_bind
  apply Blames.get_bind
  split
  · next target htarget =>
    split
    · next i hi =>
      obtain ⟨d, -, rfl⟩ := callTo_eq_ok hi
      exact ((blames_emit rfl).mono fun _ ↦ .depth).discard
    · next cause hcause =>
      refine .throw (.distance rfl ⟨a.stream.size, Instruction.callLength, .routine name⟩
        List.mem_cons_self fun hfits ↦ ?_)
      obtain ⟨i, hi⟩ := Spans.exists_callTo (hfits target htarget)
      rw [hi] at hcause
      cases hcause
  · exact ((blames_emit rfl).mono fun _ ↦ .depth).bind fun _ _ _ ↦ .modify

private theorem blames_settle (live : Nat) : Blames (settle live) a (·.isDepth = true) := by
  apply Blames.get_bind
  dsimp only
  split
  · exact .pure
  · exact .throw rfl

/-- A jump back stops if it is too far, or if the code ends beyond all offsets. -/
theorem blames_jumpBack {o bytes : Nat} (hsize : a.stream.size = o + bytes) :
    Blames (jumpBack o) a fun fault ↦ fault.isDepth = true ∨ fault.isBranch = true ∧
      (¬Spans (o + bytes) o (backLength bytes) ∨
        ¬o + bytes + backLength bytes < signedLimit) := by
  apply Blames.position_bind
  split
  · next j hj =>
    have hok : j.encode.isOk = true := by
      obtain ⟨d, -, -, -, rfl⟩ | hnear := jmpFitted_eq_ok hj
      · rfl
      · obtain ⟨d, -, rfl⟩ := jmpNear_eq_ok hnear
        rfl
    exact ((blames_emit hok).mono fun _ ↦ .inl).discard
  · next cause hcause =>
    refine .throw (.inr ⟨rfl, ?_⟩)
    by_contra hreach
    push Not at hreach
    obtain ⟨j, hj⟩ := hreach.1.exists_jmpFitted hreach.2
    rw [hsize, hj] at hcause
    cases hcause

section Branches

variable {xs ys : List Step}

private theorem blames_when
    (hbody : ∀ {a : Assembly}, Blames (steps xs) a (Cause a.routines.start? a.stream.size xs)) :
    Blames (step (.when xs)) a (Cause a.routines.start? a.stream.size [.when xs]) := by
  apply ((blames_forward rfl).mono fun _ ↦ .depth).bind
  intro site a₁ hskip
  obtain ⟨rfl, bs, hbs, h₁⟩ := Appends.of_forward hskip
  cases hbs
  have hsize₁ : a₁.stream.size = a.stream.size + 6 := by
    rw [h₁.size]
    rfl
  have hinner := hbody (a := a₁)
  rw [h₁.routines, hsize₁] at hinner
  refine (hinner.mono fun _ hcause ↦ hcause.mono ?_ ?_).bind fun _ a₂ hrun ↦ ?_
  · simp [Step.leaves]
  · intro b hb
    simp [branchSites, Step.branches, hb]
  · obtain ⟨ms, h₂, -⟩ := assembled_steps xs hrun
    refine blames_land [] ms (h₁.trans h₂) rfl fun fault hbranch hfar ↦ ?_
    rw [size_of_steps hrun, hsize₁] at hfar
    exact .distance hbranch ⟨a.stream.size, 6, .offset (a.stream.size + 6 + stepsSize xs)⟩
      (by simp [branchSites, Step.branches]) (BranchSite.not_fits hfar)

private theorem blames_choose
    (hyes : ∀ {a : Assembly}, Blames (steps xs) a (Cause a.routines.start? a.stream.size xs))
    (hno : ∀ {a : Assembly}, Blames (steps ys) a (Cause a.routines.start? a.stream.size ys)) :
    Blames (step (.choose xs ys)) a (Cause a.routines.start? a.stream.size [.choose xs ys]) := by
  apply ((blames_forward rfl).mono fun _ ↦ .depth).bind
  intro site a₁ hskip
  obtain ⟨rfl, bs, hbs, h₁⟩ := Appends.of_forward hskip
  cases hbs
  have hsize₁ : a₁.stream.size = a.stream.size + 6 := by
    rw [h₁.size]
    rfl
  have hfirst := hyes (a := a₁)
  rw [h₁.routines, hsize₁] at hfirst
  refine (hfirst.mono fun _ hcause ↦ hcause.mono ?_ ?_).bind fun _ a₂ hrun ↦ ?_
  · intro x hx
    simp [Step.leaves, hx]
  · intro b hb
    simp [branchSites, Step.branches, hb]
  obtain ⟨first, h₂, -⟩ := assembled_steps xs hrun
  have hsize₂ := size_of_steps hrun
  rw [hsize₁] at hsize₂
  apply ((blames_forward rfl).mono fun _ ↦ .depth).bind
  intro site a₃ hleave
  obtain ⟨rfl, cs, hcs, h₃⟩ := Appends.of_forward hleave
  cases hcs
  have hsize₃ : a₃.stream.size = a.stream.size + 6 + stepsSize xs + 5 := by
    rw [h₃.size, hsize₂]
    rfl
  -- The branch to the second part ends where the jump behind the first part ends.
  refine Blames.bind (blames_land [] _ (h₁.trans (h₂.trans h₃)) rfl fun fault hbranch hfar ↦ ?_)
    fun _ a₄ hland ↦ ?_
  · rw [hsize₃] at hfar
    exact .distance hbranch
      ⟨a.stream.size, 6, .offset (a.stream.size + 6 + stepsSize xs + 5)⟩
      (by simp [branchSites, Step.branches]) (BranchSite.not_fits hfar)
  obtain ⟨i, bs, -, -, -, h₄⟩ := Appends.of_land [] _ (h₁.trans (h₂.trans h₃)) hland
  have hsize₄ := (length_of_land hland).2.trans hsize₃
  have hsecond := hno (a := a₄)
  rw [h₄.routines, hsize₄] at hsecond
  refine (hsecond.mono fun _ hcause ↦ hcause.mono ?_ ?_).bind fun _ a₅ hrun' ↦ ?_
  · intro x hx
    simp [Step.leaves, hx]
  · intro b hb
    simp [branchSites, Step.branches, hb]
  obtain ⟨second, h₅, -⟩ := assembled_steps ys hrun'
  have hsize₅ := size_of_steps hrun'
  rw [hsize₄] at hsize₅
  have hindex : a₂.stream.length =
      a.stream.length + (Marked.plain i a.stream.size bs :: first).length := (h₁.trans h₂).length
  have h₆ : Appends a a₅ ((.plain i a.stream.size bs :: first) ++
      .plain (.jmp (.near 0)) a₂.stream.size (0xE9 :: dwordBytes 0) :: second) := by
    simpa using h₄.trans h₅
  rw [hindex]
  refine blames_land _ second h₆ rfl fun fault hbranch hfar ↦ ?_
  rw [hsize₅, hsize₂] at hfar
  exact .distance hbranch ⟨a.stream.size + 6 + stepsSize xs, 5,
    .offset (a.stream.size + 6 + stepsSize xs + 5 + stepsSize ys)⟩
    (by simp [branchSites, Step.branches]) (BranchSite.not_fits hfar)

private theorem blames_loop
    (hcond : ∀ {a : Assembly}, Blames (steps xs) a (Cause a.routines.start? a.stream.size xs))
    (hbody : ∀ {a : Assembly}, Blames (steps ys) a (Cause a.routines.start? a.stream.size ys)) :
    Blames (step (.loop xs ys)) a (Cause a.routines.start? a.stream.size [.loop xs ys]) := by
  apply Blames.position_bind
  refine (hcond.mono fun _ hcause ↦ hcause.mono ?_ ?_).bind fun _ a₁ hrun ↦ ?_
  · intro x hx
    simp [Step.leaves, hx]
  · intro b hb
    simp [branchSites, Step.branches, hb]
  obtain ⟨first, h₁, -⟩ := assembled_steps xs hrun
  have hsize₁ := size_of_steps hrun
  apply ((blames_forward rfl).mono fun _ ↦ .depth).bind
  intro site a₂ hexit
  obtain ⟨rfl, bs, hbs, h₂⟩ := Appends.of_forward hexit
  cases hbs
  have hsize₂ : a₂.stream.size = a.stream.size + stepsSize xs + 6 := by
    rw [h₂.size, hsize₁]
    rfl
  have hinner := hbody (a := a₂)
  rw [h₂.routines, h₁.routines, hsize₂] at hinner
  refine (hinner.mono fun _ hcause ↦ hcause.mono ?_ ?_).bind fun _ a₃ hrun' ↦ ?_
  · intro x hx
    simp [Step.leaves, hx]
  · intro b hb
    simp [branchSites, Step.branches, hb]
  obtain ⟨second, h₃, -⟩ := assembled_steps ys hrun'
  have hsize₃ : a₃.stream.size = a.stream.size + (stepsSize xs + 6 + stepsSize ys) := by
    rw [size_of_steps hrun', hsize₂]
    omega
  let stop := a.stream.size + (stepsSize xs + 6 + stepsSize ys)
  let back := backLength (stepsSize xs + 6 + stepsSize ys)
  have hback : ⟨stop, back, .offset a.stream.size⟩ ∈
      branchSites a.stream.size [.loop xs ys] := by
    simp [branchSites, Step.branches, stop, back, Nat.add_assoc]
  have hleave : ⟨a.stream.size + stepsSize xs, 6, .offset (stop + back)⟩ ∈
      branchSites a.stream.size [.loop xs ys] := by
    simp [branchSites, Step.branches, stop, back, Nat.add_assoc]
  -- Code that ends beyond all offsets cannot be left by the branch behind the condition.
  have hbeyond : ¬stop + back < signedLimit →
      ¬Spans (a.stream.size + stepsSize xs) (stop + back) 6 := fun h hspans ↦ h hspans.target_lt
  apply Blames.bind
  · refine (blames_jumpBack hsize₃).mono ?_
    rintro fault (hdepth | ⟨hbranch, hfar | hfar⟩)
    · exact .depth hdepth
    · exact .distance hbranch _ hback (BranchSite.not_fits hfar)
    · exact .distance hbranch _ hleave (BranchSite.not_fits (hbeyond hfar))
  intro _ a₄ hjump
  obtain ⟨j, cs, hj, hcs, h₄⟩ := Appends.of_jumpBack hjump
  rw [h₁.length]
  refine blames_land first _ (h₁.trans (h₂.trans (h₃.trans h₄))) rfl fun fault hbranch hfar ↦
    .distance hbranch _ hleave (BranchSite.not_fits ?_)
  by_cases hlt : stop < signedLimit
  · rw [hsize₃] at hj
    have hsize₄ : a₄.stream.size = stop + back := by
      rw [h₄.size, hsize₃]
      exact congrArg (stop + ·) (length_jmpFitted hj hcs hlt).1
    rwa [hsize₄, hsize₁] at hfar
  · exact hbeyond (by omega)

end Branches

mutual

/-- Why a step makes assembly stop. -/
theorem blames_step {a : Assembly} : (x : Step) → Each Step.isSound [x] →
    Blames (step x) a (Cause a.routines.start? a.stream.size [x])
  | .emit i, h => by
    have hi : i.isSound = true := h _ List.mem_cons_self
    exact ((blames_emit (Bool.and_eq_true_iff.mp hi).1).mono fun _ ↦ .depth).discard
  | .frame i, h => by
    have hi : i.isSound = true := h _ List.mem_cons_self
    exact (blames_append (Bool.and_eq_true_iff.mp hi).1).discard
  | .call name, _ => blames_call name
  | .staticAddress _, _ => ((blames_emit rfl).mono fun _ ↦ .depth).bind fun _ _ _ ↦ .modify
  | .undeclared _, _ => .modify
  | .refuse fault, _ => .throw (.refusal List.mem_cons_self)
  | .settle live, _ => (blames_settle live).mono fun _ ↦ .depth
  | .when body, h => blames_when (blames_steps body (each_when.mp h))
  | .choose yes no, h =>
    blames_choose (blames_steps yes (each_choose.mp h).1) (blames_steps no (each_choose.mp h).2)
  | .loop cond body, h =>
    blames_loop (blames_steps cond (each_loop.mp h).1) (blames_steps body (each_loop.mp h).2)

/-- Why steps make assembly stop. -/
theorem blames_steps {a : Assembly} : (xs : List Step) → Each Step.isSound xs →
    Blames (steps xs) a (Cause a.routines.start? a.stream.size xs)
  | [], _ => .pure
  | x :: xs, h => by
    have happend : Each Step.isSound ([x] ++ xs) := h
    obtain ⟨hx, hxs⟩ := each_append.mp happend
    refine ((blames_step x hx).mono fun _ hcause ↦ hcause.mono ?_ ?_).bind fun _ b hrun ↦ ?_
    · intro y hy
      simp_all
    · intro y hy
      simp_all [branchSites]
    · obtain ⟨ms, happends, hcode⟩ := assembled_step x hrun
      have hrest := blames_steps (a := b) xs hxs
      have hsize : stepsSize [x] = x.size := rfl
      rw [happends.routines, happends.size, hcode.extent_eq, hsize] at hrest
      refine hrest.mono fun _ hcause ↦ hcause.mono ?_ ?_
      · intro y hy
        simp [hy]
      · intro y hy
        simp [branchSites, hy]

end

end Assemble

end NativeBackend
