import NativeBackend.Proofs.Code.Statements

/-!
# Bodies in code

The code of every statement, and of statements in a row, does what they do, with the
frame that lowering tracks. One lemma for each kind of statement takes its code apart;
the fuel of the execution carries the induction, since a loop runs its own code again.
-/

namespace NativeBackend

open Machine NativeBackend.Tree Convention Execution
open Source (Scope Use)

/-- The words that a statement needs above the live locals. -/
def stackWords : Statement → Nat
  | .declare _ e | .assign _ e => operandWords e + 1
  | .giveBack (some e) | .branch e _ _ | .loop e _ => operandWords e
  | _ => 0

/-- Displacements reach every local of a frame and every parameter that is used, and the stack does
not reach around the address space, given the uses and the most words of every kind. -/
structure Fits (p : Program) (reach : Nat) (f : Frame) (uses : List (Scope × Use))
    (peak : (Statement → Nat) → Nat) : Prop where
  params : ∀ u ∈ uses, f.Covers p u.2
  address : f.above + reach ≤ 2 ^ 61
  live : peak Source.declared ≤ 2 ^ 28
  words : peak stackWords ≤ reach

/-- The code of a statement does what the statement does with an amount of fuel. -/
def Simulated (p : Program) (code : CodeStream) (base : UInt64) (reach fuel : Nat)
    (st : Statement) : Prop :=
  ∀ {c f env s o stop},
    Located code base o (lowerStatement ⟨p, .ofProgram p, false⟩ f st).1 stop →
    Source.isStructured st →
    Fits p reach f (Source.statementUses c st) (Source.peak · f.live st) → Resting f env s →
    Outcome code reach (f.after st) o stop s (Source.execute p fuel env st)

/-- The code of statements does what they do in order with an amount of fuel. -/
def AllSimulated (p : Program) (code : CodeStream) (base : UInt64) (reach fuel : Nat)
    (sts : List Statement) : Prop :=
  ∀ {c f env s o stop},
    Located code base o (lowerStatements ⟨p, .ofProgram p, false⟩ f sts).1 stop →
    Source.areStructured sts →
    Fits p reach f (Source.bodyUses c sts) (Source.peakAll · f.live sts) → Resting f env s →
    Outcome code reach (sts.foldl Frame.after f) o stop s (Source.executeAll p fuel env sts)

private theorem Source.le_peak (need : Statement → Nat) (live : Nat) (st : Statement) :
    live + need st ≤ Source.peak need live st := by
  cases st with
  | branch cond yes no =>
    cases no with
    | none => exact Nat.le_max_left _ _
    | some no => exact Nat.le_max_left _ _
  | block body => exact Nat.le_max_left _ _
  | loop cond body => exact Nat.le_max_left _ _
  | declare | assign | assignElement | call | giveBack => exact Nat.le_refl _

namespace Fits

variable {p : Program} {reach : Nat} {f : Frame} {us vs : List (Scope × Use)}
  {P Q : (Statement → Nat) → Nat} {c : Scope} {st : Statement}

private theorem mono (h : Fits p reach f us P) (hsub : vs ⊆ us) (hle : ∀ need, Q need ≤ P need) :
    Fits p reach f vs Q :=
  ⟨fun u hu ↦ h.params u (hsub hu), h.address, Nat.le_trans (hle _) h.live,
    Nat.le_trans (hle _) h.words⟩

/-- Uses at one place of a statement are in reach. -/
theorem inReach {uses : List Use} (h : Fits p reach f us (Source.peak · f.live st))
    (hsub : uses.map (c, ·) ⊆ us) : InReach p f uses := by
  refine ⟨fun u hu ↦ h.params _ (hsub (List.mem_map_of_mem hu)), ?_⟩
  have hpeak := Source.le_peak Source.declared f.live st
  have hlive := h.live
  omega

private theorem rest {sts : List Statement}
    (h : Fits p reach f (Source.bodyUses c (st :: sts)) (Source.peakAll · f.live (st :: sts))) :
    Fits p reach (f.after st) (Source.bodyUses (c.after st) sts)
      (Source.peakAll · (f.after st).live sts) := by
  obtain ⟨new, hnew, hlength⟩ := f.after_eq_extended st
  have habove : (f.after st).above = f.above := by rw [hnew, Frame.above_extended]
  have hlive : (f.after st).live = f.live + Source.declared st := by
    rw [hnew, Frame.live_extended, hlength, Nat.add_comm]
  rw [hlive]
  refine ⟨fun u hu position hposition ↦ ?_, habove ▸ h.address,
    Nat.le_trans (Nat.le_max_right _ _) h.live, Nat.le_trans (Nat.le_max_right _ _) h.words⟩
  rw [Frame.paramSlot, habove]
  exact h.params u (List.mem_append_right _ hu) position hposition

private theorem inReach_declare {decl : Variable} {e : Expression}
    (h : Fits p reach f (Source.statementUses c (.declare decl e))
      (Source.peak · f.live (.declare decl e))) :
    InReach p (f.declare decl.id) (Source.expressionUses e) :=
  ⟨fun _ hu ↦ h.params _ (List.mem_map_of_mem hu), h.live⟩

private theorem stackWords_le (h : Fits p reach f us (Source.peak · f.live st)) :
    f.live + stackWords st ≤ reach :=
  Nat.le_trans (Source.le_peak stackWords f.live st) h.words

end Fits

section Steps

variable (s : Surroundings) (f : Frame)

private theorem steps_choice (cond : Expression) (yes no : Statement) :
    (lowerStatement s f (.branch cond yes (some no))).1 = lowerCondition s f cond ++
      [.choose (inScope f.live (lowerStatement s f yes)).1
        (inScope f.live (lowerStatement s f no)).1] ++ [.settle f.live] := by
  obtain ⟨new, hnew, -⟩ := f.after_eq_extended yes
  obtain ⟨new', hnew', -⟩ := f.after_eq_extended no
  simp only [lowerStatement, inScope, settled, lowerStatement_frame, hnew, hnew',
    Frame.release_extended]

private theorem steps_cons (st : Statement) (sts : List Statement) :
    (lowerStatements s f (st :: sts)).1 =
      (lowerStatement s f st).1 ++ (lowerStatements s (f.after st) sts).1 := by
  simp only [lowerStatements, lowerStatement_frame]

end Steps

section Simulation

variable {p : Program} {code : CodeStream} {base : UInt64} {reach fuel : Nat}

private theorem length_locals {f : Frame} {env : Source.Environment} {s : State}
    (h : Resting f env s) : env.locals.length = f.live := by
  rw [← List.length_map Prod.fst, h.frame.names, Frame.live]

private theorem Located.unsettle {xs : List Step} {live o stop : Nat}
    (h : Located code base o (xs ++ [.settle live]) stop) : Located code base o xs stop := by
  obtain ⟨between, hxs, hsettle⟩ := h.append
  rwa [hsettle.settle.nil]

private theorem Simulated.inScope {st : Statement} {c : Scope} {f : Frame}
    {env : Source.Environment} {s : State} {o stop : Nat} (ih : Simulated p code base reach fuel st)
    (h : Located code base o
      (inScope f.live (lowerStatement ⟨p, .ofProgram p, false⟩ f st)).1 stop)
    (hst : Source.isStructured st)
    (hfits : Fits p reach f (Source.statementUses c st) (Source.peak · f.live st))
    (hs : Resting f env s) :
    Outcome code reach f o stop s
      (Source.inScope env.locals.length (Source.execute p fuel env st)) := by
  obtain ⟨between, hbody, hrelease⟩ := h.append
  obtain ⟨new, hnew, -⟩ := f.after_eq_extended st
  have hout := ih hbody hst hfits hs
  rw [lowerStatement_frame, hnew] at hrelease
  rw [hnew] at hout
  rw [length_locals hs]
  exact hout.inScope hrelease

private theorem simulated_block {body : List Statement}
    (ih : AllSimulated p code base reach fuel body) :
    Simulated p code base reach (fuel + 1) (.block body) := by
  intro c f env s o stop h hst hfits hs
  rw [lowerStatement] at h
  obtain ⟨between, hbody, hrelease⟩ := h.unsettle.append
  obtain ⟨new, hnew⟩ := f.foldl_after_eq_extended body
  have hout := ih hbody hst
    (hfits.mono (List.subset_append_left _ _) fun _ ↦ Nat.le_max_right _ _) hs
  rw [lowerStatements_frame, hnew] at hrelease
  rw [hnew] at hout
  rw [Source.execute, length_locals hs]
  exact hout.inScope hrelease

private theorem outcome_condition {cond : Expression} {f : Frame} {env : Source.Environment}
    {s : State} {o test isZero other stop : Nat} {r r' : Except Source.NoEnding Source.Ending}
    (htest : Located code base o (lowerCondition ⟨p, .ofProgram p, false⟩ f cond) test)
    (hbranch : BranchesTo code test isZero other) (hcond : Source.isScalar cond)
    (hreach : InReach p f (Source.expressionUses cond)) (hle : f.live + operandWords cond ≤ reach)
    (hfits : f.above + reach ≤ 2 ^ 61) (hs : Resting f env s)
    (hzero : ∀ t, Resting f env t → Outcome code reach f isZero stop t r)
    (hother : ∀ t, Resting f env t → Outcome code reach f other stop t r') :
    Outcome code reach f o stop s
      (Source.value p env cond >>= fun v ↦ if v = 0 then r else r') := by
  apply Outcome.value
  refine (gives_condition htest hcond hreach hle hfits hs).imp
    fun v ⟨t, ht, hflags, hrest, hsteady⟩ ↦ ?_
  have hgo := ht.trans (hbranch t _ hflags)
  by_cases hv : v = 0
  · rw [if_pos hv]
    rw [beq_iff_eq.mpr hv, if_pos rfl] at hgo
    exact (hzero t hrest).of_reaches hfits hgo hsteady
  · rw [if_neg hv]
    rw [beq_eq_false_iff_ne.mpr hv, if_neg Bool.false_ne_true] at hgo
    exact (hother t hrest).of_reaches hfits hgo hsteady

private theorem outcome_rest {f : Frame} {env : Source.Environment} {t : State} {o : Nat}
    (h : Resting f env t) : Outcome code reach f o o t (.ok (.goesOn env)) :=
  ⟨t, .refl, h, .refl t⟩

private theorem simulated_branch {cond : Expression} {yes : Statement}
    (ih : Simulated p code base reach fuel yes) :
    Simulated p code base reach (fuel + 1) (.branch cond yes none) := by
  intro c f env s o stop h hst hfits hs
  obtain ⟨hcond, hyes⟩ := Bool.and_eq_true_iff.mp hst
  rw [lowerStatement] at h
  obtain ⟨test, htest, hwhen⟩ := h.unsettle.append
  obtain ⟨start, hbody, hbranch⟩ := hwhen.when
  rw [Source.execute]
  have hreach := hfits.inReach (List.subset_append_left _ _)
  apply outcome_condition htest hbranch hcond hreach hfits.stackWords_le hfits.address hs
  · intro t ht
    exact outcome_rest ht
  · intro t ht
    exact ih.inScope hbody hyes
      (hfits.mono (List.subset_append_right _ _) fun _ ↦ Nat.le_max_right _ _) ht

private theorem simulated_choice {cond : Expression} {yes no : Statement}
    (ihyes : Simulated p code base reach fuel yes) (ihno : Simulated p code base reach fuel no) :
    Simulated p code base reach (fuel + 1) (.branch cond yes (some no)) := by
  intro c f env s o stop h hst hfits hs
  obtain ⟨hst, hno⟩ := Bool.and_eq_true_iff.mp hst
  obtain ⟨hcond, hyes⟩ := Bool.and_eq_true_iff.mp hst
  rw [steps_choice] at h
  obtain ⟨test, htest, hchoose⟩ := h.unsettle.append
  obtain ⟨start, finish, start', hfirst, hsecond, hbranch, hjump⟩ := hchoose.choose
  rw [Source.execute]
  have hreach := hfits.inReach (List.subset_append_left _ _)
  apply outcome_condition htest hbranch hcond hreach hfits.stackWords_le hfits.address hs
  · intro t ht
    have hfits' : Fits p reach f (Source.statementUses c no) (Source.peak · f.live no) :=
      hfits.mono (List.subset_append_of_subset_right _ (List.subset_append_right _ _))
        fun _ ↦ Nat.le_trans (Nat.le_max_right _ _) (Nat.le_max_right _ _)
    exact ihno.inScope hsecond hno hfits' ht
  · intro t ht
    have hfits' : Fits p reach f (Source.statementUses c yes) (Source.peak · f.live yes) :=
      hfits.mono (List.subset_append_of_subset_right _ (List.subset_append_left _ _))
        fun _ ↦ Nat.le_trans (Nat.le_max_left _ _) (Nat.le_max_right _ _)
    exact (ihyes.inScope hfirst hyes hfits' ht).jumps hjump

private theorem simulated_loop {cond : Expression} {body : Statement}
    (ihbody : Simulated p code base reach fuel body)
    (ihloop : Simulated p code base reach fuel (.loop cond body)) :
    Simulated p code base reach (fuel + 1) (.loop cond body) := by
  intro c f env s o stop h hst hfits hs
  obtain ⟨hcond, hbody⟩ := Bool.and_eq_true_iff.mp hst
  have hwhole := h
  rw [lowerStatement] at h
  obtain ⟨test, start, finish, htest, hinner, hbranch, hjump⟩ := h.unsettle.loop
  rw [Source.execute]
  have hreach := hfits.inReach (List.subset_append_left _ _)
  apply outcome_condition htest hbranch hcond hreach hfits.stackWords_le hfits.address hs
  · intro t ht
    exact outcome_rest ht
  · intro t ht
    have honce := ihbody.inScope hinner hbody
      (hfits.mono (List.subset_append_right _ _) fun _ ↦ Nat.le_max_right _ _) ht
    -- The jump back leads to the condition, from where the loop goes on with less fuel.
    refine (honce.jumps hjump).andThen rfl hfits.address fun env' u hu ↦ ?_
    exact ihloop hwhole hst hfits hu

private theorem allSimulated_cons {st : Statement} {sts : List Statement}
    (ih : Simulated p code base reach fuel st) (ihs : AllSimulated p code base reach fuel sts) :
    AllSimulated p code base reach (fuel + 1) (st :: sts) := by
  intro c f env s o stop h hst hfits hs
  obtain ⟨hst, hsts⟩ := Bool.and_eq_true_iff.mp hst
  rw [steps_cons] at h
  obtain ⟨between, hfirst, hrest⟩ := h.append
  obtain ⟨more, hmore⟩ := (f.after st).foldl_after_eq_extended sts
  have hout := ih hfirst hst
    (hfits.mono (List.subset_append_left _ _) fun _ ↦ Nat.le_max_left _ _) hs
  rw [Source.executeAll, List.foldl_cons]
  refine hout.andThen ?_ hfits.rest.address fun env' t ht ↦ ihs hrest hsts hfits.rest ht
  rw [hmore, Frame.above_extended]

/-- The code of statements does what they do, for every amount of fuel. -/
theorem simulated (fuel : Nat) :
    (∀ st, Simulated p code base reach fuel st) ∧
      ∀ sts, AllSimulated p code base reach fuel sts := by
  induction fuel with
  | zero => exact ⟨fun _ _ _ _ _ _ _ _ _ _ _ ↦ trivial, fun _ _ _ _ _ _ _ _ _ _ _ ↦ trivial⟩
  | succ fuel ih =>
    obtain ⟨ih, ihs⟩ := ih
    constructor
    · intro st
      cases st with
      | block body => exact simulated_block (ihs body)
      | branch cond yes no =>
        cases no with
        | none => exact simulated_branch (ih yes)
        | some no => exact simulated_choice (ih yes) (ih no)
      | loop cond body => exact simulated_loop (ih body) (ih _)
      | declare decl init =>
        intro c f env s o stop h hst hfits hs
        rw [lowerStatement] at h
        rw [Source.execute]
        exact outcome_declare h.unsettle hst hfits.inReach_declare hfits.stackWords_le
          hfits.address hs
      | assign target e =>
        intro c f env s o stop h hst hfits hs
        obtain ⟨hvar, he⟩ := Bool.and_eq_true_iff.mp hst
        rw [lowerStatement] at h
        rw [Source.execute]
        exact outcome_assign h.unsettle hvar he (hfits.inReach (List.Subset.refl _))
          hfits.stackWords_le hfits.address hs
      | giveBack value =>
        cases value with
        | none =>
          intro c f env s o stop h _ _ _
          rw [lowerStatement] at h
          have hleave : Located code base o (leaveSteps ⟨p, .ofProgram p, false⟩) stop := h.unsettle
          exact outcome_leave hleave fun v hv ↦ nomatch hv
        | some e =>
          intro c f env s o stop h hst hfits hs
          rw [lowerStatement] at h
          rw [Source.execute]
          exact outcome_giveBack h.unsettle hst (hfits.inReach (List.Subset.refl _))
            hfits.stackWords_le hfits.address hs
      | assignElement | call =>
        intro c f env s o stop _ hst
        cases hst
    · intro sts
      cases sts with
      | nil =>
        intro c f env s o stop h _ _ hs
        rw [h.nil]
        exact outcome_rest hs
      | cons st sts => exact allSimulated_cons (ih st) (ihs sts)

end Simulation

end NativeBackend
