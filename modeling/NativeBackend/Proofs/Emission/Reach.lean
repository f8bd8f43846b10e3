import NativeBackend.Proofs.Emission.Assembled

/-!
# How far branches reach

The size of code is known from its steps alone: a branch over steps and a call have the
same length wherever they lie, and how long a jump back is depends only on how far it
goes. So every branch of steps that are placed at an offset has an origin and a goal
before any code is there, and whether its distance can be written is a matter of sizes.
-/

namespace NativeBackend

open Machine

/-- A branch can be written: its end and its target lie in the lower half of the machine words and
32 bits hold the distance between them. -/
structure Spans (origin target length : Nat) : Prop where
  finish_lt : endOffset origin length < signedLimit
  target_lt : target < signedLimit
  le_distance : -0x80000000 ≤ (target : Int) - endOffset origin length
  distance_lt : (target : Int) - endOffset origin length < 0x80000000

/-- The length of the jump back over a count of bytes. -/
def backLength (bytes : Nat) : Nat := if bytes + 2 ≤ 128 then 2 else 5

/-- The bytes of an instruction. -/
def Machine.Instruction.size (i : Instruction) : Nat :=
  match i.encode with
  | .ok bs => bs.length
  | .error _ => 0

mutual

/-- The bytes of the code of a step. -/
def Step.size : Step → Nat
  | .emit i | .frame i => i.size
  | .call _ => Instruction.callLength
  | .staticAddress _ => 10
  | .undeclared _ | .refuse _ | .settle _ => 0
  | .when body => 6 + stepsSize body
  | .choose yes no => 6 + stepsSize yes + 5 + stepsSize no
  | .loop cond body =>
    let bytes := stepsSize cond + 6 + stepsSize body
    bytes + backLength bytes

/-- The bytes of the code of steps. -/
def stepsSize : List Step → Nat
  | [] => 0
  | x :: xs => x.size + stepsSize xs

end

/-- What a branch is to lead to. -/
inductive Goal
  | offset (target : Nat)
  /-- The routine that a name stands for. -/
  | routine (name : String)
  deriving DecidableEq, Repr

/-- A branch in its place. -/
structure BranchSite where
  origin : Nat
  length : Nat
  goal : Goal
  deriving DecidableEq, Repr

mutual

/-- The branches of a step at an offset. -/
def Step.branches (o : Nat) : Step → List BranchSite
  | .call name => [⟨o, Instruction.callLength, .routine name⟩]
  | .when body => ⟨o, 6, .offset (o + 6 + stepsSize body)⟩ :: branchSites (o + 6) body
  | .choose yes no =>
    let leave := o + 6 + stepsSize yes
    ⟨o, 6, .offset (leave + 5)⟩ :: branchSites (o + 6) yes ++
      ⟨leave, 5, .offset (leave + 5 + stepsSize no)⟩ :: branchSites (leave + 5) no
  | .loop cond body =>
    let test := o + stepsSize cond
    let stop := test + 6 + stepsSize body
    let back := backLength (stop - o)
    branchSites o cond ++ ⟨test, 6, .offset (stop + back)⟩ ::
      (branchSites (test + 6) body ++ [⟨stop, back, .offset o⟩])
  | .emit _ | .frame _ | .staticAddress _ | .undeclared _ | .refuse _ | .settle _ => []

/-- The branches of steps at an offset. -/
def branchSites (o : Nat) : List Step → List BranchSite
  | [] => []
  | x :: xs => x.branches o ++ branchSites (o + x.size) xs

end

/-- The offset of a goal, given those of the routines. -/
def Goal.offset? (routine : String → Option Nat) : Goal → Option Nat
  | offset target => some target
  | .routine name => routine name

/-- A branch can be written, given the offsets of the routines, unless it leads nowhere. -/
def BranchSite.Fits (routine : String → Option Nat) (b : BranchSite) : Prop :=
  ∀ target, b.goal.offset? routine = some target → Spans b.origin target b.length

/-- The end of a branch in the lower half of the machine words does not wrap. -/
theorem endOffset_eq_add {origin length : Nat} (horigin : origin < signedLimit)
    (hlength : length ≤ 6) : endOffset origin length = origin + length := by
  apply Nat.mod_eq_of_lt
  rw [signedLimit] at horigin
  rw [wordLimit]
  omega

/-- A distance is found exactly when it can be written. -/
theorem distance_isOk_iff {origin target length : Nat} :
    (distance origin target length).isOk = true ↔ Spans origin target length := by
  constructor
  · intro h
    cases hd : distance origin target length with
    | error cause =>
      rw [hd] at h
      cases h
    | ok d =>
      obtain ⟨hend, htarget, -, hsum⟩ := distance_eq_ok hd
      have hlow := d.le_toInt
      have hhigh := d.toInt_lt
      exact ⟨hend, htarget, by omega, by omega⟩
  · rintro ⟨hend, htarget, hback, hahead⟩
    rw [distance, if_neg (by omega), if_neg (by omega), if_pos ⟨hback, hahead⟩]
    rfl

/-- A branch with a distance spans it. -/
theorem Spans.of_distance {origin target length : Nat} {d : Int32}
    (h : distance origin target length = .ok d) : Spans origin target length :=
  distance_isOk_iff.mp (by rw [h]; rfl)

/-- A branch that spans its way has a distance. -/
theorem Spans.exists_distance {origin target length : Nat} (h : Spans origin target length) :
    ∃ d, distance origin target length = .ok d :=
  exists_ok_of_isOk (distance_isOk_iff.mpr h)

/-- A call that spans its way can be aimed. -/
theorem Spans.exists_callTo {origin target : Nat}
    (h : Spans origin target Instruction.callLength) :
    ∃ i, Instruction.callTo origin target = .ok i := by
  obtain ⟨d, hd⟩ := h.exists_distance
  exact ⟨.call d, by rw [Instruction.callTo, hd]; rfl⟩

/-- A jump back that can be written is found. -/
theorem Spans.exists_jmpFitted {o bytes : Nat} (h : Spans (o + bytes) o (backLength bytes))
    (hlt : o + bytes + backLength bytes < signedLimit) :
    ∃ j, Instruction.jmpFitted (o + bytes) o = .ok j := by
  have hback : 2 ≤ backLength bytes ∧ backLength bytes ≤ 5 := by
    unfold backLength
    split <;> omega
  have horigin : o + bytes < signedLimit := by omega
  have hlow := h.le_distance
  rw [endOffset_eq_add horigin (by omega)] at hlow
  have hend : endOffset (o + bytes) 2 = o + bytes + 2 := endOffset_eq_add horigin (by omega)
  have hshort : Spans (o + bytes) o 2 := ⟨by omega, by omega, by omega, by omega⟩
  obtain ⟨d, hd⟩ := hshort.exists_distance
  have hsum := (distance_eq_ok hd).2.2.2
  rw [Instruction.jmpFitted, hd]
  by_cases hfits : -128 ≤ d.toInt ∧ d.toInt ≤ 127
  · exact ⟨_, if_pos hfits⟩
  · have hlong : backLength bytes = 5 := if_neg (by omega)
    rw [hlong] at h
    obtain ⟨d', hd'⟩ := h.exists_distance
    refine ⟨.jmp (.near d'), (if_neg hfits).trans ?_⟩
    rw [Instruction.jmpNear, hd']
    rfl

/-- A jump back is as long as the bytes it goes over ask for. -/
theorem length_jmpFitted {o bytes : Nat} {j : Instruction} {bs : List UInt8}
    (h : Instruction.jmpFitted (o + bytes) o = .ok j) (hj : j.encode = .ok bs)
    (hlt : o + bytes < signedLimit) :
    bs.length = backLength bytes ∧ Spans (o + bytes) o (backLength bytes) := by
  obtain ⟨d, hd, hi⟩ := bind_eq_ok h
  obtain ⟨-, -, -, hsum⟩ := distance_eq_ok hd
  rw [endOffset_eq_add hlt (by omega)] at hsum
  split at hi
  · next hshort =>
    cases hi
    cases hj
    rw [backLength, if_pos (by omega)]
    exact ⟨rfl, .of_distance hd⟩
  · next hlong =>
    obtain ⟨d', hd', rfl⟩ := jmpNear_eq_ok hi
    cases hj
    rw [backLength, if_neg (by omega)]
    exact ⟨rfl, .of_distance hd'⟩

/-- The size of an instruction is the count of its bytes. -/
theorem size_eq_length {i : Instruction} {bs : List UInt8} (h : i.encode = .ok bs) :
    i.size = bs.length := by
  rw [Instruction.size, h]

/-- The sizes of steps in a row add up. -/
theorem stepsSize_append (xs ys : List Step) :
    stepsSize (xs ++ ys) = stepsSize xs + stepsSize ys := by
  induction xs with
  | nil => rw [List.nil_append, stepsSize, Nat.zero_add]
  | cons x xs ih => rw [List.cons_append, stepsSize, stepsSize, ih, Nat.add_assoc]

/-- Code has the size of its steps. -/
theorem Assembled.extent_eq {o : Nat} {xs : List Step} {ms : List Marked}
    (h : Assembled o xs ms) : extent ms = stepsSize xs := by
  induction h with
  | nil => rfl
  | emit encoded _ ih => rw [extent_cons, ih, stepsSize, Step.size, size_eq_length encoded]; rfl
  | frame encoded _ ih => rw [extent_cons, ih, stepsSize, Step.size, size_eq_length encoded]; rfl
  | call _ ih => rw [extent_cons, ih, stepsSize]; rfl
  | staticAddress _ ih => rw [extent_cons, ih, stepsSize]; rfl
  | undeclared _ ih => rw [ih, stepsSize, Step.size, Nat.zero_add]
  | settle _ ih => rw [ih, stepsSize, Step.size, Nat.zero_add]
  | when encoded _ _ _ ihbody ih =>
    cases encoded
    simp only [extent_cons, extent_append, ihbody, ih, stepsSize, Step.size, Marked.entry_plain]
    rw [Nat.add_assoc]
    rfl
  | choose encoded _ encoded' _ _ _ _ _ ihyes ihno ih =>
    cases encoded
    cases encoded'
    simp only [extent_cons, extent_append, ihyes, ihno, ih, stepsSize, Step.size,
      Marked.entry_plain]
    change 6 + (_ + (5 + _)) = _
    omega
  | @loop o test stop _ _ bs bs' _ _ _ first second _ _ test_eq encoded _ stop_eq aimed' encoded'
      aimed _ ihcond ihbody ih =>
    cases encoded
    have hstop : stop = o + (extent first + 6 + extent second) := by
      rw [stop_eq, test_eq]
      change o + extent first + 6 + extent second = _
      omega
    subst hstop
    obtain ⟨_, hd, -⟩ := jccNear_eq_ok aimed
    obtain ⟨hback, -⟩ := length_jmpFitted aimed' encoded'
      ((Nat.le_add_right _ _).trans_lt (distance_eq_ok hd).2.1)
    simp only [extent_cons, extent_append, ihcond, ihbody, ih, stepsSize, Step.size,
      Marked.entry_plain] at hback ⊢
    rw [hback]
    change _ + (6 + (_ + (_ + _))) = _
    omega

/-- A branch that is a call. -/
def BranchSite.isCall (b : BranchSite) : Bool :=
  match b.goal with
  | .routine _ => true
  | .offset _ => false

/-- The branch that an instruction is if it is there to call a routine. -/
def Marked.call? (m : Marked) : Option BranchSite :=
  match m.purpose with
  | .call name => some ⟨m.entry.start, Instruction.callLength, .routine name⟩
  | _ => none

/-- Branches are those of code: the ones around steps can be written, and the calls are the same. -/
structure Sited (ms : List Marked) (sites : List BranchSite) : Prop where
  spans : ∀ b ∈ sites, ∀ target, b.goal = .offset target → Spans b.origin target b.length
  calls : sites.filter BranchSite.isCall = ms.filterMap Marked.call?

namespace Sited

variable {ms ms' : List Marked} {sites sites' : List BranchSite}

private theorem append (h : Sited ms sites) (h' : Sited ms' sites') :
    Sited (ms ++ ms') (sites ++ sites') := by
  refine ⟨List.forall_mem_append.mpr ⟨h.spans, h'.spans⟩, ?_⟩
  rw [List.filter_append, List.filterMap_append, h.calls, h'.calls]

private theorem plain {i : Instruction} {o : Nat} {bs : List UInt8} (h : Sited ms sites) :
    Sited (.plain i o bs :: ms) sites := ⟨h.spans, h.calls⟩

private theorem static {o : Nat} {address : UInt64} {offset : Int32} (h : Sited ms sites) :
    Sited (⟨loadAt o address, .static offset⟩ :: ms) sites := ⟨h.spans, h.calls⟩

private theorem call {o : Nat} {d : Int32} {name : String} (h : Sited ms sites) :
    Sited (⟨callAt o d, .call name⟩ :: ms) (⟨o, Instruction.callLength, .routine name⟩ :: sites) :=
  ⟨List.forall_mem_cons.mpr ⟨nofun, h.spans⟩, congrArg (_ :: ·) h.calls⟩

private theorem branch {i : Instruction} {o target length : Nat} {bs : List UInt8}
    (hspans : Spans o target length) (h : Sited ms sites) :
    Sited (.plain i o bs :: ms) (⟨o, length, .offset target⟩ :: sites) := by
  refine ⟨List.forall_mem_cons.mpr ⟨fun t ht ↦ ?_, h.spans⟩, h.calls⟩
  cases ht
  exact hspans

/-- Every call of the code is one of the branches. -/
theorem mem_of_call (h : Sited ms sites) {m : Marked} (hm : m ∈ ms) {name : String}
    (hp : m.purpose = .call name) :
    ⟨m.entry.start, Instruction.callLength, .routine name⟩ ∈ sites := by
  have hcall : ⟨m.entry.start, Instruction.callLength, .routine name⟩ ∈
      ms.filterMap Marked.call? := List.mem_filterMap.mpr ⟨m, hm, by rw [Marked.call?, hp]⟩
  rw [← h.calls] at hcall
  exact (List.mem_filter.mp hcall).1

/-- Every branch to a routine is a call of the code. -/
theorem exists_call (h : Sited ms sites) {o length : Nat} {name : String}
    (hb : ⟨o, length, .routine name⟩ ∈ sites) :
    ∃ m ∈ ms, m.purpose = .call name ∧ m.entry.start = o ∧ length = Instruction.callLength := by
  have hcall : ⟨o, length, .routine name⟩ ∈ sites.filter BranchSite.isCall :=
    List.mem_filter.mpr ⟨hb, rfl⟩
  rw [h.calls] at hcall
  obtain ⟨m, hm, hcall⟩ := List.mem_filterMap.mp hcall
  cases hp : m.purpose with
  | call callee =>
    rw [Marked.call?, hp] at hcall
    cases hcall
    exact ⟨m, hm, hp, rfl, rfl⟩
  | plain | static =>
    rw [Marked.call?, hp] at hcall
    cases hcall

end Sited

/-- Where the branch behind the condition of a loop and its jump back lie. -/
theorem Assembled.loop_offsets {o test stop : Nat} {cond body : List Step}
    {first second : List Marked} (hcond : Assembled o cond first) (htest : test = o + extent first)
    (hbody : Assembled (test + 6) body second) (hstop : stop = test + 6 + extent second) :
    test = o + stepsSize cond ∧ stop = o + (stepsSize cond + 6 + stepsSize body) := by
  rw [hcond.extent_eq] at htest
  rw [hbody.extent_eq] at hstop
  omega

/-- The branches of steps are those of the code they become. -/
theorem Assembled.sited {o : Nat} {xs : List Step} {ms : List Marked} (h : Assembled o xs ms) :
    Sited ms (branchSites o xs) := by
  induction h with
  | nil => exact ⟨nofun, rfl⟩
  | emit encoded _ ih =>
    rw [branchSites, Step.branches, Step.size, size_eq_length encoded]
    exact .plain ih
  | frame encoded _ ih =>
    rw [branchSites, Step.branches, Step.size, size_eq_length encoded]
    exact .plain ih
  | call _ ih =>
    rw [branchSites, Step.branches, Step.size]
    exact .call ih
  | staticAddress _ ih =>
    rw [branchSites, Step.branches, Step.size]
    exact .static ih
  | undeclared _ ih =>
    rw [branchSites, Step.branches, Step.size]
    exact ih
  | settle _ ih =>
    rw [branchSites, Step.branches, Step.size]
    exact ih
  | @when o d bs body steps inner ms encoded body_code aimed _ ihbody ih =>
    cases encoded
    obtain ⟨_, hd, -⟩ := jccNear_eq_ok aimed
    rw [body_code.extent_eq] at hd ih
    rw [branchSites, Step.branches, Step.size, ← Nat.add_assoc]
    exact .branch (.of_distance hd) (ihbody.append ih)
  | @choose o start _ _ _ _ yes no _ first second _ encoded yes_code encoded' start_eq no_code
      aimed aimed' _ ihyes ihno ih =>
    cases encoded
    cases encoded'
    have hstart : start = o + 6 + stepsSize yes + 5 := by
      rw [start_eq, yes_code.extent_eq]
      rfl
    subst hstart
    obtain ⟨_, hd, -⟩ := jccNear_eq_ok aimed
    obtain ⟨_, hd', -⟩ := jmpNear_eq_ok aimed'
    rw [no_code.extent_eq] at hd' ih
    rw [yes_code.extent_eq] at hd'
    have hnext : o + (6 + stepsSize yes + 5 + stepsSize no) =
        o + 6 + stepsSize yes + 5 + stepsSize no := by
      omega
    rw [branchSites, Step.branches, Step.size, hnext, yes_code.extent_eq]
    simp only [List.append_assoc, List.cons_append]
    exact .branch (.of_distance hd) (ihyes.append (.branch (.of_distance hd') (ihno.append ih)))
  | @loop o test stop _ _ _ bs' cond body _ first second _ cond_code test_eq encoded body_code
      stop_eq aimed' encoded' aimed _ ihcond ihbody ih =>
    cases encoded
    obtain ⟨htest, hstop⟩ := cond_code.loop_offsets test_eq body_code stop_eq
    obtain ⟨_, hd, -⟩ := jccNear_eq_ok aimed
    subst htest hstop
    obtain ⟨hlength, hback⟩ := length_jmpFitted aimed' encoded'
      ((Nat.le_add_right _ _).trans_lt (distance_eq_ok hd).2.1)
    rw [hlength] at hd ih
    have hinside : o + stepsSize cond + 6 + stepsSize body =
        o + (stepsSize cond + 6 + stepsSize body) := by
      omega
    rw [branchSites, Step.branches, Step.size]
    simp only [hinside, Nat.add_sub_cancel_left, ← Nat.add_assoc o _ (backLength _)]
    simp only [List.append_assoc, List.cons_append, List.nil_append]
    exact ihcond.append (.branch (.of_distance hd) (ihbody.append (.branch hback ih)))

section Sizes

variable {a b : Assembly} {xs : List Step}

/-- Code grows by the size of the steps that are assembled. -/
theorem size_of_steps (h : Runs (Assemble.steps xs) a () b) :
    b.stream.size = a.stream.size + stepsSize xs := by
  obtain ⟨ms, happends, hcode⟩ := assembled_steps xs h
  rw [happends.size, hcode.extent_eq]

/-- Code grows by the size of a branch whose target is to come. -/
theorem size_of_forward {i : Instruction} {site : Site}
    (h : Runs (Assemble.forward i) a site b) : b.stream.size = a.stream.size + i.size := by
  obtain ⟨-, bs, hbs, happends⟩ := Appends.of_forward h
  rw [happends.size, size_eq_length hbs]
  simp

end Sizes

end NativeBackend
