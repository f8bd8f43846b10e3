import NativeBackend.Proofs.Emission.Reach

/-!
# Branch arithmetic

A branch is asked for by what it does, with a four-byte distance or as a jump in the shortest
form that reaches. Which offsets can be reached is a matter of the end of the branch, and that
end lies as far behind its origin as the branch has bytes when it is encoded. A branch that is
found does what it was asked for and leads to its target, and aiming it anew keeps its length.
-/

namespace NativeBackend.Machine

/-- What a branch does, apart from where it leads. -/
inductive BranchKind
  /-- A jump, taken under a condition if there is one. -/
  | jump (cond : Option Condition)
  | call
  deriving DecidableEq, Repr

namespace Instruction

/-- A jump over a distance, taken under a condition if there is one. -/
def jumpOver (cond : Option Condition) (d : Distance) : Instruction :=
  match cond with
  | none => jmp d
  | some cond => jcc cond d

/-- What an instruction does if it is a branch. -/
def kind? : Instruction → Option BranchKind
  | jmp _ => some (.jump none)
  | jcc cond _ => some (.jump (some cond))
  | call _ => some .call
  | _ => none

/-- The distance of an instruction if it is a branch. -/
def displacement? : Instruction → Option Int
  | jmp d | jcc _ d => some d.toInt
  | call d => some d.toInt
  | _ => none

/-- Whether an instruction is a branch with a one-byte distance. -/
def isShort : Instruction → Bool
  | jmp (.short _) | jcc _ (.short _) => true
  | _ => false

/-- Whether an instruction is a branch with a four-byte distance. -/
def isNear : Instruction → Bool
  | jmp (.near _) | jcc _ (.near _) | call _ => true
  | _ => false

end Instruction

namespace BranchKind

/-- The branch with a four-byte distance. -/
def withDistance (d : Int32) : BranchKind → Instruction
  | jump cond => .jumpOver cond (.near d)
  | call => .call d

/-- The bytes of a branch with a four-byte distance. -/
def nearLength : BranchKind → Nat
  | jump none | call => 5
  | jump (some _) => 6

end BranchKind

/-- A branch that is asked for. -/
inductive BranchRequest
  /-- A branch with a four-byte distance. -/
  | near (kind : BranchKind)
  /-- A jump in its two-byte form when that reaches. -/
  | fitted (cond : Option Condition)
  deriving DecidableEq, Repr

/-- A target is so close that one byte holds the distance of a two-byte branch to it. -/
structure InByte (origin target : Nat) : Prop where
  le_distance : -128 ≤ (target : Int) - endOffset origin 2
  distance_le : (target : Int) - endOffset origin 2 ≤ 127

namespace BranchRequest

/-- What the branch is to do. -/
def kind : BranchRequest → BranchKind
  | near kind => kind
  | fitted cond => .jump cond

/-- Whether the two-byte form is wanted. -/
def isFitted : BranchRequest → Bool
  | near _ => false
  | fitted _ => true

/-- The branch that is built for a request. -/
def aim (origin target : Nat) : BranchRequest → Except BranchFault Instruction
  | near (.jump none) => Instruction.jmpNear origin target
  | near (.jump (some cond)) => Instruction.jccNear cond origin target
  | near .call => Instruction.callTo origin target
  | fitted none => Instruction.jmpFitted origin target
  | fitted (some cond) => Instruction.jccFitted cond origin target

/-- The offsets from which a request can be met. The two-byte form is tried first, and its distance
must fit 32 bits even when another form is taken. -/
def Reaches (origin target : Nat) : BranchRequest → Prop
  | near kind => Spans origin target kind.nearLength
  | fitted cond => Spans origin target 2 ∧
      (InByte origin target ∨ Spans origin target (BranchKind.jump cond).nearLength)

/-- A branch is what was asked for. -/
structure Meets (r : BranchRequest) (origin target : Nat) (i : Instruction) : Prop where
  kind : i.kind? = some r.kind
  leads : i.branchTarget? origin = some target
  near : r.isFitted = false → i.isNear = true
  short_iff : r.isFitted = true → origin < signedLimit → target < signedLimit →
    (i.isShort = true ↔
      -128 ≤ (target : Int) - (origin + 2) ∧ (target : Int) - (origin + 2) ≤ 127)
  two_bytes_iff : ∃ bs, i.encode = .ok bs ∧ (bs.length = 2 ↔ i.isShort = true)

end BranchRequest

/-- A branch was aimed anew. -/
structure Retargeted (i : Instruction) (origin target : Nat) (i' : Instruction) : Prop where
  near : i.isNear = true
  near' : i'.isNear = true
  kind : i'.kind? = i.kind?
  leads : i'.branchTarget? origin = some target
  length : ∃ bs bs', i.encode = .ok bs ∧ i'.encode = .ok bs' ∧ bs'.length = bs.length

section Kinds

variable (kind : BranchKind) (cond : Option Condition) (d : Int32) {i : Instruction}

@[simp] private theorem kind?_withDistance : (kind.withDistance d).kind? = some kind := by
  rcases kind with (_ | _) | _ <;> rfl

@[simp] private theorem isNear_withDistance : (kind.withDistance d).isNear = true := by
  rcases kind with (_ | _) | _ <;> rfl

@[simp] private theorem isShort_withDistance : (kind.withDistance d).isShort = false := by
  rcases kind with (_ | _) | _ <;> rfl

@[simp] private theorem branch?_withDistance :
    (kind.withDistance d).branch? = some (d.toInt, kind.nearLength) := by
  rcases kind with (_ | _) | _ <;> rfl

private theorem exists_withDistance (h : i.isNear = true) :
    ∃ (kind : BranchKind) (d : Int32), i = kind.withDistance d := by
  unfold Instruction.isNear at h
  split at h
  · exact ⟨.jump none, _, rfl⟩
  · exact ⟨.jump (some _), _, rfl⟩
  · exact ⟨.call, _, rfl⟩
  · cases h

@[simp] private theorem kind?_jumpOver (d : Distance) :
    (Instruction.jumpOver cond d).kind? = some (.jump cond) := by
  cases cond <;> rfl

@[simp] private theorem isShort_jumpOver (d : Int8) :
    (Instruction.jumpOver cond (.short d)).isShort = true := by
  cases cond <;> rfl

@[simp] private theorem branch?_jumpOver (d : Int8) :
    (Instruction.jumpOver cond (.short d)).branch? = some (d.toInt, 2) := by
  cases cond <;> rfl

end Kinds

section Lengths

variable {i : Instruction} {origin target : Nat}

/-- The length that a branch is counted with is that of its encoding, and its distance is the one
it holds. -/
theorem branch?_eq_some_iff {d : Int} {n : Nat} : i.branch? = some (d, n) ↔
    i.displacement? = some d ∧ ∃ bs, i.encode = .ok bs ∧ bs.length = n := by
  cases i with
  | jmp e => rcases e with _ | _ <;> simp [Instruction.branch?, Instruction.displacement?,
      Instruction.encode, Distance.jumpLength, dwordBytes]
  | jcc cond e => rcases e with _ | _ <;> simp [Instruction.branch?, Instruction.displacement?,
      Instruction.encode, Distance.conditionalLength, dwordBytes]
  | call e => simp [Instruction.branch?, Instruction.displacement?, Instruction.encode,
      Instruction.callLength, dwordBytes]
  | _ => simp [Instruction.branch?, Instruction.displacement?]

/-- Where a branch leads is measured from the end of its encoding. -/
theorem branchTarget?_eq_some_iff : i.branchTarget? origin = some target ↔
    ∃ d bs, i.displacement? = some d ∧ i.encode = .ok bs ∧
      endOffset origin bs.length < signedLimit ∧ target < signedLimit ∧
      (target : Int) = endOffset origin bs.length + d := by
  constructor
  · intro h
    obtain ⟨⟨d, n⟩, hbranch, h⟩ := Option.bind_eq_some_iff.mp h
    obtain ⟨hd, bs, hbs, rfl⟩ := branch?_eq_some_iff.mp hbranch
    dsimp only at h
    split at h
    · next hrange =>
      have htarget := Option.some.inj h
      exact ⟨d, bs, hd, hbs, hrange.1, by omega, by omega⟩
    · cases h
  · rintro ⟨d, bs, hd, hbs, hend, htarget, hsum⟩
    have hbranch : i.branch? = some (d, bs.length) := branch?_eq_some_iff.mpr ⟨hd, bs, hbs, rfl⟩
    have hrange : endOffset origin bs.length < signedLimit ∧
        0 ≤ (endOffset origin bs.length : Int) + d ∧
        (endOffset origin bs.length : Int) + d < signedLimit := by
      omega
    rw [Instruction.branchTarget?, hbranch]
    change (if _ then some ((endOffset origin bs.length : Int) + d).toNat else none) = _
    rw [if_pos hrange, ← hsum, Int.toNat_natCast]

/-- A branch over a distance that is right leads to its target. -/
theorem branchTarget?_withDistance {kind : BranchKind} {d : Int32}
    (h : distance origin target kind.nearLength = .ok d) :
    (kind.withDistance d).branchTarget? origin = some target :=
  branchTarget?_of_distance h (branch?_withDistance kind d)

end Lengths

section Requests

variable {r : BranchRequest} {kind : BranchKind} {cond : Option Condition} {origin target : Nat}
  {i : Instruction}

open BranchRequest

private theorem aim_near_eq_ok_iff : (near kind).aim origin target = .ok i ↔
    ∃ d, distance origin target kind.nearLength = .ok d ∧ i = kind.withDistance d := by
  have haim : (near kind).aim origin target =
      (distance origin target kind.nearLength).map fun d ↦ kind.withDistance d := by
    rcases kind with (_ | _) | _ <;> rfl
  rw [haim]
  cases distance origin target kind.nearLength <;> simp [Except.map, eq_comm]

/-- A fitted jump has a one-byte distance if that is enough, and is else what is found without
asking for the shortest form. -/
theorem aim_fitted_eq_ok_iff : (fitted cond).aim origin target = .ok i ↔
    ∃ d, distance origin target 2 = .ok d ∧
      if -128 ≤ d.toInt ∧ d.toInt ≤ 127 then i = .jumpOver cond (.short d.toInt8)
      else (near (.jump cond)).aim origin target = .ok i := by
  have haim : (fitted cond).aim origin target = (distance origin target 2 >>= fun d ↦
      if -128 ≤ d.toInt ∧ d.toInt ≤ 127 then .ok (.jumpOver cond (.short d.toInt8))
      else (near (.jump cond)).aim origin target) := by
    cases cond <;> rfl
  rw [haim]
  cases distance origin target 2 with
  | error cause => simp [bind, Except.bind]
  | ok d =>
    by_cases h : -128 ≤ d.toInt ∧ d.toInt ≤ 127 <;>
      simp [bind, Except.bind, h, eq_comm]

private theorem exists_distance_iff {length : Nat} :
    (∃ d, distance origin target length = .ok d) ↔ Spans origin target length :=
  ⟨fun ⟨_, h⟩ ↦ .of_distance h, Spans.exists_distance⟩

/-- The distance of the two-byte form tells how close the target is. -/
theorem inByte_iff {d : Int32} (h : distance origin target 2 = .ok d) :
    InByte origin target ↔ -128 ≤ d.toInt ∧ d.toInt ≤ 127 := by
  have hsum := (distance_eq_ok h).2.2.2
  constructor
  · rintro ⟨hlow, hhigh⟩
    omega
  · rintro ⟨hlow, hhigh⟩
    exact ⟨by omega, by omega⟩

/-- A request is met exactly when the offsets allow it. -/
theorem exists_aim_iff : (∃ i, r.aim origin target = .ok i) ↔ r.Reaches origin target := by
  have hnear (kind : BranchKind) :
      (∃ i, (near kind).aim origin target = .ok i) ↔ Spans origin target kind.nearLength := by
    simp only [aim_near_eq_ok_iff, ← exists_distance_iff]
    constructor
    · rintro ⟨_, d, hd, -⟩
      exact ⟨d, hd⟩
    · rintro ⟨d, hd⟩
      exact ⟨_, d, hd, rfl⟩
  cases r with
  | near kind => exact hnear kind
  | fitted cond =>
    simp only [aim_fitted_eq_ok_iff, Reaches, ← hnear]
    constructor
    · rintro ⟨i, d, hd, hi⟩
      refine ⟨.of_distance hd, ?_⟩
      split at hi
      · next hshort => exact .inl ((inByte_iff hd).mpr hshort)
      · exact .inr ⟨i, hi⟩
    · rintro ⟨hspans, hform⟩
      obtain ⟨d, hd⟩ := hspans.exists_distance
      by_cases hshort : -128 ≤ d.toInt ∧ d.toInt ≤ 127
      · exact ⟨_, d, hd, by rw [if_pos hshort]⟩
      · obtain hbyte | ⟨i, hi⟩ := hform
        · exact absurd ((inByte_iff hd).mp hbyte) hshort
        · exact ⟨i, d, hd, by rwa [if_neg hshort]⟩

private theorem nearLength_ne_two (kind : BranchKind) : kind.nearLength ≠ 2 := by
  rcases kind with (_ | _) | _ <;> simp [BranchKind.nearLength]

/-- The encoding of a branch has the length that the branch is counted with. -/
theorem exists_encode {d : Int} {n : Nat} (h : i.branch? = some (d, n)) :
    ∃ bs, i.encode = .ok bs ∧ bs.length = n := (branch?_eq_some_iff.mp h).2

private theorem meets_near (h : (near kind).aim origin target = .ok i) :
    (near kind).Meets origin target i := by
  obtain ⟨d, hd, rfl⟩ := aim_near_eq_ok_iff.mp h
  obtain ⟨bs, hbs, hlength⟩ := exists_encode (branch?_withDistance kind d)
  refine ⟨kind?_withDistance kind d, branchTarget?_withDistance hd,
    fun _ ↦ isNear_withDistance kind d, nofun, bs, hbs, ?_⟩
  simp [hlength, nearLength_ne_two]

/-- A branch that is built for a request is what was asked for. -/
theorem meets_of_aim (h : r.aim origin target = .ok i) : r.Meets origin target i := by
  cases r with
  | near kind => exact meets_near h
  | fitted cond =>
    obtain ⟨d, hd, hi⟩ := aim_fitted_eq_ok_iff.mp h
    have hsum := (distance_eq_ok hd).2.2.2
    split at hi
    · next hshort =>
      subst hi
      have hbranch := branch?_jumpOver cond d.toInt8
      obtain ⟨bs, hbs, hlength⟩ := exists_encode hbranch
      rw [toInt_toInt8_of_le hshort.1 hshort.2] at hbranch
      refine ⟨kind?_jumpOver cond _, branchTarget?_of_distance hd hbranch, nofun,
        fun _ horigin _ ↦ ?_, bs, hbs, by simp [hlength]⟩
      rw [endOffset_eq_add horigin (by omega)] at hsum
      simp only [isShort_jumpOver, true_iff]
      omega
    · next hlong =>
      have hmeets := meets_near hi
      refine ⟨hmeets.kind, hmeets.leads, nofun, fun _ horigin _ ↦ ?_, hmeets.two_bytes_iff⟩
      obtain ⟨d', -, rfl⟩ := aim_near_eq_ok_iff.mp hi
      rw [endOffset_eq_add horigin (by omega)] at hsum
      simp only [isShort_withDistance, Bool.false_eq_true, false_iff]
      omega

end Requests

section Retargets

variable {i i' : Instruction} {origin target : Nat}

/-- Aiming a branch anew is asking for one of its kind with a four-byte distance. -/
theorem retarget_withDistance (kind : BranchKind) (d : Int32) :
    (kind.withDistance d).retarget origin target =
      (BranchRequest.near kind).aim origin target := by
  rcases kind with (_ | _) | _ <;> rfl

private theorem isNear_of_retarget (h : i.retarget origin target = .ok i') : i.isNear = true := by
  unfold Instruction.retarget at h
  split at h
  · rfl
  · rfl
  · rfl
  · cases h

/-- Only branches with a four-byte distance are aimed anew, and only as far as that reaches. -/
theorem exists_retarget_iff : (∃ i', i.retarget origin target = .ok i') ↔
    i.isNear = true ∧ ∃ kind, i.kind? = some kind ∧ Spans origin target kind.nearLength := by
  constructor
  · rintro ⟨i', h⟩
    have hnear := isNear_of_retarget h
    obtain ⟨kind, d, rfl⟩ := exists_withDistance hnear
    rw [retarget_withDistance] at h
    exact ⟨hnear, kind, kind?_withDistance kind d, exists_aim_iff.mp ⟨i', h⟩⟩
  · rintro ⟨hnear, kind, hkind, hspans⟩
    obtain ⟨kind', d, rfl⟩ := exists_withDistance hnear
    rw [kind?_withDistance, Option.some.injEq] at hkind
    subst hkind
    rw [retarget_withDistance]
    exact exists_aim_iff.mpr hspans

private theorem retargeted_of_retarget (h : i.retarget origin target = .ok i') :
    Retargeted i origin target i' := by
  have hnear := isNear_of_retarget h
  obtain ⟨kind, d, rfl⟩ := exists_withDistance hnear
  rw [retarget_withDistance] at h
  have hmeets := meets_near h
  obtain ⟨d', -, rfl⟩ := aim_near_eq_ok_iff.mp h
  obtain ⟨bs, hbs, hlength⟩ := exists_encode (branch?_withDistance kind d)
  obtain ⟨bs', hbs', hlength'⟩ := exists_encode (branch?_withDistance kind d')
  exact ⟨hnear, isNear_withDistance kind d', by simp, hmeets.leads, bs, bs', hbs, hbs',
    hlength'.trans hlength.symm⟩

end Retargets

section Fitted

variable {origin target : Nat}

open BranchRequest

-- The target lies in the few bytes that the shorter form, being tried first, is too far from.
private theorem misses_iff (cond : Option Condition) (horigin : origin < signedLimit)
    (htarget : target < signedLimit) :
    (near (.jump cond)).Reaches origin target ∧ ¬(fitted cond).Reaches origin target ↔
      origin + 2 + 2 ^ 31 ≤ target ∧
        target < origin + (BranchKind.jump cond).nearLength + 2 ^ 31 := by
  have hend {length : Nat} (h : length ≤ 6) : endOffset origin length = origin + length :=
    endOffset_eq_add horigin h
  have hlength : 2 < (BranchKind.jump cond).nearLength ∧
      (BranchKind.jump cond).nearLength ≤ 6 := by
    cases cond <;> simp [BranchKind.nearLength]
  simp only [Reaches]
  constructor
  · rintro ⟨⟨hfinish, -, hlow, hhigh⟩, hmiss⟩
    rw [hend hlength.2] at hfinish hlow hhigh
    refine ⟨?_, by omega⟩
    by_contra hnear
    refine hmiss ⟨⟨?_, htarget, ?_, ?_⟩, .inr ⟨?_, htarget, ?_, ?_⟩⟩ <;>
      simp only [hend (by omega : 2 ≤ 6), hend hlength.2] <;> omega
  · rintro ⟨hlow, hhigh⟩
    refine ⟨⟨?_, htarget, ?_, ?_⟩, fun h ↦ ?_⟩
    · rw [hend hlength.2]
      omega
    · rw [hend hlength.2]
      omega
    · rw [hend hlength.2]
      omega
    · have hfar := h.1.distance_lt
      rw [hend (by omega)] at hfar
      omega

/-- A fitted jump reaches what one with a four-byte distance reaches, except for the first bytes
behind the reach of the two-byte form: three for a plain jump, and four for one under a
condition. -/
theorem fitted_misses_iff (cond : Condition) (horigin : origin < 2 ^ 63)
    (htarget : target < 2 ^ 63) :
    ((∃ i, Instruction.jmpNear origin target = .ok i) ∧
        (¬∃ i, Instruction.jmpFitted origin target = .ok i) ↔
      origin + 2 + 2 ^ 31 ≤ target ∧ target < origin + 5 + 2 ^ 31) ∧
    ((∃ i, Instruction.jccNear cond origin target = .ok i) ∧
        (¬∃ i, Instruction.jccFitted cond origin target = .ok i) ↔
      origin + 2 + 2 ^ 31 ≤ target ∧ target < origin + 6 + 2 ^ 31) := by
  have hmisses (cond : Option Condition) := misses_iff cond horigin htarget
  simp only [← exists_aim_iff] at hmisses
  exact ⟨hmisses none, hmisses (some cond)⟩

/-- A jump over two gigabytes to the first byte that is missed. -/
theorem fitted_misses_first_byte :
    (∃ i, Instruction.jmpNear 0x1000 0x80001002 = .ok i) ∧
      (¬∃ i, Instruction.jmpFitted 0x1000 0x80001002 = .ok i) ∧
      (∃ i, Instruction.jccNear .equal 0x1000 0x80001002 = .ok i) ∧
      ¬∃ i, Instruction.jccFitted .equal 0x1000 0x80001002 = .ok i := by
  have h := fitted_misses_iff .equal (by decide : 0x1000 < 2 ^ 63) (by decide : 0x80001002 < 2 ^ 63)
  obtain ⟨hjump, hjump'⟩ := h.1.mpr (by decide)
  exact ⟨hjump, hjump', h.2.mpr (by decide)⟩

/-- It is not so that a fitted jump reaches every target that a jump with a four-byte distance
reaches. -/
theorem not_forall_fitted_of_near :
    ¬∀ (cond : Condition) (origin target : Nat), origin < 2 ^ 63 → target < 2 ^ 63 →
      ((∃ i, Instruction.jmpNear origin target = .ok i) →
        ∃ i, Instruction.jmpFitted origin target = .ok i) ∧
      ((∃ i, Instruction.jccNear cond origin target = .ok i) →
        ∃ i, Instruction.jccFitted cond origin target = .ok i) := by
  intro h
  have hnear : Instruction.jmpNear 0 0x80000002 = .ok (.jmp (.near 0x7FFFFFFD)) := by decide
  have hfitted : Instruction.jmpFitted 0 0x80000002 = .error (.tooFar 0 0x80000002) := by decide
  obtain ⟨i, hi⟩ := (h .equal 0 0x80000002 (by decide) (by decide)).1 ⟨_, hnear⟩
  rw [hfitted] at hi
  cases hi

end Fitted

/-- What holds of all branches from an origin to a target. -/
structure BranchArithmetic (origin target : Nat) : Prop where
  reaches : ∀ r : BranchRequest, (∃ i, r.aim origin target = .ok i) ↔ r.Reaches origin target
  meets : ∀ (r : BranchRequest) (i : Instruction), r.aim origin target = .ok i →
    r.Meets origin target i
  /-- The end from which a branch is measured lies behind its encoding. -/
  measured : ∀ i : Instruction, i.branchTarget? origin = some target ↔
    ∃ d bs, i.displacement? = some d ∧ i.encode = .ok bs ∧
      (origin + bs.length) % 2 ^ 64 < 2 ^ 63 ∧ target < 2 ^ 63 ∧
      (target : Int) = ((origin + bs.length) % 2 ^ 64 : Nat) + d
  retargets : ∀ i : Instruction, (∃ i', i.retarget origin target = .ok i') ↔
    i.isNear = true ∧ ∃ kind, i.kind? = some kind ∧ Spans origin target kind.nearLength
  retargeted : ∀ i i' : Instruction, i.retarget origin target = .ok i' →
    Retargeted i origin target i'

/-- Branches lead where they are aimed, from every origin to every target. -/
theorem branchArithmetic (origin target : Nat) : BranchArithmetic origin target :=
  ⟨fun _ ↦ exists_aim_iff, fun _ _ ↦ meets_of_aim, fun _ ↦ branchTarget?_eq_some_iff,
    fun _ ↦ exists_retarget_iff, fun _ _ ↦ retargeted_of_retarget⟩

end NativeBackend.Machine
