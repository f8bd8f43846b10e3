import Mathlib.Order.Bounds.Basic
import NativeBackend.Inspect.Pattern

/-!
# Where patterns occur

`Pattern.Matches` says, kind by kind, which instructions a pattern stands for, and
`Pattern.OccursAt` at which indices a list of patterns does. The search answers with the least such
index. It comes to a scan of the starts up to the last one behind which all patterns fit, or of
zero alone where they outnumber the instructions.
-/

namespace NativeBackend.Machine

/-- A part is as wanted. -/
inductive Want.Admits {α : Type} : Want α → α → Prop
  | anything (a : α) : Admits .anything a
  | exactly (a : α) : Admits (.exactly a) a
  | such {test : α → Bool} {a : α} (h : test a) : Admits (.such test) a

private theorem Want.accepts_iff {α : Type} [DecidableEq α] {w : Want α} {a : α} :
    w.accepts a ↔ w.Admits a := by
  constructor
  · cases w with
    | anything => exact fun _ ↦ .anything a
    | exactly value =>
      intro h
      cases of_decide_eq_true h
      exact .exactly a
    | such test => exact .such
  · rintro (_ | _ | h)
    · rfl
    · exact decide_eq_true rfl
    · exact h

namespace Pattern

/-- An instruction is of the kind that a pattern names, and its parts are as wanted. A push or a
pop of a register and a push of a word in memory are kinds of their own. -/
inductive Matches : Pattern → Instruction → Prop
  | any (a : Instruction) : Matches .any a
  | push {reg : Want Register} {r : Register} (h : reg.Admits r) :
    Matches (.push reg) (.push (.reg r))
  | pushMem {operand : Want Operand} {o : Operand} (hmemory : o.isMemory) (h : operand.Admits o) :
    Matches (.pushMem operand) (.push o)
  | pushImm {value : Want Int32} {v : Int32} (h : value.Admits v) :
    Matches (.pushImm value) (.pushImm v)
  | pop {reg : Want Register} {r : Register} (h : reg.Admits r) :
    Matches (.pop reg) (.pop (.reg r))
  | alu {op : Want AluOp} {o : AluOp} (operand : Operand) (h : op.Admits o) :
    Matches (.alu op) (.alu o operand)
  | aluImm {op : Want AluOp} {o : AluOp} {value : Want Int32} {v : Int32} (operand : Operand)
      (hop : op.Admits o) (h : value.Admits v) :
    Matches (.aluImm op value) (.aluImm o operand v)
  | store {operand : Want Operand} {o : Operand} (h : operand.Admits o) :
    Matches (.store operand) (.movStore o)
  | load {operand : Want Operand} {o : Operand} (h : operand.Admits o) :
    Matches (.load operand) (.movLoad o)
  | movImm {value : Want Int32} {v : Int32} (operand : Operand) (h : value.Admits v) :
    Matches (.movImm value) (.movImm operand v)
  | movAbs {value : Want UInt64} {v : UInt64} (dst : Register) (h : value.Admits v) :
    Matches (.movAbs value) (.movAbs dst v)
  | lea (operand : Operand) : Matches .lea (.lea operand)
  | imul (operand : Operand) : Matches .imul (.imul operand)
  | idiv (operand : Operand) : Matches .idiv (.idiv operand)
  | neg (operand : Operand) : Matches .neg (.neg operand)
  | cqo : Matches .cqo .cqo
  | setcc {cond : Want Condition} {c : Condition} (dst : Register) (h : cond.Admits c) :
    Matches (.setcc cond) (.setcc c dst)
  | jmp (distance : Distance) : Matches .jmp (.jmp distance)
  | jcc {cond : Want Condition} {c : Condition} (distance : Distance) (h : cond.Admits c) :
    Matches (.jcc cond) (.jcc c distance)
  | call (distance : Int32) : Matches .call (.call distance)
  | ret : Matches .ret .ret
  | syscall : Matches .syscall .syscall

private theorem accepts_iff {p : Pattern} {a : Instruction} : p.accepts a ↔ p.Matches a := by
  constructor
  · fun_cases accepts p a <;>
      simp only [Bool.and_eq_true, Want.accepts_iff, Bool.false_eq_true, false_implies, and_imp] <;>
      intros <;> constructor <;> assumption
  · intro h
    cases h <;> simp_all [accepts, Want.accepts_iff]

/-- From an index on, the instructions are as many as the patterns at least, and each pattern
matches the instruction in its place. -/
structure OccursAt (ps : List Pattern) (is : List Instruction) (i : Nat) : Prop where
  fits : i + ps.length ≤ is.length
  matched : ∀ (j : Nat) (hj : j < ps.length), ps[j].Matches is[i + j]

section Starts

variable {p : Pattern} {ps : List Pattern} {a : Instruction} {is : List Instruction} {i : Nat}

private theorem occursAt_zero_cons :
    OccursAt (p :: ps) (a :: is) 0 ↔ p.Matches a ∧ OccursAt ps is 0 := by
  constructor
  · rintro ⟨hfits, hmatched⟩
    refine ⟨hmatched 0 (by simp), by simpa using hfits, fun j hj ↦ ?_⟩
    exact hmatched (j + 1) (by simpa using hj)
  · rintro ⟨hfirst, hfits, hmatched⟩
    refine ⟨by simpa using hfits, fun j hj ↦ ?_⟩
    cases j with
    | zero => exact hfirst
    | succ j => exact hmatched j (by simpa using hj)

/-- The test at the front of a list walks the patterns and the instructions together. -/
theorem acceptsStart_iff : acceptsStart ps is ↔ OccursAt ps is 0 := by
  fun_induction acceptsStart ps is with
  | case1 is => exact iff_of_true rfl ⟨by simp, fun j hj ↦ absurd hj (Nat.not_lt_zero j)⟩
  | case2 p ps => exact iff_of_false Bool.false_ne_true fun h ↦ absurd h.fits (by simp)
  | case3 p ps a is ih => rw [Bool.and_eq_true, accepts_iff, ih, occursAt_zero_cons]

private theorem occursAt_iff_drop (hi : i ≤ is.length) :
    OccursAt ps is i ↔ OccursAt ps (is.drop i) 0 := by
  constructor <;> rintro ⟨hfits, hmatched⟩ <;>
    exact ⟨by grind, fun j hj ↦ by simpa using hmatched j hj⟩

/-- The starts to try are those up to the last one behind which the patterns fit. -/
theorem occursAt_iff : OccursAt ps is i ↔
    i < is.length - ps.length + 1 ∧ acceptsStart ps (is.drop i) := by
  rw [acceptsStart_iff]
  constructor
  · intro h
    have hfits := h.fits
    exact ⟨by omega, (occursAt_iff_drop (by omega)).mp h⟩
  · rintro ⟨hstart, h⟩
    -- where the patterns outnumber the instructions the one start is zero
    exact (occursAt_iff_drop (by omega)).mpr h

end Starts

section Search

variable {ps : List Pattern} {is : List Instruction} {i : Nat}

/-- The search tries the starts in their order. -/
theorem find?_eq_scan (ps : List Pattern) (is : List Instruction) :
    find? ps is =
      (List.range (is.length - ps.length + 1)).find? fun i ↦ acceptsStart ps (is.drop i) := by
  induction is with
  | nil => cases ps <;> simp [find?, acceptsStart]
  | cons a is ih =>
    rw [find?, List.length_cons]
    by_cases hfits : ps.length ≤ is.length
    · rw [Nat.succ_sub hfits, List.range_succ_eq_map, List.find?_cons, List.find?_map, ih,
        List.drop_zero]
      cases acceptsStart ps (a :: is) <;> rfl
    · -- zero is the one start on both sides, since the rest is too short for the patterns
      have hrest : find? ps is = none := by
        rw [ih, List.find?_range_eq_none]
        intro i hi
        rw [Bool.not_eq_true', Bool.eq_false_iff]
        intro h
        have := (occursAt_iff.mpr ⟨hi, h⟩).fits
        omega
      rw [hrest, Nat.sub_eq_zero_of_le (by omega), List.range_succ_eq_map, List.find?_cons,
        List.drop_zero]
      cases acceptsStart ps (a :: is) <;> rfl

private theorem find?_eq_some_iff : find? ps is = some i ↔ IsLeast {k | OccursAt ps is k} i := by
  rw [find?_eq_scan, List.find?_range_eq_some]
  constructor
  · rintro ⟨haccepts, hstart, hbefore⟩
    refine ⟨occursAt_iff.mpr ⟨List.mem_range.mp hstart, haccepts⟩, fun k hk ↦ ?_⟩
    by_contra! hlt
    have hrefused := hbefore k hlt
    rw [(occursAt_iff.mp hk).2] at hrefused
    cases hrefused
  · rintro ⟨hi, hleast⟩
    obtain ⟨hstart, haccepts⟩ := occursAt_iff.mp hi
    refine ⟨haccepts, List.mem_range.mpr hstart, fun k hk ↦ ?_⟩
    rw [Bool.not_eq_true', Bool.eq_false_iff]
    intro h
    have hle : i ≤ k := hleast (occursAt_iff.mpr ⟨by omega, h⟩)
    omega

private theorem find?_eq_none_iff : find? ps is = none ↔ ∀ i, ¬ OccursAt ps is i := by
  simp [find?_eq_scan, occursAt_iff]

end Search

/-- The search gives the first index at which the patterns occur, and nothing exactly when they
occur nowhere, as patterns that outnumber the instructions do. No patterns at all occur at the
very start. -/
theorem finds_first_occurrence (ps : List Pattern) (is : List Instruction) :
    (∀ i, find? ps is = some i ↔ IsLeast {k | OccursAt ps is k} i) ∧
      (find? ps is = none ↔ ∀ i, ¬ OccursAt ps is i) ∧
      (is.length < ps.length → find? ps is = none) ∧
      find? [] is = some 0 := by
  refine ⟨fun i ↦ find?_eq_some_iff, find?_eq_none_iff, fun hlonger ↦ ?_, ?_⟩
  · refine find?_eq_none_iff.mpr fun i h ↦ ?_
    have := h.fits
    omega
  · refine find?_eq_some_iff.mpr ⟨?_, fun k _ ↦ Nat.zero_le k⟩
    exact acceptsStart_iff.mp rfl

/-- Two pushes in front of a pop: a push and a pop begin to match one place before they do. -/
def twoPushes : List Instruction := [.pushImm 1, .pushImm 2, .popReg .rax]

/-- A push and a pop are found at the second push, and four instructions not among three. -/
theorem finds_first_occurrence_twoPushes :
    find? [.pushImm .anything, .pop (.exactly .rax)] twoPushes = some 1 ∧
      IsLeast {k | OccursAt [.pushImm .anything, .pop (.exactly .rax)] twoPushes k} 1 ∧
      twoPushes.length < [any, any, any, any].length ∧
      find? [any, any, any, any] twoPushes = none :=
  ⟨by decide, ((finds_first_occurrence _ _).1 1).mp (by decide), by decide,
    (finds_first_occurrence _ _).2.2.1 (by decide)⟩

end Pattern

end NativeBackend.Machine
