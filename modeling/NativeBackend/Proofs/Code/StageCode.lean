import NativeBackend.Proofs.Code.Paths
import NativeBackend.Proofs.Emission.Reach
import NativeBackend.Proofs.Linking.EntryPoint

/-!
# The code of a stage

What a stage of generation emits is found again in the finished code, between the
offsets where the stage begins and ends: the instructions are those the steps were
assembled to, calls are aimed as far as names allow and static addresses are filled in.
-/

namespace NativeBackend

open Machine NativeBackend.Tree

/-- Code of steps among the instructions of a routine. -/
def Embedded (marks : List Marked) (o : Nat) (xs : List Step) : Prop :=
  ∃ ms, Assembled o xs ms ∧ ∀ m ∈ ms, m ∈ marks

namespace Embedded

variable {marks : List Marked} {o : Nat} {xs ys : List Step}

private theorem first (h : Embedded marks o (xs ++ ys)) : Embedded marks o xs := by
  obtain ⟨ms, hcode, hms⟩ := h
  obtain ⟨ms₁, ms₂, rfl, hxs, -⟩ := hcode.of_append
  exact ⟨ms₁, hxs, fun m hm ↦ hms m (List.mem_append_left _ hm)⟩

private theorem last (h : Embedded marks o (xs ++ ys)) : Embedded marks (o + stepsSize xs) ys := by
  obtain ⟨ms, hcode, hms⟩ := h
  obtain ⟨ms₁, ms₂, rfl, hxs, hys⟩ := hcode.of_append
  rw [hxs.extent_eq] at hys
  exact ⟨ms₂, hys, fun m hm ↦ hms m (List.mem_append_right _ hm)⟩

private theorem when (h : Embedded marks o [.when xs]) : Embedded marks (o + 6) xs := by
  obtain ⟨ms, hcode, hms⟩ := h
  cases hcode with
  | when encoded body_code _ _ =>
    cases encoded
    exact ⟨_, body_code, fun m hm ↦ hms m (by simp [hm])⟩

private theorem yes (h : Embedded marks o [.choose xs ys]) : Embedded marks (o + 6) xs := by
  obtain ⟨ms, hcode, hms⟩ := h
  cases hcode with
  | choose encoded yes_code _ _ _ _ _ _ =>
    cases encoded
    exact ⟨_, yes_code, fun m hm ↦ hms m (by simp [hm])⟩

private theorem no (h : Embedded marks o [.choose xs ys]) :
    Embedded marks (o + 6 + stepsSize xs + 5) ys := by
  obtain ⟨ms, hcode, hms⟩ := h
  cases hcode with
  | choose encoded yes_code encoded' start_eq no_code _ _ _ =>
    cases encoded
    cases encoded'
    rw [start_eq, yes_code.extent_eq] at no_code
    exact ⟨_, no_code, fun m hm ↦ hms m (by simp [hm])⟩

private theorem test (h : Embedded marks o [.loop xs ys]) : Embedded marks o xs := by
  obtain ⟨ms, hcode, hms⟩ := h
  cases hcode with
  | loop cond_code _ _ _ _ _ _ _ _ =>
    exact ⟨_, cond_code, fun m hm ↦ hms m (by simp [hm])⟩

private theorem loop (h : Embedded marks o [.loop xs ys]) :
    Embedded marks (o + stepsSize xs + 6) ys := by
  obtain ⟨ms, hcode, hms⟩ := h
  cases hcode with
  | loop cond_code test_eq encoded body_code _ _ _ _ _ =>
    cases encoded
    rw [test_eq, cond_code.extent_eq] at body_code
    exact ⟨_, body_code, fun m hm ↦ hms m (by simp [hm])⟩

end Embedded

/-- Code of steps ends behind as many bytes as the steps take. -/
theorem Located.stop_eq {code : CodeStream} {base : UInt64} {o stop : Nat} {xs : List Step}
    (h : Located code base o xs stop) : stop = o + stepsSize xs := by
  obtain ⟨ms, hcode, -, hstop⟩ := h
  rw [hstop, hcode.extent_eq]

section Stages

variable {p : Program} {o : Options} {entry : Routine} {code : Code} {z : Assembly} {j : Nat}
  {xs : List Step} {a b : Assembly} {base : UInt64} {parts : List Part} {q : Part}

private theorem Started.declared {r : Routine} (h : Started p entry j r a) :
    p.routines[j]? = some r := by
  cases h with
  | intro declared _ _ _ => exact declared

/-- The instructions of a stage are among those of its routine. -/
theorem Stage.embedded (hprogram : Runs (Assemble.program p o entry) .empty code z)
    (hlinked : Linked code base parts) (hsources : sources parts = routineSteps p entry)
    (hq : parts[Builtin.routines.length + j]? = some q) (h : Stage p entry j xs a b) :
    Embedded q.marks a.stream.size xs := by
  induction h with
  | @routine r a b begins body =>
    obtain ⟨q', r', hq', hstart, hr', hsteps⟩ :=
      hlinked.declared_part hsources (begins.begun hprogram)
    cases hq.symm.trans hq'
    cases begins.declared.symm.trans hr'
    refine ⟨q.marks, ?_, fun m hm ↦ hm⟩
    rw [← hstart, ← hsteps]
    exact q.assembled
  | first _ _ _ ih => exact ih.first
  | last _ before _ ih =>
    rw [size_of_steps before]
    exact ih.last
  | when _ run ih =>
    obtain ⟨skip, hskip, -, -⟩ := run
    rw [size_of_forward hskip]
    exact ih.when
  | yes _ run ih =>
    obtain ⟨skip, leave, hskip, -⟩ := run
    rw [size_of_forward hskip]
    exact ih.yes
  | no _ run ih =>
    obtain ⟨skip, leave, hskip, hyes, hleave, hland, -, -⟩ := run
    rw [(length_of_land hland).2, size_of_forward hleave, size_of_steps hyes,
      size_of_forward hskip]
    exact ih.no
  | test _ _ ih => exact ih.test
  | loop _ run ih =>
    obtain ⟨exit, hcond, hexit, -⟩ := run
    rw [size_of_forward hexit, size_of_steps hcond]
    exact ih.loop

/-- The steps of a stage are found in the finished code, with every instruction aimed. -/
theorem Stage.assembled (hprogram : Runs (Assemble.program p o entry) .empty code z)
    (hlinked : Linked code base parts) (hsources : sources parts = routineSteps p entry)
    (h : Stage p entry j xs a b) :
    ∃ ms, Assembled a.stream.size xs ms ∧ Holding code.stream base ms ∧
      b.stream.size = a.stream.size + extent ms ∧
      ∀ m ∈ ms, Aimed code.begun (fun offset ↦ base + UInt64.ofInt offset.toInt)
        (Builtin.routines.length + j) m := by
  obtain ⟨r, hr⟩ : ∃ r, p.routines[j]? = some r := by
    induction h with
    | routine begins _ => exact ⟨_, begins.declared⟩
    | first _ _ _ ih | last _ _ _ ih | when _ _ ih | yes _ _ ih | no _ _ ih | test _ _ ih
      | loop _ _ ih => exact ih
  obtain ⟨c, hc⟩ := exists_started hprogram hr
  obtain ⟨q, -, hq, -⟩ := hlinked.declared_part hsources (hc.begun hprogram)
  obtain ⟨ms, hcode, hms⟩ := h.embedded hprogram hlinked hsources hq
  refine ⟨ms, hcode, fun m hm ↦ ?_, ?_, fun m hm ↦ ?_⟩
  · exact hlinked.holding (List.mem_of_getElem? hq) m (hms m hm)
  · rw [size_of_steps h.runs, hcode.extent_eq]
  · rw [hlinked.begun]
    exact hlinked.aimed _ q hq m (hms m hm)

/-- The steps of a stage are in the finished code. -/
theorem Stage.located (hprogram : Runs (Assemble.program p o entry) .empty code z)
    (hlinked : Linked code base parts) (hsources : sources parts = routineSteps p entry)
    (h : Stage p entry j xs a b) :
    Located code.stream base a.stream.size xs b.stream.size := by
  obtain ⟨ms, hcode, hheld, hstop, -⟩ := h.assembled hprogram hlinked hsources
  exact ⟨ms, hcode, hheld, hstop⟩

end Stages

end NativeBackend
