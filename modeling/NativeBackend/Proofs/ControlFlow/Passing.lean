import NativeBackend.Proofs.ControlFlow.Tracking
import NativeBackend.Proofs.Linking.EntryPoint

/-!
# The states that a routine passes

While a routine is emitted, there is a state just before each of its instructions, in which
the words on the operand stack are tracked. Emission only ever adds instructions at the end
or changes one in its place, so the instructions of a routine in the finished code are as
many as were emitted for it, and the state before each is found by the number of those
before it.
-/

namespace NativeBackend

open Machine NativeBackend.Tree

/-- Whether a step has no steps inside. -/
def Step.isPlain : Step → Bool
  | .when _ | .choose _ _ | .loop _ _ => false
  | _ => true

/-- A step without steps inside becomes one instruction at most. -/
theorem length_le_of_plain {x : Step} {a b : Assembly} (hx : x.isPlain = true)
    (h : Runs (Assemble.steps [x]) a () b) : b.stream.length ≤ a.stream.length + 1 := by
  obtain ⟨ms, happends, hcode⟩ := assembled_steps _ h
  rw [happends.length]
  cases hcode with
  | emit _ rest | frame _ rest | call rest | staticAddress rest =>
    cases rest
    exact le_rfl
  | undeclared rest | settle rest =>
    cases rest
    exact Nat.le_succ _
  | when | choose | loop => cases hx

section Stages

variable {p : Program} {entry : Routine} {j : Nat}

mutual

/-- There is a state before every instruction that a step becomes. -/
theorem passes_of_step : (x : Step) → {a b : Assembly} → Stage p entry j [x] a b → {n : Nat} →
    a.stream.length ≤ n → n < b.stream.length → ∃ c, Passes p entry j c ∧ c.stream.length = n
  | .when body, a, b, h, n, hlow, hhigh => by
    obtain ⟨a₁, a₂, hruns⟩ := exists_runsWhen h.runs
    have hbody := h.when hruns
    obtain ⟨skip, hskip, -, hland⟩ := hruns
    obtain ⟨-, h₁⟩ := length_of_forward hskip
    obtain ⟨h₂, -⟩ := length_of_land hland
    by_cases hn : n = a.stream.length
    · exact ⟨a, .first h, hn.symm⟩
    · exact passes_of_steps body hbody (by omega) (by omega)
  -- the jump over the second part stands where the first part ends
  | .choose yes no, a, b, h, n, hlow, hhigh => by
    obtain ⟨a₁, a₂, a₃, a₄, a₅, hruns⟩ := exists_runsChoose h.runs
    have hyes := h.yes hruns
    have hno := h.no hruns
    obtain ⟨skip, leave, hskip, -, hleave, hland, -, hland'⟩ := hruns
    obtain ⟨-, h₁⟩ := length_of_forward hskip
    obtain ⟨-, h₃⟩ := length_of_forward hleave
    obtain ⟨h₄, -⟩ := length_of_land hland
    obtain ⟨h₆, -⟩ := length_of_land hland'
    by_cases hn : n = a.stream.length
    · exact ⟨a, .first h, hn.symm⟩
    by_cases hn' : n = a₂.stream.length
    · exact ⟨a₂, .last hyes, hn'.symm⟩
    by_cases hfirst : n < a₂.stream.length
    · exact passes_of_steps yes hyes (by omega) hfirst
    · exact passes_of_steps no hno (by omega) (by omega)
  | .loop cond body, a, b, h, n, hlow, hhigh => by
    obtain ⟨a₁, a₂, a₃, a₄, hruns⟩ := exists_runsLoop h.runs
    have htest := h.test hruns
    have hbody := h.loop hruns
    obtain ⟨exit, -, hexit, -, hback, hland⟩ := hruns
    obtain ⟨-, h₂⟩ := length_of_forward hexit
    have h₄ := length_of_jumpBack hback
    obtain ⟨h₅, -⟩ := length_of_land hland
    by_cases hfirst : n < a₁.stream.length
    · exact passes_of_steps cond htest hlow hfirst
    by_cases hn : n = a₁.stream.length
    · exact ⟨a₁, .last htest, hn.symm⟩
    by_cases hn' : n = a₃.stream.length
    · exact ⟨a₃, .last hbody, hn'.symm⟩
    · exact passes_of_steps body hbody (by omega) (by omega)
  | .emit _, a, b, h, n, hlow, hhigh | .frame _, a, b, h, n, hlow, hhigh
  | .call _, a, b, h, n, hlow, hhigh | .staticAddress _, a, b, h, n, hlow, hhigh
  | .undeclared _, a, b, h, n, hlow, hhigh | .refuse _, a, b, h, n, hlow, hhigh
  | .settle _, a, b, h, n, hlow, hhigh => by
    have hle := length_le_of_plain rfl h.runs
    exact ⟨a, .first h, by omega⟩

private theorem passes_of_steps : (xs : List Step) → {a b : Assembly} → Stage p entry j xs a b →
    {n : Nat} → a.stream.length ≤ n → n < b.stream.length →
    ∃ c, Passes p entry j c ∧ c.stream.length = n
  | [], a, b, h, n, hlow, hhigh => by
    cases (Runs.pure_iff.mp h.runs).2
    omega
  | x :: xs, a, b, h, n, hlow, hhigh => by
    have hcons : Stage p entry j ([x] ++ xs) a b := h
    obtain ⟨c, hfirst, hrest⟩ := hcons.split
    by_cases hn : n < c.stream.length
    · exact passes_of_step x hfirst hlow hn
    · exact passes_of_steps xs hrest (by omega) hhigh

end

end Stages

/-- Steps become as many instructions wherever they are assembled. -/
theorem Assembled.length_eq {o o' : Nat} {xs : List Step} {ms ms' : List Marked}
    (h : Assembled o xs ms) (h' : Assembled o' xs ms') : ms.length = ms'.length := by
  induction h generalizing o' ms' with
  | nil =>
    cases h'
    rfl
  | emit _ _ ih =>
    cases h' with
    | emit _ rest => simp [ih rest]
  | frame _ _ ih =>
    cases h' with
    | frame _ rest => simp [ih rest]
  | call _ ih =>
    cases h' with
    | call rest => simp [ih rest]
  | staticAddress _ ih =>
    cases h' with
    | staticAddress rest => simp [ih rest]
  | undeclared _ ih =>
    cases h' with
    | undeclared rest => exact ih rest
  | settle _ ih =>
    cases h' with
    | settle rest => exact ih rest
  | when _ _ _ _ ihbody ih =>
    cases h' with
    | when _ body_code _ rest => simp [ihbody body_code, ih rest]
  | choose _ _ _ _ _ _ _ _ ihyes ihno ih =>
    cases h' with
    | choose _ yes_code _ _ no_code _ _ rest => simp [ihyes yes_code, ihno no_code, ih rest]
  | loop _ _ _ _ _ _ _ _ _ ihcond ihbody ih =>
    cases h' with
    | loop cond_code _ _ body_code _ _ _ _ rest =>
      simp [ihcond cond_code, ihbody body_code, ih rest]

section Layout

variable {o : Nat} {ms ms' ns ns' : List Marked}

private theorem Laid.eq_nil_of_extent (h : Laid o ms) (hzero : extent ms = 0) : ms = [] := by
  cases ms with
  | nil => rfl
  | cons m ms =>
    obtain ⟨-, hpos, -⟩ := h
    rw [extent_cons] at hzero
    omega

/-- Code up to an offset has one length. -/
theorem Laid.length_of_extent (h : Laid o (ms ++ ms')) (hsplit : ms ++ ms' = ns ++ ns')
    (hextent : extent ms = extent ns) : ms.length = ns.length := by
  have hns := (hsplit ▸ h).of_append.2
  rcases List.append_eq_append_iff.mp hsplit with ⟨between, rfl, rfl⟩ | ⟨between, rfl, rfl⟩
  · rw [extent_append] at hextent
    cases h.of_append.2.of_append.1.eq_nil_of_extent (by omega)
    simp
  · rw [extent_append] at hextent
    cases hns.of_append.1.eq_nil_of_extent (by omega)
    simp

end Layout

private theorem Linked.take_of_passes {p : Program} {o : Options} {entry : Routine} {code : Code}
    {z : Assembly} {base : UInt64} {parts : List Part} {j : Nat} {a : Assembly}
    (hlinked : Linked code base parts)
    (hprogram : Runs (Assemble.program p o entry) .empty code z) (h : Passes p entry j a) :
    extent ((allMarks parts).take a.stream.length) = a.stream.size ∧
      ((allMarks parts).take a.stream.length).length = a.stream.length := by
  have hevolves := h.evolves hprogram
  obtain ⟨r, a₀, -, -, ha⟩ := h.tracking
  refine ⟨(hlinked.take_of_evolves hevolves ha.size).1, ?_⟩
  have htake := hevolves.map_take fun e e' h ↦ h.length
  rw [hlinked.entries, ← List.map_take] at htake
  have hlength := congrArg List.length htake
  rwa [List.length_map, List.length_map, List.length_map] at hlength

/-- There is a state before every instruction of a routine of the program. -/
theorem Linked.exists_passes {p : Program} {o : Options} {entry : Routine} {code : Code}
    {z : Assembly} {base : UInt64} {parts : List Part} {j start : Nat} {name : String}
    (hlinked : Linked code base parts) (hsources : sources parts = routineSteps p entry)
    (hprogram : Runs (Assemble.program p o entry) .empty code z)
    (hbegun : code.begun[Builtin.routines.length + j]? = some (name, start)) {e : Emitted}
    (he : e ∈ code.entriesIn (Builtin.routines.length + j)) :
    ∃ c, Passes p entry j c ∧ c.stream.size = e.start := by
  obtain ⟨q, r, hq, hbegin, hr, hsteps⟩ := hlinked.declared_part hsources hbegun
  obtain ⟨a, ha⟩ := exists_started hprogram hr
  obtain ⟨b, -, -, -, hbody, -⟩ := ha.runs hprogram
  obtain ⟨ms, happends, hcode⟩ := assembled_steps _ hbody
  have hcount : ms.length = q.marks.length := hcode.length_eq (hsteps ▸ q.assembled)
  have hsize := ha.size_eq hprogram hbegun
  obtain ⟨l, rest, hsplit⟩ := List.append_of_mem he
  obtain ⟨before, inside, m, behind, hall, hbefore, rfl, rfl, hstart⟩ :=
    hlinked.exists_split hq hsplit
  have hinside : inside.length < q.marks.length := by
    rw [hlinked.entriesIn hq] at hsplit
    have hlength := congrArg List.length hsplit
    simp only [List.length_map, List.length_append, List.length_cons] at hlength
    omega
  obtain ⟨hextent, hlength⟩ := hlinked.take_of_passes hprogram (ha.passes hprogram)
  -- the code before the routine was as long when the routine began
  have hfirst : a.stream.length = before.length := by
    have hlaid := hlinked.contiguous.laid
    have hwhole := List.take_append_drop a.stream.length (allMarks parts)
    rw [← hwhole] at hlaid
    rw [← hlength]
    exact hlaid.length_of_extent (hwhole.trans hall) (by omega)
  obtain ⟨c, hc, hn⟩ := passes_of_steps _ (.routine ha hbody) (n := before.length + inside.length)
    (by omega) (by rw [happends.length]; omega)
  obtain ⟨hextent', -⟩ := hlinked.take_of_passes hprogram hc
  refine ⟨c, hc, ?_⟩
  rw [← hextent', hn, hall, ← List.length_append, ← List.append_assoc, List.take_left,
    extent_append, hbefore, hstart]

end NativeBackend
