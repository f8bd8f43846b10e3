import NativeBackend.Proofs.Emission.Stages
import NativeBackend.Proofs.Linking.Hiding

/-!
# The start of routines and of the program

Finished code has the offset at which each routine begins, in order, and that of the entry.
The state in which the steps of a routine begin tells both: its size is the offset of the
routine, and that offset is the one of the entry exactly if the routine is the entry.
-/

namespace NativeBackend

open Machine NativeBackend.Tree

section Runs

variable {a b : Assembly} {p : Program} {l : FieldLayout} {entry : Routine}

private theorem started_of_startRoutine {name : String} {start : Nat}
    (h : Runs (Assemble.startRoutine name) a start b) :
    b.routines.started = (name, start) :: a.routines.started ∧ b.entry = a.entry := by
  obtain ⟨-, c, log, hall, rfl⟩ := Assemble.runs_startRoutine h
  obtain ⟨stream, log', rfl, -, -⟩ := state_of_retargetAll hall
  exact ⟨rfl, rfl⟩

private theorem started_of_steps {xs : List Step} (h : Runs (Assemble.steps xs) a () b) :
    b.routines = a.routines ∧ b.entry = a.entry := by
  obtain ⟨ms, happends, -⟩ := assembled_steps xs h
  exact ⟨happends.routines, happends.entry⟩

private theorem started_of_routine {isEntry : Bool} {r : Routine} {u : Unit}
    (h : Runs (Assemble.routine p l isEntry r) a u b) :
    a.routines.started <:+ b.routines.started ∧ (isEntry = false → b.entry = a.entry) := by
  obtain ⟨start, c, d, log, hstart, hsteps, rfl⟩ := Assemble.runs_routine h
  obtain ⟨hstarted, hentry⟩ := started_of_startRoutine hstart
  obtain ⟨hroutines, hentry'⟩ := started_of_steps hsteps
  change a.routines.started <:+ d.routines.started ∧ (isEntry = false → d.entry = a.entry)
  rw [hroutines, hentry']
  refine ⟨hstarted ▸ List.suffix_cons _ _, fun hi ↦ ?_⟩
  rw [hi]
  exact hentry

private theorem started_of_routines {rs : List Routine} {u : Unit}
    (h : Runs (Assemble.routines p l entry rs) a u b) :
    a.routines.started <:+ b.routines.started ∧
      ((∀ r ∈ rs, Assemble.samePlace r entry = false) → b.entry = a.entry) := by
  induction rs generalizing a with
  | nil =>
    obtain ⟨-, rfl⟩ := Runs.pure_iff.mp h
    exact ⟨List.suffix_rfl, fun _ ↦ rfl⟩
  | cons r rs ih =>
    obtain ⟨_, c, hfirst, hrest⟩ := Runs.bind_iff.mp h
    obtain ⟨hsuffix, hentry⟩ := started_of_routine hfirst
    obtain ⟨hsuffix', hentry'⟩ := ih hrest
    refine ⟨hsuffix.trans hsuffix', fun hothers ↦ ?_⟩
    obtain ⟨hr, hrs⟩ := List.forall_mem_cons.mp hothers
    rw [hentry' hrs, hentry hr]

private theorem started_of_complete {parts : List Part} {o : Options} {code : Code}
    (hbuilt : Built a parts) (h : Runs (Assemble.complete l o) a code b) :
    code.routines = a.routines ∧ code.entry = a.entry := by
  obtain ⟨c, d, log, log', hc, hfill, rfl, -⟩ := Assemble.runs_complete h
  have hd := hbuilt.filled (by rw [hc]) (by rw [hc]) hfill
  rw [hd, hc]
  exact ⟨rfl, rfl⟩

end Runs

section Places

private theorem pairwise_zipIdx {α : Type} (xs : List α) (n : Nat) :
    (xs.zipIdx n).Pairwise (·.2 ≠ ·.2) := by
  induction xs generalizing n with
  | nil => exact .nil
  | cons x xs ih =>
    refine .cons (fun y hy ↦ ?_) (ih (n + 1))
    have hle := List.le_snd_of_mem_zipIdx hy
    change n ≠ y.2
    omega

/-- No two routines have the same place. -/
theorem pairwise_routines (p : Program) :
    p.routines.Pairwise fun r s ↦ Assemble.samePlace r s = false := by
  rw [Program.routines, List.pairwise_flatMap]
  constructor
  · intro c _
    refine List.pairwise_map.mpr ((pairwise_zipIdx _ 0).imp fun hne ↦ ?_)
    exact Bool.and_eq_false_imp.mpr fun _ ↦ beq_eq_false_iff_ne.mpr hne
  · refine (pairwise_zipIdx p.classes 0).imp fun hne ↦ ?_
    intro r hr s hs
    obtain ⟨_, -, rfl⟩ := List.mem_map.mp hr
    obtain ⟨_, -, rfl⟩ := List.mem_map.mp hs
    have howner := beq_eq_false_iff_ne.mpr hne
    exact Bool.and_eq_false_iff.mpr (.inl howner)

/-- Two routines are at the same place if their positions are equal. -/
theorem samePlace_iff {r s : Routine} :
    Assemble.samePlace r s = true ↔ r.owner = s.owner ∧ r.position = s.position := by
  rw [Assemble.samePlace, Bool.and_eq_true, beq_iff_eq, beq_iff_eq]

/-- Routines of the same place are one. -/
theorem eq_of_samePlace {p : Program} {i j : Nat} {r s : Routine} (hi : p.routines[i]? = some r)
    (hj : p.routines[j]? = some s) (h : Assemble.samePlace r s = true) : i = j := by
  obtain ⟨hi', rfl⟩ := List.getElem?_eq_some_iff.mp hi
  obtain ⟨hj', rfl⟩ := List.getElem?_eq_some_iff.mp hj
  have hpairwise := List.pairwise_iff_getElem.mp (pairwise_routines p)
  by_contra hne
  rcases Nat.lt_or_gt_of_ne hne with hlt | hlt
  · exact Bool.false_ne_true ((hpairwise i j hi' hj' hlt).symm.trans h)
  · have h' := samePlace_iff.mpr ⟨(samePlace_iff.mp h).1.symm, (samePlace_iff.mp h).2.symm⟩
    exact Bool.false_ne_true ((hpairwise j i hj' hi' hlt).symm.trans h')

end Places

section Started

variable {p : Program} {o : Options} {entry : Routine} {code : Code} {z : Assembly} {j : Nat}
  {r : Routine} {a : Assembly}

/-- The steps of every routine begin in some state. -/
theorem exists_started (hprogram : Runs (Assemble.program p o entry) .empty code z)
    (hr : p.routines[j]? = some r) : ∃ a, Started p entry j r a := by
  obtain ⟨a₀, a₁, a₂, a₃, hbuiltins, hearlier, hroutine, -, -⟩ :=
    runs_routine_of_program hprogram hr
  obtain ⟨start, c, b, log, hstarted, -, -⟩ := Assemble.runs_routine hroutine
  exact ⟨_, ⟨hr, hbuiltins, hearlier, hstarted⟩⟩

private theorem Started.suffix (hprogram : Runs (Assemble.program p o entry) .empty code z)
    (h : Started p entry j r a) : a.routines.started <:+ code.routines.started := by
  obtain ⟨b, log, c, parts, hbody, hbuilt, hlater, hcomplete⟩ := h.runs hprogram
  obtain ⟨parts', hbuilt', -⟩ := hbuilt.routines hlater
  rw [(started_of_complete hbuilt' hcomplete).1, ← (started_of_steps hbody).1]
  exact (started_of_routines hlater).1

/-- A routine begins at the offset where its steps begin. -/
theorem Started.begun (hprogram : Runs (Assemble.program p o entry) .empty code z)
    (h : Started p entry j r a) :
    code.begun[Builtin.routines.length + j]? = some (r.name, a.stream.size) := by
  obtain ⟨new, hnew⟩ := h.suffix hprogram
  obtain @⟨a₀, a₁, a₂, start, declared, builtins, earlier, started⟩ := h
  obtain ⟨parts₀, h₀, hsources₀⟩ := Built.empty.builtins builtins
  obtain ⟨parts₁, h₁, hsources₁⟩ := h₀.routines earlier
  obtain ⟨hstart, -⟩ := h₁.startRoutine started
  have hlt := (List.getElem?_eq_some_iff.mp declared).1
  have hlength : a₁.routines.started.length = Builtin.routines.length + j := by
    have hsources := congrArg List.length hsources₁
    rw [hsources₀, List.length_append, List.length_append, List.length_map, List.length_map,
      List.length_take_of_le hlt.le, sources, List.length_map] at hsources
    rw [h₁.started, List.length_reverse, starts, List.length_map, hsources]
    rfl
  have hbegun : code.begun =
      a₁.routines.started.reverse ++ (r.name, a₂.stream.size) :: new.reverse := by
    rw [Code.begun, ← hnew, ← hstart]
    change (new ++ a₂.routines.started).reverse = _
    rw [(started_of_startRoutine started).1, List.reverse_append, List.reverse_cons,
      List.append_assoc]
    rfl
  rw [hbegun, ← hlength, ← List.length_reverse, List.getElem?_append_right le_rfl, Nat.sub_self]
  rfl

/-- Assembly starts a routine where the finished code says that it begins. -/
theorem Started.size_eq (hprogram : Runs (Assemble.program p o entry) .empty code z)
    (h : Started p entry j r a) {name : String} {start : Nat}
    (hbegun : code.begun[Builtin.routines.length + j]? = some (name, start)) :
    a.stream.size = start := by
  have hsame := (h.begun hprogram).symm.trans hbegun
  exact congrArg Prod.snd (Option.some.inj hsame)

/-- The entry begins at the offset that code has for it. -/
theorem Started.entry_eq (hprogram : Runs (Assemble.program p o entry) .empty code z)
    (h : Started p entry j r a) (hsame : Assemble.samePlace r entry = true) :
    code.entry = some a.stream.size := by
  obtain ⟨b, log, c, parts, hbody, hbuilt, hlater, hcomplete⟩ := h.runs hprogram
  obtain ⟨parts', hbuilt', -⟩ := hbuilt.routines hlater
  obtain @⟨a₀, a₁, a₂, start, declared, builtins, earlier, started⟩ := h
  have hothers : ∀ r' ∈ p.routines.drop (j + 1), Assemble.samePlace r' entry = false := by
    intro r' hr'
    obtain ⟨k, hk⟩ := List.mem_iff_getElem?.mp hr'
    rw [List.getElem?_drop] at hk
    rw [Bool.eq_false_iff]
    intro hsame'
    obtain ⟨howner, hposition⟩ := samePlace_iff.mp hsame
    obtain ⟨howner', hposition'⟩ := samePlace_iff.mp hsame'
    have heq := eq_of_samePlace declared hk (samePlace_iff.mpr
      ⟨howner.trans howner'.symm, hposition.trans hposition'.symm⟩)
    omega
  rw [(started_of_complete hbuilt' hcomplete).2, (started_of_routines hlater).2 hothers]
  change b.entry = _
  rw [(started_of_steps hbody).2]
  obtain ⟨parts₀, h₀, -⟩ := Built.empty.builtins builtins
  obtain ⟨parts₁, h₁, -⟩ := h₀.routines earlier
  obtain ⟨hstart, -⟩ := h₁.startRoutine started
  change (if Assemble.samePlace r entry then some start else a₂.entry) = some a₂.stream.size
  rw [if_pos hsame, hstart]

end Started

/-- Code with an entry is that of a program with one candidate for it. -/
theorem exists_entryCandidates {p : Program} {o : Options} {code : Code} {entry : Nat}
    (hcode : (generate p o).result = .ok code) (hentry : code.entry = some entry) :
    ∃ main, entryCandidates p o = [main] := by
  rw [generate] at hcode
  split at hcode
  · next main hmain => exact ⟨main, hmain⟩
  · cases hcode
    cases hentry

section Parts

variable {p : Program} {main : Routine} {code : Code} {base : UInt64} {parts : List Part}
  {start : Nat} {name : String}

/-- What begins at a position of the code is what the steps at that position became. -/
theorem Linked.part {k : Nat} (h : Linked code base parts)
    (hsources : sources parts = routineSteps p main)
    (hbegun : code.begun[k]? = some (name, start)) :
    ∃ q, parts[k]? = some q ∧ q.start = start ∧
      (routineSteps p main)[k]? = some (name, q.steps) := by
  rw [h.begun, starts, List.getElem?_map, Option.map_eq_some_iff] at hbegun
  obtain ⟨q, hq, hstart⟩ := hbegun
  cases hstart
  refine ⟨q, hq, rfl, ?_⟩
  rw [← hsources, sources, List.getElem?_map, hq]
  rfl

/-- Behind the built-in routines there are those of the program. -/
theorem Linked.declared_part {j : Nat} (h : Linked code base parts)
    (hsources : sources parts = routineSteps p main)
    (hbegun : code.begun[Builtin.routines.length + j]? = some (name, start)) :
    ∃ q r, parts[Builtin.routines.length + j]? = some q ∧ q.start = start ∧
      p.routines[j]? = some r ∧ q.steps = lowerMethod (surroundings p main r) r.method := by
  obtain ⟨q, hq, hstart, hsteps⟩ := h.part hsources hbegun
  rw [routineSteps, List.getElem?_append_right (by simp), List.length_map,
    Nat.add_sub_cancel_left, List.getElem?_map, Option.map_eq_some_iff] at hsteps
  obtain ⟨r, hr, hsource⟩ := hsteps
  exact ⟨q, r, hq, hstart, hr, (congrArg Prod.snd hsource).symm⟩

/-- The code of a method starts with its prologue. -/
theorem Assembled.prologue {start : Nat} {s : Surroundings} {m : MethodDecl}
    {ms : List Marked} (h : Assembled start (lowerMethod s m) ms) :
    ∃ e e' es, ms.map Marked.entry = e :: e' :: es ∧ e.start = start ∧
      [e.instruction, e'.instruction] = Builtin.prologue := by
  rw [lowerMethod, List.append_assoc] at h
  cases h with
  | frame _ rest =>
    cases rest with
    | frame _ _ => exact ⟨_, _, _, rfl, rfl, rfl⟩

end Parts

section Entry

variable {p : Program} {o : Options} {main : Routine} {code : Code} {z : Assembly} {entry : Nat}

/-- The entry is among the routines that begin. -/
theorem exists_begun_entry (hprogram : Runs (Assemble.program p o main) .empty code z)
    (hmain : main ∈ p.routines) (hentry : code.entry = some entry) :
    ∃ i, p.routines[i]? = some main ∧
      code.begun[Builtin.routines.length + i]? = some (main.name, entry) := by
  obtain ⟨i, hi⟩ := List.getElem?_of_mem hmain
  obtain ⟨a, ha⟩ := exists_started hprogram hi
  have hsame := ha.entry_eq hprogram (samePlace_iff.mpr ⟨rfl, rfl⟩)
  cases hsame.symm.trans hentry
  exact ⟨i, hi, ha.begun hprogram⟩

/-- A routine is the entry exactly if it begins where the entry does. -/
theorem Linked.samePlace_eq {r : Routine} {base : UInt64} {parts : List Part} {j start : Nat}
    {name : String} (hlinked : Linked code base parts)
    (hsources : sources parts = routineSteps p main)
    (hprogram : Runs (Assemble.program p o main) .empty code z) (hmain : main ∈ p.routines)
    (hentry : code.entry = some entry) (hr : p.routines[j]? = some r)
    (hbegun : code.begun[Builtin.routines.length + j]? = some (name, start)) :
    Assemble.samePlace r main = decide (start = entry) := by
  obtain ⟨i, hi, hbegun'⟩ := exists_begun_entry hprogram hmain hentry
  rw [Bool.eq_iff_iff, decide_eq_true_eq]
  constructor
  · intro hsame
    obtain ⟨a, ha⟩ := exists_started hprogram hr
    rw [← ha.size_eq hprogram hbegun]
    exact Option.some.inj ((ha.entry_eq hprogram hsame).symm.trans hentry)
  · rintro rfl
    cases Nat.add_left_cancel (hlinked.start_injective hsources hbegun hbegun')
    cases hr.symm.trans hi
    exact samePlace_iff.mpr ⟨rfl, rfl⟩

end Entry

end NativeBackend
