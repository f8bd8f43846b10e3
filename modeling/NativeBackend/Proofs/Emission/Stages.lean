import NativeBackend.Proofs.Emission.WholeProgram

/-!
# Stages of generation

While a program is generated, the steps of every part of a routine are carried out from
one state of the code to another. `Stage` says which steps, and between which states.
Code changes only where something was left open: `Evolves` says that every instruction
keeps its place and its length, and that the jumps of a range stay as they are. What a
stage leaves behind evolves into the final code, with all its jumps.
-/

namespace NativeBackend

open Machine NativeBackend.Tree

/-- Whether an instruction is a jump. -/
def Machine.Instruction.isJump : Instruction → Bool
  | jmp _ | jcc _ _ => true
  | _ => false

/-- An instruction in the code is the same as before, or another one of those that are written with
an operand that is not known yet. -/
structure Revised (e e' : Emitted) : Prop where
  start : e'.start = e.start
  length : e'.bytes.length = e.bytes.length
  form : e' = e ∨ e.instruction.isPatchable = true ∧ e'.instruction.isPatchable = true

namespace Revised

variable {e e' e'' : Emitted}

private theorem refl (e : Emitted) : Revised e e := ⟨rfl, rfl, .inl rfl⟩

private theorem trans (h : Revised e e') (h' : Revised e' e'') : Revised e e'' := by
  refine ⟨h'.start.trans h.start, h'.length.trans h.length, ?_⟩
  rcases h.form with rfl | ⟨hopen, -⟩
  · exact h'.form
  · rcases h'.form with rfl | ⟨-, hopen'⟩
    · exact h.form
    · exact .inr ⟨hopen, hopen'⟩

end Revised

/-- Aiming a branch gives another branch that can be aimed. -/
theorem isPatchable_retarget {i j : Instruction} {origin target : Nat}
    (h : i.retarget origin target = .ok j) : i.isPatchable = true ∧ j.isPatchable = true := by
  rw [Instruction.retarget.eq_def] at h
  split at h
  · obtain ⟨d, -, rfl⟩ := jmpNear_eq_ok h
    exact ⟨rfl, rfl⟩
  · obtain ⟨d, -, rfl⟩ := jccNear_eq_ok h
    exact ⟨rfl, rfl⟩
  · obtain ⟨d, -, rfl⟩ := callTo_eq_ok h
    exact ⟨rfl, rfl⟩
  · cases h

/-- What overwriting an instruction does to every instruction. -/
theorem get?_of_patch {s t : CodeStream} {index : Nat} {e : Emitted} {i : Instruction}
    (he : s.get? index = some e) (h : s.patch index i = .ok t) :
    t.length = s.length ∧ t.size = s.size ∧
      ∃ bs, i.encode = .ok bs ∧ bs.length = e.bytes.length ∧
        ∀ k, t.get? k = if k = index then some ⟨i, e.start, bs⟩ else s.get? k := by
  rw [CodeStream.patch, he] at h
  simp only at h
  split at h
  · cases h
  · next bs hbs =>
    split at h
    · next hlength =>
      cases h
      refine ⟨Array.size_setIfInBounds, rfl, bs, hbs, hlength, fun k ↦ ?_⟩
      have hindex : index < s.entries.size := (Array.getElem?_eq_some_iff.mp he).1
      rw [CodeStream.get?, Array.getElem?_setIfInBounds]
      by_cases hk : k = index
      · rw [if_pos hk.symm, if_pos hk, if_pos (hk ▸ hindex)]
      · rw [if_neg (Ne.symm hk), if_neg hk]
        rfl
    · cases h

/-- Instructions behind the code leave it as it is. -/
theorem Appends.get? {a b : Assembly} {ms : List Marked} (h : Appends a b ms) {k : Nat}
    {e : Emitted} (he : a.stream.get? k = some e) : b.stream.get? k = some e := by
  rw [CodeStream.get?, ← Array.getElem?_toList] at he ⊢
  rw [h.entries]
  exact List.getElem?_append_left (List.getElem?_eq_some_iff.mp he).1 ▸ he

/-- Code grows, and every instruction keeps its place. The jumps with an index of a range stay as
they are. -/
def Evolves (low high : Nat) (s t : CodeStream) : Prop :=
  ∀ k e, s.get? k = some e → ∃ e', t.get? k = some e' ∧ Revised e e' ∧
    (low ≤ k → k < high → e.instruction.isJump = true → e' = e)

namespace Evolves

variable {low high low' high' : Nat} {s t u : CodeStream}

private theorem refl (s : CodeStream) : Evolves low high s s :=
  fun _ e he ↦ ⟨e, he, .refl e, fun _ _ _ ↦ rfl⟩

/-- What two stages leave unchanged, both together do. -/
theorem trans (h : Evolves low high s t) (h' : Evolves low high t u) : Evolves low high s u := by
  intro k e he
  obtain ⟨e', he', hrev, hjump⟩ := h k e he
  obtain ⟨e'', he'', hrev', hjump'⟩ := h' k e' he'
  refine ⟨e'', he'', hrev.trans hrev', fun hlow hhigh hi ↦ ?_⟩
  have hsame := hjump hlow hhigh hi
  rw [hjump' hlow hhigh (hsame ▸ hi), hsame]

private theorem mono (h : Evolves low high s t) (hlow : low ≤ low') (hhigh : high' ≤ high) :
    Evolves low' high' s t := by
  intro k e he
  obtain ⟨e', he', hrev, hjump⟩ := h k e he
  exact ⟨e', he', hrev, fun hl hh ↦ hjump (by omega) (by omega)⟩

/-- What is not said of jumps. -/
theorem forget (h : Evolves low high s t) : Evolves 0 0 s t := by
  intro k e he
  obtain ⟨e', he', hrev, -⟩ := h k e he
  exact ⟨e', he', hrev, fun _ hk ↦ absurd hk (Nat.not_lt_zero k)⟩

private theorem of_appends {a b : Assembly} {ms : List Marked} (h : Appends a b ms) :
    Evolves low high a.stream b.stream :=
  fun _ e he ↦ ⟨e, h.get? he, .refl e, fun _ _ _ ↦ rfl⟩

/-- Steps leave the instructions before them unchanged. -/
theorem of_steps (low high : Nat) {a b : Assembly} {xs : List Step}
    (h : Runs (Assemble.steps xs) a () b) : Evolves low high a.stream b.stream := by
  obtain ⟨ms, happends, -⟩ := assembled_steps xs h
  exact of_appends happends

/-- A branch outside the range is aimed. -/
theorem of_retarget {a b : Assembly} {site : Site} {target : Nat}
    (h : Runs (Assemble.retarget site target) a () b)
    (hsite : site.index < low ∨ high ≤ site.index) : Evolves low high a.stream b.stream := by
  obtain ⟨old, i, stream, log, hold, hi, hpatch, rfl⟩ := Assemble.runs_retarget h
  obtain ⟨-, -, bs, -, hlength, hget⟩ := get?_of_patch hold hpatch
  intro k e he
  by_cases hk : k = site.index
  · subst hk
    cases hold.symm.trans he
    refine ⟨_, (hget _).trans (if_pos rfl), ⟨rfl, hlength, .inr (isPatchable_retarget hi)⟩, ?_⟩
    intro hlow hhigh
    omega
  · exact ⟨e, ((hget k).trans (if_neg hk)).trans he, .refl e, fun _ _ _ ↦ rfl⟩

private theorem of_forward {a b : Assembly} {i : Instruction} {site : Site}
    (h : Runs (Assemble.forward i) a site b) : Evolves low high a.stream b.stream := by
  obtain ⟨-, bs, -, happends⟩ := Appends.of_forward h
  exact of_appends happends

private theorem of_jumpBack {a b : Assembly} {target : Nat}
    (h : Runs (Assemble.jumpBack target) a () b) : Evolves low high a.stream b.stream := by
  obtain ⟨i, bs, -, -, happends⟩ := Appends.of_jumpBack h
  exact of_appends happends

/-- A branch outside the range is aimed at the next instruction. -/
theorem of_land {a b : Assembly} {site : Site} (h : Runs (Assemble.land site) a () b)
    (hsite : site.index < low ∨ high ≤ site.index) : Evolves low high a.stream b.stream :=
  of_retarget h hsite

end Evolves

/-- What assembled instructions look like. -/
inductive Marked.Shape : Marked → Prop
  | plain (i : Instruction) (o : Nat) (bs : List UInt8) : Shape (.plain i o bs)
  | call (o : Nat) (d : Int32) (name : String) : Shape ⟨callAt o d, .call name⟩
  | static (o : Nat) (v : UInt64) (offset : Int32) : Shape ⟨loadAt o v, .static offset⟩

/-- Every assembled instruction has the shape of its purpose. -/
theorem Assembled.shape {o : Nat} {xs : List Step} {ms : List Marked} (h : Assembled o xs ms) :
    ∀ m ∈ ms, m.Shape := by
  induction h with
  | nil => exact fun m hm ↦ (List.not_mem_nil hm).elim
  | emit _ _ ih => exact List.forall_mem_cons.mpr ⟨.plain _ _ _, ih⟩
  | frame _ _ ih => exact List.forall_mem_cons.mpr ⟨.plain _ _ _, ih⟩
  | call _ ih => exact List.forall_mem_cons.mpr ⟨.call _ _ _, ih⟩
  | staticAddress _ ih => exact List.forall_mem_cons.mpr ⟨.static _ _ _, ih⟩
  | undeclared _ ih => exact ih
  | settle _ ih => exact ih
  | when _ _ _ _ ihbody ih =>
    exact List.forall_mem_cons.mpr ⟨.plain _ _ _, List.forall_mem_append.mpr ⟨ihbody, ih⟩⟩
  | choose _ _ _ _ _ _ _ _ ihyes ihno ih =>
    exact List.forall_mem_cons.mpr ⟨.plain _ _ _, List.forall_mem_append.mpr ⟨ihyes,
      List.forall_mem_cons.mpr ⟨.plain _ _ _, List.forall_mem_append.mpr ⟨ihno, ih⟩⟩⟩⟩
  | loop _ _ _ _ _ _ _ _ _ ihcond ihbody ih =>
    exact List.forall_mem_append.mpr ⟨ihcond, List.forall_mem_cons.mpr ⟨.plain _ _ _,
      List.forall_mem_append.mpr ⟨ihbody, List.forall_mem_cons.mpr ⟨.plain _ _ _, ih⟩⟩⟩⟩

/-- Linking changes the distances of calls and static addresses, and no jump. -/
theorem Relinks.revised {f : Marked → Marked} (hf : Relinks f) {parts : List Part} {m : Marked}
    (hm : m ∈ allMarks parts) :
    Revised m.entry (f m).entry ∧ (m.entry.instruction.isJump = true → (f m).entry = m.entry) := by
  obtain ⟨q, -, hm⟩ := List.mem_flatMap.mp hm
  cases q.assembled.shape m hm with
  | plain i o bs =>
    rw [hf.plain]
    exact ⟨.refl _, fun _ ↦ rfl⟩
  | call o d name =>
    obtain ⟨d', hd⟩ := hf.call o d name
    rw [hd]
    exact ⟨⟨rfl, rfl, .inr ⟨rfl, rfl⟩⟩, Bool.noConfusion⟩
  | static o v offset =>
    obtain ⟨v', hv⟩ := hf.static o v offset
    rw [hv]
    exact ⟨⟨rfl, rfl, .inr ⟨rfl, rfl⟩⟩, Bool.noConfusion⟩

/-- Linked code evolves from the code before. -/
theorem Relinks.evolves {f : Marked → Marked} (hf : Relinks f) {parts : List Part}
    {s t : CodeStream} (hs : s.entries.toList = (allMarks parts).map Marked.entry)
    (ht : t.entries.toList = ((allMarks parts).map f).map Marked.entry) (low high : Nat) :
    Evolves low high s t := by
  intro k e he
  rw [CodeStream.get?, ← Array.getElem?_toList, hs, List.getElem?_map] at he
  obtain ⟨m, hm, rfl⟩ := Option.map_eq_some_iff.mp he
  obtain ⟨hrev, hjump⟩ := hf.revised (List.mem_of_getElem? hm)
  refine ⟨(f m).entry, ?_, hrev, fun _ _ ↦ hjump⟩
  rw [CodeStream.get?, ← Array.getElem?_toList, ht, List.getElem?_map, List.getElem?_map, hm]
  rfl

namespace Built

variable {a b : Assembly} {parts : List Part}

private theorem evolves_startRoutine (h : Built a parts) {name : String} {start : Nat}
    (hr : Runs (Assemble.startRoutine name) a start b) (low high : Nat) :
    Evolves low high a.stream b.stream := by
  obtain ⟨-, f, hf, hb⟩ := h.startRoutine hr
  refine hf.evolves h.entries ?_ low high
  rw [hb.entries, allMarks_append, List.append_nil, allMarks_relink]

private theorem evolves_routine (h : Built a parts) {p : Program} {l : FieldLayout} {isEntry : Bool}
    {r : Routine} (hr : Runs (Assemble.routine p l isEntry r) a () b) (low high : Nat) :
    Evolves low high a.stream b.stream := by
  obtain ⟨start, c, d, log, hstart, hsteps, rfl⟩ := Assemble.runs_routine hr
  have hbody := Evolves.of_steps low high hsteps
  exact (h.evolves_startRoutine hstart low high).trans hbody

private theorem evolves_routines (h : Built a parts) {p : Program} {l : FieldLayout}
    {entry : Routine}
    {rs : List Routine} (hr : Runs (Assemble.routines p l entry rs) a () b) (low high : Nat) :
    Evolves low high a.stream b.stream := by
  induction rs generalizing a parts with
  | nil =>
    obtain ⟨-, rfl⟩ := Runs.pure_iff.mp hr
    exact .refl _
  | cons r rs ih =>
    obtain ⟨_, c, hfirst, hrest⟩ := Runs.bind_iff.mp hr
    obtain ⟨parts', h', -⟩ := h.routine hfirst
    exact (h.evolves_routine hfirst low high).trans (ih h' hrest)

private theorem evolves_complete (h : Built a parts) {l : FieldLayout} {o : Options} {code : Code}
    (hr : Runs (Assemble.complete l o) a code b) (low high : Nat) :
    Evolves low high a.stream code.stream := by
  obtain ⟨c, d, log, log', hc, hfill, rfl, -⟩ := Assemble.runs_complete hr
  have hstream : c.stream = a.stream := by rw [hc]
  have hd := h.filled hstream (by rw [hc]) hfill
  exact (relinks_filled _).evolves h.entries (by rw [hd]) low high

end Built

/-- What the body of a routine is lowered in. -/
def surroundings (p : Program) (entry r : Routine) : Surroundings :=
  ⟨p, .ofProgram p, Assemble.samePlace r entry⟩

/-- The state in which the steps of a routine begin, given the one in which it has started. -/
def Assembly.entered (a : Assembly) (isEntry : Bool) (start : Nat) : Assembly :=
  { a with entry := if isEntry then some start else a.entry, depth := .start }

/-- The states on the way through steps that are jumped over. -/
def RunsWhen (body : List Step) (a b c d : Assembly) : Prop :=
  ∃ skip, Runs (Assemble.forward (.jcc .equal (.near 0))) a skip b ∧
    Runs (Assemble.steps body) b () c ∧ Runs (Assemble.land skip) c () d

/-- The states on the way through steps of which one part is carried out. -/
def RunsChoose (yes no : List Step) (a a₁ a₂ a₃ a₄ a₅ b : Assembly) : Prop :=
  ∃ skip leave, Runs (Assemble.forward (.jcc .equal (.near 0))) a skip a₁ ∧
    Runs (Assemble.steps yes) a₁ () a₂ ∧ Runs (Assemble.forward (.jmp (.near 0))) a₂ leave a₃ ∧
    Runs (Assemble.land skip) a₃ () a₄ ∧ Runs (Assemble.steps no) a₄ () a₅ ∧
    Runs (Assemble.land leave) a₅ () b

/-- The states on the way through steps that are repeated. -/
def RunsLoop (cond body : List Step) (a a₁ a₂ a₃ a₄ b : Assembly) : Prop :=
  ∃ exit, Runs (Assemble.steps cond) a () a₁ ∧
    Runs (Assemble.forward (.jcc .equal (.near 0))) a₁ exit a₂ ∧
    Runs (Assemble.steps body) a₂ () a₃ ∧ Runs (Assemble.jumpBack a.stream.size) a₃ () a₄ ∧
    Runs (Assemble.land exit) a₄ () b

/-- The state in which the steps of the routine at a position of a program begin. -/
inductive Started (p : Program) (entry : Routine) (j : Nat) (r : Routine) : Assembly → Prop
  | intro {a₀ a₁ a₂ : Assembly} {start : Nat} (declared : p.routines[j]? = some r)
      (builtins : Runs (Assemble.builtins Builtin.routines) .empty () a₀)
      (earlier : Runs (Assemble.routines p (.ofProgram p) entry (p.routines.take j)) a₀ () a₁)
      (started : Runs (Assemble.startRoutine r.name) a₁ start a₂) :
      Started p entry j r (a₂.entered (Assemble.samePlace r entry) start)

/-- While a program with an entry is generated, steps of the routine at a position are carried out
from one state to another. -/
inductive Stage (p : Program) (entry : Routine) (j : Nat) :
    List Step → Assembly → Assembly → Prop
  | routine {r : Routine} {a b : Assembly} (begins : Started p entry j r a)
      (body : Runs (Assemble.steps (lowerMethod (surroundings p entry r) r.method)) a () b) :
      Stage p entry j (lowerMethod (surroundings p entry r) r.method) a b
  | first {xs ys : List Step} {a b c : Assembly} (whole : Stage p entry j (xs ++ ys) a c)
      (run : Runs (Assemble.steps xs) a () b) (rest : Runs (Assemble.steps ys) b () c) :
      Stage p entry j xs a b
  | last {xs ys : List Step} {a b c : Assembly} (whole : Stage p entry j (xs ++ ys) a c)
      (before : Runs (Assemble.steps xs) a () b) (run : Runs (Assemble.steps ys) b () c) :
      Stage p entry j ys b c
  | when {body : List Step} {a b c d : Assembly} (whole : Stage p entry j [.when body] a d)
      (run : RunsWhen body a b c d) : Stage p entry j body b c
  | yes {yes no : List Step} {a a₁ a₂ a₃ a₄ a₅ b : Assembly}
      (whole : Stage p entry j [.choose yes no] a b)
      (run : RunsChoose yes no a a₁ a₂ a₃ a₄ a₅ b) : Stage p entry j yes a₁ a₂
  | no {yes no : List Step} {a a₁ a₂ a₃ a₄ a₅ b : Assembly}
      (whole : Stage p entry j [.choose yes no] a b)
      (run : RunsChoose yes no a a₁ a₂ a₃ a₄ a₅ b) : Stage p entry j no a₄ a₅
  | test {cond body : List Step} {a a₁ a₂ a₃ a₄ b : Assembly}
      (whole : Stage p entry j [.loop cond body] a b)
      (run : RunsLoop cond body a a₁ a₂ a₃ a₄ b) : Stage p entry j cond a a₁
  | loop {cond body : List Step} {a a₁ a₂ a₃ a₄ b : Assembly}
      (whole : Stage p entry j [.loop cond body] a b)
      (run : RunsLoop cond body a a₁ a₂ a₃ a₄ b) : Stage p entry j body a₂ a₃

/-- A state that the routine at a position passes: one at an end of a stage. -/
inductive Passes (p : Program) (entry : Routine) (j : Nat) : Assembly → Prop
  | first {xs : List Step} {a b : Assembly} (stage : Stage p entry j xs a b) : Passes p entry j a
  | last {xs : List Step} {a b : Assembly} (stage : Stage p entry j xs a b) : Passes p entry j b

section Steps

variable {a b : Assembly} {x : Step} {xs ys : List Step}

private theorem runs_steps_append {u : Unit} : Runs (Assemble.steps (xs ++ ys)) a u b ↔
    ∃ c, Runs (Assemble.steps xs) a () c ∧ Runs (Assemble.steps ys) c u b := by
  rw [Assemble.steps_append, Runs.bind_iff]
  constructor
  · rintro ⟨_, c, hx, hy⟩
    exact ⟨c, hx, hy⟩
  · rintro ⟨c, hx, hy⟩
    exact ⟨(), c, hx, hy⟩

/-- A step by itself runs as steps do. -/
theorem runs_steps_singleton :
    Runs (Assemble.steps [x]) a () b ↔ Runs (Assemble.step x) a () b := by
  simp only [Assemble.steps, Runs.bind_iff, Runs.pure_iff]
  constructor
  · rintro ⟨_, c, hx, -, rfl⟩
    exact hx
  · intro hx
    exact ⟨(), b, hx, trivial, rfl⟩

/-- The stages of the assembly of steps under a condition. -/
theorem exists_runsWhen {body : List Step} (h : Runs (Assemble.steps [.when body]) a () b) :
    ∃ a₁ a₂, RunsWhen body a a₁ a₂ b := by
  rw [runs_steps_singleton, Assemble.step] at h
  simp only [Runs.bind_iff] at h
  obtain ⟨skip, a₁, hskip, _, a₂, hbody, hland⟩ := h
  exact ⟨a₁, a₂, skip, hskip, hbody, hland⟩

/-- The stages of the assembly of a choice. -/
theorem exists_runsChoose {yes no : List Step}
    (h : Runs (Assemble.steps [.choose yes no]) a () b) :
    ∃ a₁ a₂ a₃ a₄ a₅, RunsChoose yes no a a₁ a₂ a₃ a₄ a₅ b := by
  rw [runs_steps_singleton, Assemble.step] at h
  simp only [Runs.bind_iff] at h
  obtain ⟨skip, a₁, hskip, _, a₂, hyes, leave, a₃, hleave, _, a₄, hland, _, a₅, hno, hland'⟩ := h
  exact ⟨a₁, a₂, a₃, a₄, a₅, skip, leave, hskip, hyes, hleave, hland, hno, hland'⟩

/-- The stages of the assembly of a loop. -/
theorem exists_runsLoop {cond body : List Step}
    (h : Runs (Assemble.steps [.loop cond body]) a () b) :
    ∃ a₁ a₂ a₃ a₄, RunsLoop cond body a a₁ a₂ a₃ a₄ b := by
  rw [runs_steps_singleton, Assemble.step, Assemble.position_bind] at h
  simp only [Runs.bind_iff] at h
  obtain ⟨_, a₁, hcond, exit, a₂, hexit, _, a₃, hbody, _, a₄, hback, hland⟩ := h
  exact ⟨a₁, a₂, a₃, a₄, exit, hcond, hexit, hbody, hback, hland⟩

end Steps

namespace Stage

variable {p : Program} {entry : Routine} {j : Nat} {xs ys : List Step} {a b c : Assembly}

/-- The steps of a stage are carried out. -/
theorem runs (h : Stage p entry j xs a b) : Runs (Assemble.steps xs) a () b := by
  cases h with
  | routine _ body => exact body
  | first _ run _ => exact run
  | last _ _ run => exact run
  | when _ run =>
    obtain ⟨_, -, hbody, -⟩ := run
    exact hbody
  | yes _ run =>
    obtain ⟨_, _, -, hyes, -⟩ := run
    exact hyes
  | no _ run =>
    obtain ⟨_, _, -, -, -, -, hno, -⟩ := run
    exact hno
  | test _ run =>
    obtain ⟨_, hcond, -⟩ := run
    exact hcond
  | loop _ run =>
    obtain ⟨_, -, -, hbody, -⟩ := run
    exact hbody

/-- Steps in a row are two stages. -/
theorem split (h : Stage p entry j (xs ++ ys) a c) :
    ∃ b, Stage p entry j xs a b ∧ Stage p entry j ys b c := by
  obtain ⟨b, hx, hy⟩ := runs_steps_append.mp h.runs
  exact ⟨b, h.first hx hy, h.last hx hy⟩

end Stage

private theorem routines_append (p : Program) (l : FieldLayout) (entry : Routine)
    (xs ys : List Routine) : Assemble.routines p l entry (xs ++ ys) =
      Assemble.routines p l entry xs >>= fun _ ↦ Assemble.routines p l entry ys := by
  induction xs with
  | nil => rfl
  | cons x xs ih => simp only [List.cons_append, Assemble.routines, ih, bind_assoc]

section Evolution

variable {p : Program} {o : Options} {entry : Routine} {code : Code} {z : Assembly} {j : Nat}
  {xs : List Step} {a b : Assembly}

/-- The run of a whole program goes through each of its routines. -/
theorem runs_routine_of_program (hprogram : Runs (Assemble.program p o entry) .empty code z)
    {r : Routine} (hr : p.routines[j]? = some r) :
    ∃ a₀ a₁ a₂ a₃, Runs (Assemble.builtins Builtin.routines) .empty () a₀ ∧
      Runs (Assemble.routines p (.ofProgram p) entry (p.routines.take j)) a₀ () a₁ ∧
      Runs (Assemble.routine p (.ofProgram p) (Assemble.samePlace r entry) r) a₁ () a₂ ∧
      Runs (Assemble.routines p (.ofProgram p) entry (p.routines.drop (j + 1))) a₂ () a₃ ∧
      Runs (Assemble.complete (.ofProgram p) o) a₃ code z := by
  simp only [Assemble.program, Runs.bind_iff] at hprogram
  obtain ⟨_, a₀, hbuiltins, _, a₃, hroutines, hcomplete⟩ := hprogram
  rw [eq_take_append_cons hr, routines_append] at hroutines
  obtain ⟨_, a₁, hearlier, hrest⟩ := Runs.bind_iff.mp hroutines
  obtain ⟨_, a₂, hroutine, hlater⟩ := Runs.bind_iff.mp hrest
  exact ⟨a₀, a₁, a₂, a₃, hbuiltins, hearlier, hroutine, hlater, hcomplete⟩

/-- The whole body of every routine is a stage. -/
theorem exists_stage (hprogram : Runs (Assemble.program p o entry) .empty code z) {r : Routine}
    (hr : p.routines[j]? = some r) :
    ∃ a b, Stage p entry j (lowerMethod (surroundings p entry r) r.method) a b := by
  obtain ⟨a₀, a₁, a₂, a₃, hbuiltins, hearlier, hroutine, -, -⟩ :=
    runs_routine_of_program hprogram hr
  obtain ⟨start, c, b, log, hstarted, hbody, -⟩ := Assemble.runs_routine hroutine
  exact ⟨_, b, .routine ⟨hr, hbuiltins, hearlier, hstarted⟩ hbody⟩

/-- What happens from where the steps of a routine begin. -/
theorem Started.runs (hprogram : Runs (Assemble.program p o entry) .empty code z) {r : Routine}
    (h : Started p entry j r a) :
    ∃ b log c parts,
      Runs (Assemble.steps (lowerMethod (surroundings p entry r) r.method)) a () b ∧
      Built { b with log } parts ∧
      Runs (Assemble.routines p (.ofProgram p) entry (p.routines.drop (j + 1)))
        { b with log } () c ∧
      Runs (Assemble.complete (.ofProgram p) o) c code z := by
  obtain ⟨declared, builtins, earlier, started⟩ := h
  obtain ⟨b₀, b₁, d, c, hbuiltins, hearlier, hroutine, hlater, hcomplete⟩ :=
    runs_routine_of_program hprogram declared
  obtain ⟨-, rfl⟩ := builtins.unique hbuiltins
  obtain ⟨-, rfl⟩ := earlier.unique hearlier
  obtain ⟨parts₀, h₀, -⟩ := Built.empty.builtins hbuiltins
  obtain ⟨parts₁, h₁, -⟩ := h₀.routines hearlier
  obtain ⟨parts₂, h₂, -⟩ := h₁.routine hroutine
  obtain ⟨start', c', b, log, hstarted, hbody, rfl⟩ := Assemble.runs_routine hroutine
  obtain ⟨rfl, rfl⟩ := started.unique hstarted
  exact ⟨b, log, c, parts₂, hbody, h₂, hlater, hcomplete⟩

/-- The code of a routine that is out evolves into the final code. -/
theorem Started.evolves (hprogram : Runs (Assemble.program p o entry) .empty code z) {r : Routine}
    (h : Started p entry j r a)
    (hbody : Runs (Assemble.steps (lowerMethod (surroundings p entry r) r.method)) a () b)
    (low high : Nat) : Evolves low high b.stream code.stream := by
  obtain ⟨b', log, c, parts, hbody', hbuilt, hlater, hcomplete⟩ := h.runs hprogram
  obtain ⟨-, rfl⟩ := hbody.unique hbody'
  obtain ⟨parts', hbuilt', -⟩ := hbuilt.routines hlater
  exact (hbuilt.evolves_routines hlater low high).trans
    (hbuilt'.evolves_complete hcomplete low high)

/-- A branch whose target is to come is one entry, at the end. -/
theorem length_of_forward {i : Instruction} {site : Site}
    (h : Runs (Assemble.forward i) a site b) :
    site.index = a.stream.length ∧ b.stream.length = a.stream.length + 1 := by
  obtain ⟨rfl, bs, -, happends⟩ := Appends.of_forward h
  exact ⟨rfl, happends.length⟩

/-- A jump back is one entry. -/
theorem length_of_jumpBack {target : Nat} (h : Runs (Assemble.jumpBack target) a () b) :
    b.stream.length = a.stream.length + 1 := by
  obtain ⟨i, bs, -, -, happends⟩ := Appends.of_jumpBack h
  exact happends.length

private theorem length_of_retarget {site : Site} {target : Nat} {u : Unit}
    (h : Runs (Assemble.retarget site target) a u b) :
    b.stream.length = a.stream.length ∧ b.stream.size = a.stream.size := by
  obtain ⟨e, i, stream, log, he, -, hpatch, rfl⟩ := Assemble.runs_retarget h
  obtain ⟨hlength, hsize, -⟩ := get?_of_patch he hpatch
  exact ⟨hlength, hsize⟩

/-- Calls that are aimed keep their places, and the state is otherwise what it was. -/
theorem state_of_retargetAll {sites : List Site} {target : Nat} {u : Unit}
    (h : Runs (Assemble.retargetAll target sites) a u b) :
    ∃ stream log, b = { a with stream, log } ∧ stream.length = a.stream.length ∧
      stream.size = a.stream.size := by
  induction sites generalizing a with
  | nil =>
    obtain ⟨-, rfl⟩ := Runs.pure_iff.mp h
    exact ⟨b.stream, b.log, rfl, rfl, rfl⟩
  | cons site sites ih =>
    obtain ⟨_, c, hfirst, hrest⟩ := Runs.bind_iff.mp h
    obtain ⟨hlength, hsize⟩ := length_of_retarget hfirst
    obtain ⟨_, _, stream, log, -, -, -, rfl⟩ := Assemble.runs_retarget hfirst
    obtain ⟨stream', log', rfl, hlength', hsize'⟩ := ih hrest
    exact ⟨stream', log', rfl, hlength'.trans hlength, hsize'.trans hsize⟩

/-- Aiming an earlier branch adds no entry and no byte. -/
theorem length_of_land {site : Site} (h : Runs (Assemble.land site) a () b) :
    b.stream.length = a.stream.length ∧ b.stream.size = a.stream.size := by
  rw [Assemble.land, Assemble.position_bind] at h
  exact length_of_retarget h

/-- Steps take no entry away. -/
theorem length_le_of_steps (h : Runs (Assemble.steps xs) a () b) :
    a.stream.length ≤ b.stream.length := by
  obtain ⟨ms, happends, -⟩ := assembled_steps xs h
  rw [happends.length]
  exact Nat.le_add_right _ _

/-- What a stage leaves evolves into the final code, with the jumps that the stage emitted. -/
theorem Stage.evolves (hprogram : Runs (Assemble.program p o entry) .empty code z)
    (h : Stage p entry j xs a b) :
    Evolves a.stream.length b.stream.length b.stream code.stream := by
  induction h with
  | routine begins body => exact begins.evolves hprogram body _ _
  | first _ _ rest ih =>
    exact (Evolves.of_steps _ _ rest).trans (ih.mono le_rfl (length_le_of_steps rest))
  | last _ before _ ih => exact ih.mono (length_le_of_steps before) le_rfl
  | when _ run ih =>
    obtain ⟨skip, hskip, hbody, hland⟩ := run
    obtain ⟨hindex, hb⟩ := length_of_forward hskip
    obtain ⟨hd, -⟩ := length_of_land hland
    exact (Evolves.of_land hland (by omega)).trans (ih.mono (by omega) (by omega))
  | yes _ run ih =>
    obtain ⟨skip, leave, hskip, hyes, hleave, hland, hno, hland'⟩ := run
    obtain ⟨hindex, h₁⟩ := length_of_forward hskip
    obtain ⟨hindex', h₃⟩ := length_of_forward hleave
    obtain ⟨h₄, -⟩ := length_of_land hland
    have h₅ := length_le_of_steps hno
    obtain ⟨h₆, -⟩ := length_of_land hland'
    exact ((((Evolves.of_forward hleave).trans (.of_land hland (by omega))).trans
      (.of_steps _ _ hno)).trans (.of_land hland' (by omega))).trans
        (ih.mono (by omega) (by omega))
  | no _ run ih =>
    obtain ⟨skip, leave, hskip, hyes, hleave, hland, hno, hland'⟩ := run
    obtain ⟨-, h₁⟩ := length_of_forward hskip
    have h₂ := length_le_of_steps hyes
    obtain ⟨hindex', h₃⟩ := length_of_forward hleave
    obtain ⟨h₄, -⟩ := length_of_land hland
    obtain ⟨h₆, -⟩ := length_of_land hland'
    exact (Evolves.of_land hland' (by omega)).trans (ih.mono (by omega) (by omega))
  | test _ run ih =>
    obtain ⟨exit, hcond, hexit, hbody, hback, hland⟩ := run
    obtain ⟨hindex, h₂⟩ := length_of_forward hexit
    have h₃ := length_le_of_steps hbody
    have h₄ := length_of_jumpBack hback
    obtain ⟨h₅, -⟩ := length_of_land hland
    exact ((((Evolves.of_forward hexit).trans (.of_steps _ _ hbody)).trans
      (.of_jumpBack hback)).trans (.of_land hland (by omega))).trans (ih.mono le_rfl (by omega))
  | loop _ run ih =>
    obtain ⟨exit, hcond, hexit, hbody, hback, hland⟩ := run
    have h₁ := length_le_of_steps hcond
    obtain ⟨hindex, h₂⟩ := length_of_forward hexit
    have h₄ := length_of_jumpBack hback
    obtain ⟨h₅, -⟩ := length_of_land hland
    exact ((Evolves.of_jumpBack hback).trans (.of_land hland (by omega))).trans
      (ih.mono (by omega) (by omega))

end Evolution

end NativeBackend
