import NativeBackend.Proofs.Emission.Stages
import NativeBackend.Proofs.OperandStack.Balance

/-!
# Placement of branches

The branches of conditional statements and loops are emitted before it is known where
they lead. `Placed` follows a statement and all those inside it through generation, from
the state in which its code begins to the one in which it ends, and says where its
branches are in the final code and where they lead. Every statement of every routine is
placed.
-/

namespace NativeBackend

open Machine NativeBackend.Tree

/-- Code with all the instructions of other code, apart from those with some indices. -/
def KeepsBut (sites : List Nat) (s t : CodeStream) : Prop :=
  ∀ k e, k ∉ sites → s.get? k = some e → t.get? k = some e

/-- Where the code of one state ends there is an instruction that leads to a target, and the code
of another state ends right behind it. -/
structure Leads (s : CodeStream) (a b : Assembly) (i : Instruction) (target : Nat) : Prop where
  placed : ∃ bs, i.encode = .ok bs ∧ s.get? a.stream.length = some ⟨i, a.stream.size, bs⟩ ∧
    b.stream.size = a.stream.size + bs.length
  next : b.stream.length = a.stream.length + 1
  leads : i.branchTarget? a.stream.size = some target

section Definitions

variable (p : Program) (entry : Routine) (j : Nat) (code : Code)

/-- The code of steps is emitted from one state to another. Everything emitted before stays as it
is, and what is emitted here keeps its place in the final code, with all its jumps. -/
structure Lasting (xs : List Step) (a b : Assembly) : Prop where
  stage : Stage p entry j xs a b
  earlier : KeepsBut [] a.stream b.stream
  later : Evolves a.stream.length b.stream.length b.stream code.stream

/-- Behind the code of a condition is the branch over the code that depends on it, to the first
byte after that code. No other instruction is changed. -/
structure PlacedWhen (cond body : List Step) (a test skip stop b : Assembly) : Prop where
  condition : Lasting p entry j code cond a test
  branch : ∃ d, Leads code.stream test skip (.jcc .equal (.near d)) stop.stream.size
  inside : Lasting p entry j code body skip stop
  finish : b.stream.size = stop.stream.size
  others : ∀ x ∈ [test, skip, stop], KeepsBut [test.stream.length] x.stream b.stream

/-- Behind the code of a condition is the branch over the first part, to the first byte of the
second one. Right before that byte the first part ends with the jump over the second one, to the
first byte after it. No other instruction is changed. -/
structure PlacedChoose (cond yes no : List Step) (a test skip stop past other last b : Assembly) :
    Prop where
  condition : Lasting p entry j code cond a test
  branch : ∃ d, Leads code.stream test skip (.jcc .equal (.near d)) other.stream.size
  first : Lasting p entry j code yes skip stop
  leave : ∃ d, Leads code.stream stop past (.jmp (.near d)) last.stream.size
  adjacent : past.stream.size = other.stream.size ∧ past.stream.length = other.stream.length
  second : Lasting p entry j code no other last
  finish : b.stream.size = last.stream.size
  others : ∀ x ∈ [test, skip, stop, past, other, last],
    KeepsBut [test.stream.length, stop.stream.length] x.stream b.stream

/-- Behind the code of a condition is the branch over the code that is repeated and the jump back,
to the first byte after that jump, which leads to the first byte of the condition. No other
instruction is changed. -/
structure PlacedLoop (cond body : List Step) (a test inside stop closed b : Assembly) : Prop where
  condition : Lasting p entry j code cond a test
  branch : ∃ d, Leads code.stream test inside (.jcc .equal (.near d)) closed.stream.size
  repeated : Lasting p entry j code body inside stop
  back : ∃ d, Leads code.stream stop closed (.jmp d) a.stream.size
  finish : b.stream.size = closed.stream.size
  others : ∀ x ∈ [test, inside, stop, closed], KeepsBut [test.stream.length] x.stream b.stream

/-- Whether a statement has no statements inside. -/
def Tree.Statement.isSimple : Statement → Bool
  | .block _ | .branch _ _ _ | .loop _ _ => false
  | _ => true

variable (s : Surroundings)

mutual

/-- The code of a statement is emitted from one state to another, and its branches and those of the
statements inside lead where they should in the final code. -/
inductive Placed : Frame → Statement → Assembly → Assembly → Prop
  | simple {f : Frame} {st : Statement} {a b : Assembly} (simple : st.isSimple = true)
      (whole : Lasting p entry j code (lowerStatement s f st).1 a b) : Placed f st a b
  | block {f : Frame} {body : List Statement} {a m b : Assembly}
      (whole : Lasting p entry j code (lowerStatement s f (.block body)).1 a b)
      (inner : PlacedAll f body a m) : Placed f (.block body) a b
  | when {f : Frame} {cond : Expression} {yes : Statement} {a test skip m stop b : Assembly}
      (whole : Lasting p entry j code (lowerStatement s f (.branch cond yes none)).1 a b)
      (shape : PlacedWhen p entry j code (lowerCondition s f cond) (scopedSteps s f yes)
        a test skip stop b)
      (inner : Placed f yes skip m) : Placed f (.branch cond yes none) a b
  | choose {f : Frame} {cond : Expression} {yes no : Statement}
      {a test skip m stop past other m' last b : Assembly}
      (whole : Lasting p entry j code (lowerStatement s f (.branch cond yes (some no))).1 a b)
      (shape : PlacedChoose p entry j code (lowerCondition s f cond) (scopedSteps s f yes)
        (scopedSteps s f no) a test skip stop past other last b)
      (first : Placed f yes skip m) (second : Placed f no other m') :
      Placed f (.branch cond yes (some no)) a b
  | loop {f : Frame} {cond : Expression} {body : Statement}
      {a test inside m stop closed b : Assembly}
      (whole : Lasting p entry j code (lowerStatement s f (.loop cond body)).1 a b)
      (shape : PlacedLoop p entry j code (lowerCondition s f cond) (scopedSteps s f body)
        a test inside stop closed b)
      (inner : Placed f body inside m) : Placed f (.loop cond body) a b

/-- So are statements in order. -/
inductive PlacedAll : Frame → List Statement → Assembly → Assembly → Prop
  | nil {f : Frame} {a : Assembly} : PlacedAll f [] a a
  | cons {f : Frame} {st : Statement} {sts : List Statement} {a b c : Assembly}
      (first : Placed f st a b) (rest : PlacedAll (lowerStatement s f st).2 sts b c) :
      PlacedAll f (st :: sts) a c

end

end Definitions

namespace KeepsBut

variable {sites sites' : List Nat} {s t u : CodeStream} {a b : Assembly}

private theorem trans (h : KeepsBut sites s t) (h' : KeepsBut sites t u) : KeepsBut sites s u :=
  fun k e hk he ↦ h' k e hk (h k e hk he)

private theorem of_appends {ms : List Marked} (h : Appends a b ms) :
    KeepsBut sites a.stream b.stream :=
  fun _ _ _ ↦ h.get?

private theorem of_steps {xs : List Step} (h : Runs (Assemble.steps xs) a () b) :
    KeepsBut sites a.stream b.stream := by
  obtain ⟨ms, happends, -⟩ := assembled_steps xs h
  exact of_appends happends

private theorem of_forward {i : Instruction} {site : Site}
    (h : Runs (Assemble.forward i) a site b) : KeepsBut sites a.stream b.stream := by
  obtain ⟨-, bs, -, happends⟩ := Appends.of_forward h
  exact of_appends happends

private theorem of_jumpBack {target : Nat} (h : Runs (Assemble.jumpBack target) a () b) :
    KeepsBut sites a.stream b.stream := by
  obtain ⟨i, bs, -, -, happends⟩ := Appends.of_jumpBack h
  exact of_appends happends

/-- Aiming a branch changes that branch alone. -/
theorem of_land {site : Site} (h : Runs (Assemble.land site) a () b) (hsite : site.index ∈ sites) :
    KeepsBut sites a.stream b.stream := by
  rw [Assemble.land, Assemble.position_bind] at h
  obtain ⟨old, i, stream, log, hold, -, hpatch, rfl⟩ := Assemble.runs_retarget h
  obtain ⟨-, -, bs, -, -, hget⟩ := get?_of_patch hold hpatch
  intro k e hk he
  have hne : k ≠ site.index := fun heq ↦ hk (heq ▸ hsite)
  exact ((hget k).trans (if_neg hne)).trans he

end KeepsBut

namespace Leads

variable {s t : CodeStream} {a b c d : Assembly} {i : Instruction} {target : Nat}

private theorem congr (h : Leads s a b i target) {sites : List Nat} (hkept : KeepsBut sites s t)
    (hsite : a.stream.length ∉ sites) : Leads t a b i target := by
  obtain ⟨⟨bs, hbs, hget, hsize⟩, hnext, hleads⟩ := h
  exact ⟨⟨bs, hbs, hkept _ _ hsite hget, hsize⟩, hnext, hleads⟩

/-- A jump that code of a range emitted is in the code that evolves from there. -/
theorem evolves (h : Leads s a b i target) {low high : Nat} (hevolves : Evolves low high s t)
    (hlow : low ≤ a.stream.length) (hhigh : a.stream.length < high) (hjump : i.isJump = true) :
    Leads t a b i target := by
  obtain ⟨⟨bs, hbs, hget, hsize⟩, hnext, hleads⟩ := h
  obtain ⟨e, he, -, hsame⟩ := hevolves _ _ hget
  cases hsame hlow hhigh hjump
  exact ⟨⟨bs, hbs, he, hsize⟩, hnext, hleads⟩

/-- A branch that was emitted without a target is aimed at the next instruction. -/
theorem of_land {site : Site} (hforward : Runs (Assemble.forward i) a site b) {sites : List Nat}
    (hkept : KeepsBut sites b.stream c.stream) (hsite : a.stream.length ∉ sites)
    (hland : Runs (Assemble.land site) c () d) :
    ∃ i', i.retarget a.stream.size c.stream.size = .ok i' ∧
      Leads d.stream a b i' c.stream.size := by
  obtain ⟨rfl, bs, -, happends⟩ := Appends.of_forward hforward
  have hfirst : b.stream.get? a.stream.length = some ⟨i, a.stream.size, bs⟩ :=
    CodeStream.get?_of_split happends.entries
  rw [Assemble.land, Assemble.position_bind] at hland
  obtain ⟨e, i', stream, log, he, hi', hpatch, rfl⟩ := Assemble.runs_retarget hland
  cases (hkept _ _ hsite hfirst).symm.trans he
  obtain ⟨-, -, bs', hbs', hlength, hget⟩ := get?_of_patch he hpatch
  have hsize : b.stream.size = a.stream.size + bs'.length := by
    rw [happends.size, hlength]
    rfl
  exact ⟨i', hi', ⟨bs', hbs', (hget _).trans (if_pos rfl), hsize⟩, happends.length,
    branchTarget?_retarget hi'⟩

/-- A jump back is emitted with its target. -/
theorem of_jumpBack (h : Runs (Assemble.jumpBack target) a () b) :
    ∃ d, Leads b.stream a b (.jmp d) target := by
  obtain ⟨i, bs, hi, hbs, happends⟩ := Appends.of_jumpBack h
  obtain ⟨⟨d, rfl⟩, hleads⟩ := branchTarget?_jmpFitted hi
  exact ⟨d, ⟨bs, hbs, CodeStream.get?_of_split happends.entries, happends.size⟩, happends.length,
    hleads⟩

end Leads

section Stages

variable {p : Program} {o : Options} {entry : Routine} {code : Code} {z : Assembly} {j : Nat}
  {s : Surroundings} {f : Frame} {a b : Assembly}

/-- What a stage emits lasts. -/
theorem Stage.lasting (hprogram : Runs (Assemble.program p o entry) .empty code z) {xs : List Step}
    (h : Stage p entry j xs a b) : Lasting p entry j code xs a b :=
  ⟨h, .of_steps h.runs, h.evolves hprogram⟩

-- The check at the end of a statement emits nothing.
private theorem Stage.settled {xs : List Step} {live : Nat}
    (h : Stage p entry j (xs ++ [.settle live]) a b) : Stage p entry j xs a b := by
  obtain ⟨c, hfirst, hsettle⟩ := h.split
  cases Assemble.runs_settle (runs_steps_singleton.mp hsettle.runs)
  exact hfirst

private theorem placedWhen_of_stage (hprogram : Runs (Assemble.program p o entry) .empty code z)
    {cond body : List Step} (h : Stage p entry j (cond ++ [.when body]) a b) :
    ∃ test skip stop, PlacedWhen p entry j code cond body a test skip stop b := by
  obtain ⟨test, hcond, hwhen⟩ := h.split
  obtain ⟨skip, stop, hruns⟩ := exists_runsWhen hwhen.runs
  have hbody := hwhen.when hruns
  obtain ⟨site, hskip, hinside, hland⟩ := hruns
  obtain ⟨hsite, hskipped⟩ := length_of_forward hskip
  obtain ⟨hlength, hsize⟩ := length_of_land hland
  have hgrows := length_le_of_steps hinside
  obtain ⟨i, hi, hleads⟩ := Leads.of_land hskip (.of_steps hinside) List.not_mem_nil hland
  obtain ⟨d, -, rfl⟩ := jccNear_eq_ok hi
  have hstop : KeepsBut [test.stream.length] stop.stream b.stream :=
    .of_land hland (List.mem_singleton.mpr hsite)
  have hskip' := (KeepsBut.of_steps hinside).trans hstop
  have htest := (KeepsBut.of_forward hskip).trans hskip'
  refine ⟨test, skip, stop, hcond.lasting hprogram, ⟨d, ?_⟩, hbody.lasting hprogram, hsize,
    by simp [*]⟩
  exact hleads.evolves (hwhen.evolves hprogram) le_rfl (by omega) rfl

private theorem placedChoose_of_stage (hprogram : Runs (Assemble.program p o entry) .empty code z)
    {cond yes no : List Step} (h : Stage p entry j (cond ++ [.choose yes no]) a b) :
    ∃ test skip stop past other last,
      PlacedChoose p entry j code cond yes no a test skip stop past other last b := by
  obtain ⟨test, hcond, hchoose⟩ := h.split
  obtain ⟨skip, stop, past, other, last, hruns⟩ := exists_runsChoose hchoose.runs
  have hfirst := hchoose.yes hruns
  have hsecond := hchoose.no hruns
  obtain ⟨site, site', hskip, hyes, hleave, hland, hno, hland'⟩ := hruns
  obtain ⟨hsite, hskipped⟩ := length_of_forward hskip
  obtain ⟨hsite', hpast⟩ := length_of_forward hleave
  obtain ⟨hother, hadjacent⟩ := length_of_land hland
  obtain ⟨hlength, hsize⟩ := length_of_land hland'
  have hstop := length_le_of_steps hyes
  have hlast := length_le_of_steps hno
  -- the first branch is aimed once the jump behind the first part is there
  have hkept : KeepsBut [] skip.stream past.stream :=
    (KeepsBut.of_steps hyes).trans (.of_forward hleave)
  obtain ⟨i, hi, hleads⟩ := Leads.of_land hskip hkept List.not_mem_nil hland
  obtain ⟨d, -, rfl⟩ := jccNear_eq_ok hi
  have hne : stop.stream.length ∉ [test.stream.length] := by
    rw [List.mem_singleton]
    omega
  have hkept' : KeepsBut [test.stream.length] past.stream last.stream :=
    (KeepsBut.of_land hland (List.mem_singleton.mpr hsite)).trans (.of_steps hno)
  obtain ⟨i', hi', hleads'⟩ := Leads.of_land hleave hkept' hne hland'
  obtain ⟨d', -, rfl⟩ := jmpNear_eq_ok hi'
  have htest : test.stream.length ∉ [stop.stream.length] := by
    rw [List.mem_singleton]
    omega
  have hrest : KeepsBut [stop.stream.length] other.stream b.stream :=
    (KeepsBut.of_steps hno).trans (.of_land hland' (List.mem_singleton.mpr hsite'))
  have hevolves := hchoose.evolves hprogram
  refine ⟨test, skip, stop, past, other, last, hcond.lasting hprogram, ⟨d, ?_⟩,
    hfirst.lasting hprogram, ⟨d', ?_⟩, ⟨hadjacent.symm, hother.symm⟩, hsecond.lasting hprogram,
    hsize, ?_⟩
  · rw [hadjacent]
    exact (hleads.congr hrest htest).evolves hevolves le_rfl (by omega) rfl
  · exact hleads'.evolves hevolves (by omega) (by omega) rfl
  · have hlast' : KeepsBut [test.stream.length, stop.stream.length] last.stream b.stream :=
      .of_land hland' (by simp [hsite'])
    have hother' := (KeepsBut.of_steps hno).trans hlast'
    have hpast' := (KeepsBut.of_land hland (by simp [hsite])).trans hother'
    have hstop' := (KeepsBut.of_forward hleave).trans hpast'
    have hskip' := (KeepsBut.of_steps hyes).trans hstop'
    have htest' := (KeepsBut.of_forward hskip).trans hskip'
    simp [*]

private theorem placedLoop_of_stage (hprogram : Runs (Assemble.program p o entry) .empty code z)
    {cond body : List Step} (h : Stage p entry j [.loop cond body] a b) :
    ∃ test inside stop closed,
      PlacedLoop p entry j code cond body a test inside stop closed b := by
  obtain ⟨test, inside, stop, closed, hruns⟩ := exists_runsLoop h.runs
  have hcond := h.test hruns
  have hbody := h.loop hruns
  obtain ⟨site, htested, hexit, hinside, hback, hland⟩ := hruns
  obtain ⟨hsite, hexited⟩ := length_of_forward hexit
  obtain ⟨hlength, hsize⟩ := length_of_land hland
  have htest := length_le_of_steps htested
  have hstop := length_le_of_steps hinside
  have hclosed := length_of_jumpBack hback
  have hkept : KeepsBut [] inside.stream closed.stream :=
    (KeepsBut.of_steps hinside).trans (.of_jumpBack hback)
  obtain ⟨i, hi, hleads⟩ := Leads.of_land hexit hkept List.not_mem_nil hland
  obtain ⟨d, -, rfl⟩ := jccNear_eq_ok hi
  obtain ⟨d', hleads'⟩ := Leads.of_jumpBack hback
  have hne : stop.stream.length ∉ [test.stream.length] := by
    rw [List.mem_singleton]
    omega
  have hclosed' : KeepsBut [test.stream.length] closed.stream b.stream :=
    .of_land hland (List.mem_singleton.mpr hsite)
  have hevolves := h.evolves hprogram
  refine ⟨test, inside, stop, closed, hcond.lasting hprogram, ⟨d, ?_⟩, hbody.lasting hprogram,
    ⟨d', ?_⟩, hsize, ?_⟩
  · exact hleads.evolves hevolves htest (by omega) rfl
  · exact (hleads'.congr hclosed' hne).evolves hevolves (by omega) (by omega) rfl
  · have hstop' := (KeepsBut.of_jumpBack hback).trans hclosed'
    have hinside' := (KeepsBut.of_steps hinside).trans hstop'
    have htest' := (KeepsBut.of_forward hexit).trans hinside'
    simp [*]

mutual

/-- Every statement that is emitted is placed, with all those inside. -/
theorem placed_of_stage (hprogram : Runs (Assemble.program p o entry) .empty code z) :
    (st : Statement) → (f : Frame) → {a b : Assembly} →
    Stage p entry j (lowerStatement s f st).1 a b → Placed p entry j code s f st a b
  | .block body, f, a, b, h => by
    obtain ⟨m, hinner, -⟩ := h.settled.split
    exact .block (h.lasting hprogram) (placedAll_of_stage hprogram body f hinner)
  | .branch cond yes none, f, a, b, h => by
    have hwhole := h.lasting hprogram
    rw [lowerStatement_when] at h
    obtain ⟨test, skip, stop, hshape⟩ := placedWhen_of_stage hprogram h.settled
    obtain ⟨m, hinner, -⟩ := hshape.inside.stage.split
    exact .when hwhole hshape (placed_of_stage hprogram yes f hinner)
  | .branch cond yes (some no), f, a, b, h => by
    have hwhole := h.lasting hprogram
    rw [lowerStatement_choose] at h
    obtain ⟨test, skip, stop, past, other, last, hshape⟩ :=
      placedChoose_of_stage hprogram h.settled
    obtain ⟨m, hfirst, -⟩ := hshape.first.stage.split
    obtain ⟨m', hsecond, -⟩ := hshape.second.stage.split
    exact .choose hwhole hshape (placed_of_stage hprogram yes f hfirst)
      (placed_of_stage hprogram no f hsecond)
  | .loop cond body, f, a, b, h => by
    have hwhole := h.lasting hprogram
    rw [lowerStatement_loop] at h
    obtain ⟨test, inside, stop, closed, hshape⟩ := placedLoop_of_stage hprogram h.settled
    obtain ⟨m, hinner, -⟩ := hshape.repeated.stage.split
    exact .loop hwhole hshape (placed_of_stage hprogram body f hinner)
  | .declare _ _, _, _, _, h => .simple rfl (h.lasting hprogram)
  | .assign _ _, _, _, _, h => .simple rfl (h.lasting hprogram)
  | .assignElement _ _ _, _, _, _, h => .simple rfl (h.lasting hprogram)
  | .call _ _, _, _, _, h => .simple rfl (h.lasting hprogram)
  | .giveBack _, _, _, _, h => .simple rfl (h.lasting hprogram)

private theorem placedAll_of_stage (hprogram : Runs (Assemble.program p o entry) .empty code z) :
    (sts : List Statement) → (f : Frame) → {a b : Assembly} →
    Stage p entry j (lowerStatements s f sts).1 a b → PlacedAll p entry j code s f sts a b
  | [], _, a, b, h => by
    cases (Runs.pure_iff.mp h.runs).2
    exact .nil
  | st :: sts, f, a, b, h => by
    obtain ⟨m, hfirst, hrest⟩ := h.split
    exact .cons (placed_of_stage hprogram st f hfirst) (placedAll_of_stage hprogram sts _ hrest)

end

end Stages

/-- In the code of every program, the branches of all statements of a routine are in place. -/
theorem branches_placed {p : Program} {o : Options} {entry r : Routine} {code : Code} {j : Nat}
    (hentry : entryCandidates p o = [entry]) (hcode : (generate p o).result = .ok code)
    (hr : p.routines[j]? = some r) :
    ∃ a b, Lasting p entry j code
        (lowerStatements (surroundings p entry r) (.ofMethod r.method) r.method.body).1 a b ∧
      PlacedAll p entry j code (surroundings p entry r) (.ofMethod r.method) r.method.body a b := by
  obtain ⟨z, hprogram, -⟩ := runs_of_generate hentry hcode
  obtain ⟨a, b, hstage⟩ := exists_stage hprogram hr
  obtain ⟨c, hfirst, -⟩ := hstage.split
  obtain ⟨d, -, hbody⟩ := hfirst.split
  exact ⟨d, c, hbody.lasting hprogram, placedAll_of_stage hprogram _ _ hbody⟩

/-- From a number down to one: an even number is halved and an odd one tripled and increased by
one, and the greatest one on the way is given back. -/
def hailstoneBody : List Statement :=
  let n : Reference := .localName (.param 0)
  let top : Reference := .localName (.var ⟨0⟩)
  let half : Reference := .localName (.var ⟨1⟩)
  let constant (value : Int32) : Expression := .literal (.int value)
  [.declare ⟨"top", .int, ⟨0⟩⟩ (.ref n),
    .loop (.binary .ne (.ref n) (constant 1)) (.block
      [.declare ⟨"half", .int, ⟨1⟩⟩ (.binary .div (.ref n) (constant 2)),
        .branch (.binary .eq (.binary .add (.ref half) (.ref half)) (.ref n))
          (.assign n (.ref half))
          (some (.block
            [.assign n (.binary .add (.binary .mul (.ref n) (constant 3)) (constant 1)),
              .branch (.binary .gt (.ref n) (.ref top)) (.assign top (.ref n)) none]))]),
    .giveBack (some (.ref top))]

/-- A method with that body. -/
def hailstoneMethod : MethodDecl :=
  ⟨"hailstone", .int, true, false, [⟨"n", .int⟩], hailstoneBody⟩

/-- The entry prints what that method gives for seven. -/
def hailstoneEntry : MethodDecl :=
  ⟨"main", .void, true, false, [⟨"args", .array (.object "String")⟩],
    [.call .println [.call (.method ⟨0, 1⟩) [.literal (.int 7)]]]⟩

/-- A program with these methods. -/
def hailstoneProgram : Program := ⟨[⟨"Main", [], [hailstoneEntry, hailstoneMethod]⟩]⟩

/-- The code of that program has its branches in place. -/
theorem branches_placed_hailstone :
    ∃ code a b, (generate hailstoneProgram {}).result = .ok code ∧
      PlacedAll hailstoneProgram ⟨0, 0, "Main", hailstoneEntry⟩ 1 code
        (surroundings hailstoneProgram ⟨0, 0, "Main", hailstoneEntry⟩
          ⟨0, 1, "Main", hailstoneMethod⟩) (.ofMethod hailstoneMethod) hailstoneBody a b := by
  have hok : (generate hailstoneProgram {}).result.isOk = true := by decide +kernel
  obtain ⟨code, hcode⟩ := exists_ok_of_isOk hok
  have hr : hailstoneProgram.routines[1]? = some ⟨0, 1, "Main", hailstoneMethod⟩ := rfl
  obtain ⟨a, b, -, hplaced⟩ := branches_placed rfl hcode hr
  exact ⟨code, a, b, hcode, hplaced⟩

end NativeBackend
