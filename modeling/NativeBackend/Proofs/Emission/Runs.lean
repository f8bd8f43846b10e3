import Mathlib
import NativeBackend.Emission.Generation

/-!
# Successful runs of assembly

`Runs x a v b` says that an action on code in the making succeeds from `a` with the
value `v` and leaves `b`. One lemma for each primitive action says what a successful
run of it does, so that nothing else has to look inside the actions.
-/

namespace NativeBackend

open Machine

section Results

variable {ε α β : Type} {x : Except ε α}

/-- A result that is no fault has a value. -/
theorem exists_ok_of_isOk (h : x.isOk = true) : ∃ v, x = .ok v := by
  cases x with
  | ok v => exact ⟨v, rfl⟩
  | error _ => cases h

/-- What is known of the value of a result is known of a value that is there. -/
theorem exists_ok_of_map {f : α → β} {w : β} (h : x.toOption.map f = some w) :
    ∃ v, x = .ok v ∧ f v = w := by
  cases x with
  | ok v => exact ⟨v, rfl, Option.some.inj h⟩
  | error _ => cases h

end Results

/-- What comes after an action goes on from its state, unless the action finds a fault. -/
theorem Assemble.run_bind {α β : Type} (x : Assemble α) (f : α → Assemble β) (a : Assembly) :
    (x >>= f).run.run a =
      match x.run.run a with
      | (.ok v, b) => (f v).run.run b
      | (.error e, b) => (.error e, b) := by
  change (ExceptT.run (x >>= f)).run a = _
  rw [ExceptT.run_bind, StateT.run_bind]
  rcases x.run.run a with ⟨r, b⟩
  cases r <;> rfl

/-- An action succeeds with a value and leaves a state. -/
def Runs {α : Type} (x : Assemble α) (a : Assembly) (v : α) (b : Assembly) : Prop :=
  x.run.run a = (.ok v, b)

namespace Runs

variable {α β : Type} {a b c : Assembly} {v : α} {w : β}

/-- An action has one outcome. -/
theorem unique {x : Assemble α} {v' : α} {b' : Assembly} (h : Runs x a v b) (h' : Runs x a v' b') :
    v = v' ∧ b = b' := by
  rw [Runs, h'] at h
  cases h
  exact ⟨rfl, rfl⟩

/-- An action that can be carried out to its end succeeds. -/
theorem of_isOk {x : Assemble Unit} (h : (x.run.run a).1.isOk) : ∃ b, Runs x a () b := by
  rcases hx : x.run.run a with ⟨r, b⟩
  rw [hx] at h
  cases r with
  | ok _ => exact ⟨b, hx⟩
  | error _ => cases h

/-- A value runs to itself and changes nothing. -/
theorem pure_iff {v' : α} : Runs (pure v') a v b ↔ v = v' ∧ b = a := by
  constructor
  · intro h
    cases h
    exact ⟨rfl, rfl⟩
  · rintro ⟨rfl, rfl⟩
    rfl

/-- Two parts in a row run if each does, one from the end of the other. -/
theorem bind_iff {x : Assemble α} {f : α → Assemble β} :
    Runs (x >>= f) a w c ↔ ∃ v b, Runs x a v b ∧ Runs (f v) b w c := by
  unfold Runs
  rw [Assemble.run_bind]
  rcases hx : x.run.run a with ⟨r, b⟩
  cases r with
  | ok v =>
    constructor
    · intro h
      exact ⟨v, b, rfl, h⟩
    · rintro ⟨v', b', h, hf⟩
      cases h
      exact hf
  | error e =>
    constructor
    · intro h
      cases h
    · rintro ⟨v', b', h, -⟩
      cases h

private theorem map_iff {x : Assemble α} {f : α → β} :
    Runs (f <$> x) a w c ↔ ∃ v, Runs x a v c ∧ w = f v := by
  rw [← bind_pure_comp, bind_iff]
  constructor
  · rintro ⟨v, b, hx, hf⟩
    obtain ⟨rfl, rfl⟩ := pure_iff.mp hf
    exact ⟨v, hx, rfl⟩
  · rintro ⟨v, hx, rfl⟩
    exact ⟨v, c, hx, rfl⟩

/-- Looking at the state. -/
theorem get_bind {f : Assembly → Assemble β} : Runs (get >>= f) a w b ↔ Runs (f a) a w b := Iff.rfl

/-- A change of the state runs to the changed state. -/
theorem modify_iff {f : Assembly → Assembly} {u : Unit} : Runs (modify f) a u b ↔ b = f a := by
  constructor
  · intro h
    cases h
    rfl
  · rintro rfl
    rfl

/-- A fault does not run. -/
theorem not_throw {e : Fault} : ¬ Runs (throw e : Assemble α) a v b := by
  intro h
  cases h

/-- What is run for its effect runs if it has a value. -/
theorem discard_iff {x : Assemble α} {u : Unit} : Runs (discard x) a u b ↔ ∃ v, Runs x a v b := by
  have hmap : discard x = (fun _ ↦ ()) <$> x := rfl
  rw [hmap, map_iff]
  constructor
  · rintro ⟨v, hx, -⟩
    exact ⟨v, hx⟩
  · rintro ⟨v, hx⟩
    exact ⟨v, hx, rfl⟩

end Runs

namespace Assemble

variable {a b : Assembly} {i : Instruction} {n : Nat}

/-- Looking at the offset of the next instruction. -/
theorem position_bind {β : Type} {w : β} {f : Nat → Assemble β} :
    Runs (position >>= f) a w b ↔ Runs (f a.stream.size) a w b := Iff.rfl

/-- Steps in a row are carried out one after the other. -/
theorem steps_append (xs ys : List Step) : steps (xs ++ ys) = steps xs >>= fun _ ↦ steps ys := by
  induction xs with
  | nil => rfl
  | cons x xs ih =>
    simp only [List.cons_append, steps, ih, bind_assoc]

/-- What appending an instruction does. -/
theorem runs_append : Runs (append i) a n b ↔
    n = a.stream.length ∧
      ∃ bs, i.encode = .ok bs ∧ b = { a with stream := a.stream.push i bs } := by
  rw [append, Runs.get_bind]
  cases i.encode with
  | ok bs =>
    simp only [Runs.bind_iff, Runs.modify_iff, Runs.pure_iff]
    constructor
    · rintro ⟨_, _, rfl, rfl, rfl⟩
      exact ⟨rfl, bs, rfl, rfl⟩
    · rintro ⟨rfl, _, hbs, rfl⟩
      cases hbs
      exact ⟨(), _, rfl, rfl, rfl⟩
  | error cause =>
    constructor
    · intro h
      exact (Runs.not_throw h).elim
    · rintro ⟨_, _, hbs, _⟩
      cases hbs

private theorem runs_adjust {effect : Int} {u : Unit} (h : Runs (adjust effect) a u b) :
    ∃ depth, b = { a with depth } := by
  simp only [adjust, Runs.get_bind] at h
  split at h
  · exact ⟨_, Runs.modify_iff.mp h⟩
  · split at h
    · exact ⟨_, Runs.modify_iff.mp h⟩
    · exact (Runs.not_throw h).elim

/-- What emitting an instruction does, up to the count of words on the operand stack. -/
theorem runs_emit (h : Runs (emit i) a n b) :
    n = a.stream.length ∧
      ∃ bs depth, i.encode = .ok bs ∧ b = { a with stream := a.stream.push i bs, depth } := by
  simp only [emit, Runs.bind_iff, Runs.pure_iff] at h
  obtain ⟨_, a', happend, _, _, hadjust, rfl, rfl⟩ := h
  obtain ⟨rfl, bs, hbs, rfl⟩ := runs_append.mp happend
  obtain ⟨depth, rfl⟩ := runs_adjust hadjust
  exact ⟨rfl, bs, depth, hbs, rfl⟩

/-- Overwriting an instruction patches the code and nothing else. -/
theorem runs_overwrite {index : Nat} {u : Unit} : Runs (overwrite index i) a u b ↔
    ∃ stream, a.stream.patch index i = .ok stream ∧ b = { a with stream } := by
  rw [overwrite, Runs.get_bind]
  cases a.stream.patch index i with
  | ok stream =>
    constructor
    · intro h
      exact ⟨stream, rfl, Runs.modify_iff.mp h⟩
    · rintro ⟨_, hs, rfl⟩
      cases hs
      exact Runs.modify_iff.mpr rfl
  | error cause =>
    constructor
    · intro h
      exact (Runs.not_throw h).elim
    · rintro ⟨_, hs, _⟩
      cases hs

/-- What aiming an earlier branch does. -/
theorem runs_retarget {site : Site} {target : Nat} {u : Unit}
    (h : Runs (retarget site target) a u b) :
    ∃ e i stream log, a.stream.get? site.index = some e ∧
      e.instruction.retarget site.origin target = .ok i ∧
      a.stream.patch site.index i = .ok stream ∧ b = { a with stream, log } := by
  simp only [retarget, Runs.get_bind] at h
  split at h
  · exact (Runs.not_throw h).elim
  · next e he =>
    split at h
    · exact (Runs.not_throw h).elim
    · next i hi =>
      obtain ⟨_, a', hnote, hover⟩ := Runs.bind_iff.mp h
      rw [note, Runs.modify_iff] at hnote
      obtain ⟨stream, hs, rfl⟩ := runs_overwrite.mp hover
      rw [hnote] at hs ⊢
      exact ⟨e, i, stream, _, he, hi, hs, rfl⟩

/-- A check of the depth changes nothing. -/
theorem runs_settle {live : Nat} {u : Unit} (h : Runs (settle live) a u b) : b = a := by
  simp only [settle, Runs.get_bind] at h
  split at h
  · exact (Runs.pure_iff.mp h).2
  · exact (Runs.not_throw h).elim

/-- What the start of a routine does. -/
theorem runs_startRoutine {name : String} {start : Nat} (h : Runs (startRoutine name) a start b) :
    start = a.stream.size ∧ ∃ c log,
      Runs (retargetAll start (a.pending.sitesOf name))
        { a with pending := a.pending.without name } () c ∧
      b = { c with routines := c.routines.insert name start, log } := by
  rw [startRoutine, position_bind, Runs.get_bind] at h
  simp only [note, Runs.bind_iff, Runs.modify_iff, Runs.pure_iff] at h
  obtain ⟨_, _, rfl, _, c, hall, _, _, rfl, _, _, rfl, rfl, rfl⟩ := h
  exact ⟨rfl, c, _, hall, rfl⟩

/-- What a routine of a program does. -/
theorem runs_routine {p : Tree.Program} {l : FieldLayout} {isEntry : Bool} {r : Tree.Routine}
    {u : Unit} (h : Runs (routine p l isEntry r) a u b) :
    ∃ start c d log, Runs (startRoutine r.name) a start c ∧
      Runs (steps (lowerMethod ⟨p, l, isEntry⟩ r.method))
        { c with entry := if isEntry then some start else c.entry, depth := .start } () d ∧
      b = { d with log } := by
  obtain ⟨start, c, hstart, h⟩ := Runs.bind_iff.mp h
  cases isEntry with
  | true =>
    simp only [if_true, note, Runs.bind_iff, Runs.modify_iff] at h
    obtain ⟨_, _, rfl, _, _, rfl, _, d, hsteps, _, _, hget, rfl⟩ := h
    cases hget
    exact ⟨start, c, d, _, hstart, hsteps, rfl⟩
  | false =>
    simp only [Bool.false_eq_true, if_false, note, Runs.bind_iff, Runs.modify_iff] at h
    obtain ⟨_, _, rfl, _, d, hsteps, _, _, hget, rfl⟩ := h
    cases hget
    exact ⟨start, c, d, _, hstart, hsteps, rfl⟩

private theorem runs_report {d : Diagnostic} {u : Unit} (h : Runs (report d) a u b) :
    ∃ log, b = { a with reporter := a.reporter.report d, log } := by
  obtain ⟨_, c, hnote, hreport⟩ := Runs.bind_iff.mp h
  rw [note, Runs.modify_iff] at hnote
  rw [Runs.modify_iff] at hreport
  subst hnote
  exact ⟨_, hreport⟩

/-- What the reports of names that calls still wait for do. -/
theorem runs_reportAll {groups : List (String × List Site)} {u : Unit}
    (h : Runs (reportAll groups) a u b) :
    ∃ log, b = { a with
      reporter := ⟨a.reporter.diagnostics ++
        groups.map fun g ↦ .unresolvedCall g.1 g.2.length⟩
      log } := by
  induction groups generalizing a with
  | nil =>
    obtain ⟨-, rfl⟩ := Runs.pure_iff.mp h
    exact ⟨b.log, by rw [List.map_nil, List.append_nil]⟩
  | cons g groups ih =>
    obtain ⟨name, sites⟩ := g
    obtain ⟨_, c, hreport, hrest⟩ := Runs.bind_iff.mp h
    obtain ⟨log, rfl⟩ := runs_report hreport
    obtain ⟨log', rfl⟩ := ih hrest
    exact ⟨log', by rw [Reporter.report, List.append_assoc]; rfl⟩

/-- What the last things do when all routines are out. -/
theorem runs_complete {l : FieldLayout} {o : Options} {code : Code}
    (h : Runs (complete l o) a code b) :
    ∃ c d log log',
      c = { a with
        reporter := ⟨a.reporter.diagnostics ++
          a.pending.groups.map fun g ↦ .unresolvedCall g.1 g.2.length⟩
        log } ∧
      Runs (fillStatics (Image.codeAddress o.loadAddress (staticAreaOffset c.stream.size))
        c.staticLoads.toList) c () d ∧
      code = ⟨d.stream, d.entry, l.staticSize, d.routines⟩ ∧ b = { d with log := log' } := by
  rw [complete, Runs.get_bind] at h
  obtain ⟨_, c, hreports, h⟩ := Runs.bind_iff.mp h
  rw [position_bind, Runs.get_bind] at h
  obtain ⟨_, d, hfill, h⟩ := Runs.bind_iff.mp h
  rw [Runs.get_bind] at h
  obtain ⟨_, e, hnote, h⟩ := Runs.bind_iff.mp h
  rw [note, Runs.modify_iff] at hnote
  obtain ⟨rfl, rfl⟩ := Runs.pure_iff.mp h
  obtain ⟨log, hc⟩ := runs_reportAll hreports
  exact ⟨c, d, log, _, hc, hfill, rfl, hnote⟩

end Assemble

end NativeBackend
