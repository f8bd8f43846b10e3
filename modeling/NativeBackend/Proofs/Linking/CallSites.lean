import NativeBackend.Proofs.Emission.CallSteps

/-!
# Calls in finished code

The routines of finished code lie one right after the other, so that the calls of a
routine are those between its start and the start of the next one. They are the calls
of its body in the same order, and each leads where its name resolves to.
-/

namespace NativeBackend

open Machine NativeBackend.Tree

/-- The routines of code with their offsets, in the order they begin. -/
def Code.begun (code : Code) : List (String × Nat) := code.routines.started.reverse

/-- Whether an offset lies in the routine at a position: not before its start, and before the start
of the next one. -/
def liesIn (routines : List (String × Nat)) (position offset : Nat) : Bool :=
  routines[position]?.any (·.2 ≤ offset) && routines[position + 1]?.all (offset < ·.2)

/-- The instructions in the code of the routine at a position. -/
def Code.entriesIn (code : Code) (position : Nat) : List Emitted :=
  code.stream.entries.toList.filter fun e ↦ liesIn code.begun position e.start

/-- The calls in the code of the routine at a position. -/
def Code.callsIn (code : Code) (position : Nat) : List Emitted :=
  code.stream.entries.toList.filter fun e ↦
    e.instruction.isCall && liesIn code.begun position e.start

/-- A call inside the routine at a position leads where a name resolves to, and is left as it was
emitted if no routine has the name. -/
def LeadsTo (routines : List (String × Nat)) (position : Nat) (e : Emitted) (name : String) :
    Prop :=
  match resolve? routines position name with
  | some target => e.instruction.branchTarget? e.start = some target
  | none => e.instruction = .call 0

section Parts

variable {o : Nat} {q : Part} {before after : List Part}

private theorem liesIn_starts (offset : Nat) :
    liesIn (starts (before ++ q :: after)) before.length offset =
      (decide (q.start ≤ offset) && after.head?.all (offset < ·.start)) := by
  have hthis : (starts (before ++ q :: after))[before.length]? = some (q.name, q.start) := by
    simp [starts]
  have hnext : (starts (before ++ q :: after))[before.length + 1]? =
      after.head?.map fun q ↦ (q.name, q.start) := by
    rw [starts, List.getElem?_map, List.getElem?_append_right (Nat.le_add_right _ 1),
      Nat.add_sub_cancel_left, List.getElem?_cons_succ, List.head?_eq_getElem?]
  rw [liesIn, hthis, hnext, Option.all_map]
  rfl

private theorem filter_liesIn (h : Contiguous o (before ++ q :: after)) :
    (allMarks (before ++ q :: after)).filter
      (fun m ↦ liesIn (starts (before ++ q :: after)) before.length m.entry.start) = q.marks := by
  obtain ⟨hbefore, hstart, hafter⟩ := contiguous_append.mp h
  have hlow : ∀ m ∈ allMarks before, ¬q.start ≤ m.entry.start := by
    intro m hm hle
    have hlt := hbefore.laid.start_lt m hm
    omega
  have hown : ∀ m ∈ q.marks, q.start ≤ m.entry.start ∧
      after.head?.all (m.entry.start < ·.start) := by
    intro m hm
    refine ⟨q.assembled.laid.start_ge m hm, ?_⟩
    cases after with
    | nil => rfl
    | cons q' after =>
      have hlt := q.assembled.laid.start_lt m hm
      rw [hstart, ← hafter.1] at hlt
      exact decide_eq_true hlt
  have hhigh : ∀ m ∈ allMarks after, after.head?.all (m.entry.start < ·.start) = false := by
    intro m hm
    have hge := hafter.laid.start_ge m hm
    cases after with
    | nil => cases hm
    | cons q' after =>
      rw [← hafter.1] at hge
      exact decide_eq_false (Nat.not_lt.mpr hge)
  rw [allMarks_append_cons, List.filter_append, List.filter_append]
  simp only [liesIn_starts]
  rw [List.filter_eq_nil_iff.mpr, List.filter_eq_self.mpr, List.filter_eq_nil_iff.mpr]
  · simp
  · intro m hm
    simp [hhigh m hm]
  · intro m hm
    simp [hown m hm]
  · intro m hm
    simp [hlow m hm]

end Parts

/-- A call that is aimed at a target leads there. -/
theorem branchTarget?_callTo {origin target : Nat} {i : Instruction}
    (h : Instruction.callTo origin target = .ok i) : i.branchTarget? origin = some target := by
  obtain ⟨d, hd, rfl⟩ := callTo_eq_ok h
  exact branchTarget?_of_distance hd rfl

private theorem Aimed.leadsTo {rs : List (String × Nat)} {address : Int32 → UInt64} {k : Nat}
    {m : Marked} {name : String} (h : Aimed rs address k m) (hp : m.purpose = .call name) :
    LeadsTo rs k m.entry name := by
  rw [Aimed, hp] at h
  rw [LeadsTo]
  cases hr : resolve? rs k name with
  | none =>
    simp only [hr] at h
    rw [h]
    rfl
  | some target =>
    simp only [hr] at h
    exact branchTarget?_callTo h

section Linked

variable {p : Program} {entry : Routine} {code : Code} {base : UInt64} {parts : List Part}

/-- The routines of code begin where its parts start. -/
theorem Linked.begun (h : Linked code base parts) : code.begun = starts parts := by
  rw [Code.begun, h.started, List.reverse_reverse]

/-- The built-in routines begin first, and then those of the program. -/
theorem Linked.begun_names (h : Linked code base parts)
    (hsources : sources parts = routineSteps p entry) :
    code.begun.map Prod.fst = Source.routineNames p := by
  have hnames : (starts parts).map Prod.fst = (sources parts).map Prod.fst := by
    rw [starts, sources, List.map_map, List.map_map]
    rfl
  rw [h.begun, hnames, hsources, routineSteps, List.map_append, List.map_map, List.map_map]
  rfl

/-- The instructions of a routine are those its steps became. -/
theorem Linked.entriesIn (h : Linked code base parts) {k : Nat} {q : Part}
    (hq : parts[k]? = some q) : code.entriesIn k = q.marks.map Marked.entry := by
  have hsplit := eq_take_append_cons hq
  have hk := (List.getElem?_eq_some_iff.mp hq).1
  have hlength : (parts.take k).length = k := List.length_take_of_le hk.le
  have hown := filter_liesIn (hsplit ▸ h.contiguous)
  rw [← hsplit, hlength] at hown
  rw [Code.entriesIn, h.entries, h.begun, List.filter_map]
  exact congrArg _ hown

/-- Every instruction lies in a routine. -/
theorem Linked.entries_eq_flatMap (h : Linked code base parts) :
    code.stream.entries.toList = (List.range code.begun.length).flatMap code.entriesIn := by
  have hlength : code.begun.length = parts.length := by
    rw [h.begun, starts, List.length_map]
  have hparts : (List.range parts.length).map code.entriesIn =
      parts.map fun q ↦ q.marks.map Marked.entry := by
    refine List.ext_getElem (by simp) fun k hk hk' ↦ ?_
    rw [List.length_map] at hk'
    rw [List.getElem_map, List.getElem_map, List.getElem_range]
    exact h.entriesIn (List.getElem?_eq_getElem hk')
  rw [hlength, List.flatMap_def, hparts, ← List.flatMap_def, h.entries, allMarks, List.map_flatMap]

private theorem Code.callsIn_eq_filter (code : Code) (k : Nat) :
    code.callsIn k = (code.entriesIn k).filter (·.instruction.isCall) := by
  rw [callsIn, entriesIn, List.filter_filter]

/-- The calls in the code of a routine are those of its marked instructions. -/
theorem Linked.callsIn (h : Linked code base parts) {k : Nat} {q : Part}
    (hq : parts[k]? = some q) : code.callsIn k = (callMarks q.marks).map Marked.entry := by
  rw [Code.callsIn_eq_filter, h.entriesIn hq, List.filter_map, callMarks]
  rfl

/-- Every call lies in a routine. -/
theorem Linked.calls (h : Linked code base parts) :
    code.stream.entries.toList.filter (·.instruction.isCall) =
      (List.range code.begun.length).flatMap code.callsIn := by
  rw [h.entries_eq_flatMap, List.filter_flatMap]
  exact congrArg (List.flatMap · _) (funext fun k ↦ (code.callsIn_eq_filter k).symm)

private theorem callsOf_routineSteps (p : Program) (entry : Routine) :
    List.Forall₂ (fun source nodes ↦ CallsOf p source.2 nodes) (routineSteps p entry)
      (Source.programCalls p) := by
  have hbuiltins : ∀ b ∈ Builtin.routines, CallsOf p (b.2.map .frame) [] := by
    intro b hb
    have hplain : Builtin.routines.all fun b ↦ b.2.all (!·.isCall) := rfl
    exact .frames (List.all_eq_true.mp hplain b hb)
  apply List.rel_append
  · rw [List.forall₂_map_left_iff, List.forall₂_map_right_iff]
    exact List.forall₂_same.mpr hbuiltins
  · rw [List.forall₂_map_left_iff, List.forall₂_map_right_iff]
    exact List.forall₂_same.mpr fun r _ ↦ callsOf_lowerMethod _ r.method

/-- The marked calls of every routine are those of the program. -/
theorem callsFor_programCalls (hsources : sources parts = routineSteps p entry) :
    List.Forall₂ (fun q nodes ↦ List.Forall₂ (Marked.CallsFor p) (callMarks q.marks) nodes) parts
      (Source.programCalls p) := by
  have hsteps := callsOf_routineSteps p entry
  rw [← hsources, sources, List.forall₂_map_left_iff] at hsteps
  exact hsteps.imp fun q nodes h ↦ h q.assembled

/-- The calls in the code of a routine are those of its body, and each leads where its name
resolves to. -/
theorem Linked.leadsTo (h : Linked code base parts)
    (hsources : sources parts = routineSteps p entry) {k : Nat} {nodes : List Source.CallNode}
    (hk : (Source.programCalls p)[k]? = some nodes) :
    List.Forall₂ (fun e node ↦ ∃ name, node.routine? p = some name ∧ LeadsTo code.begun k e name)
      (code.callsIn k) nodes := by
  have hall := callsFor_programCalls hsources
  obtain ⟨hlt, rfl⟩ := List.getElem?_eq_some_iff.mp hk
  have hlt' : k < parts.length := hall.length_eq ▸ hlt
  have hq : parts[k]? = some parts[k] := List.getElem?_eq_getElem hlt'
  have hcalls := hall.get hlt' hlt
  have haimed : ∀ m ∈ callMarks parts[k].marks, Aimed (starts parts) _ k m :=
    fun m hm ↦ h.aimed k _ hq m (List.mem_of_mem_filter hm)
  rw [h.callsIn hq, h.begun, List.forall₂_map_left_iff]
  refine ((List.forall₂_and_left _ _).mpr ⟨haimed, hcalls⟩).imp ?_
  rintro m node ⟨ha, name, hname, hp⟩
  exact ⟨name, hname, ha.leadsTo hp⟩

end Linked

end NativeBackend
