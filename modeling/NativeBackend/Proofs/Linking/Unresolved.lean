import NativeBackend.Proofs.Linking.CallSites
import NativeBackend.Proofs.Text.ByteOrder

/-!
# Names that no routine has

The calls that wait when all routines are out are those of names that no routine has.
They are reported by name: each name once, in byte order, with the count of its calls.
-/

namespace NativeBackend

open Machine NativeBackend.Tree

section Names

variable (calls : PendingCalls) (name : String)

/-- No name is left twice. -/
theorem nodup_eraseDups (names : List String) : names.eraseDups.Nodup := by
  match names with
  | [] => exact .nil
  | name :: names =>
    rw [List.eraseDups_cons, List.nodup_cons]
    refine ⟨fun h ↦ ?_, nodup_eraseDups _⟩
    have hne := (List.mem_filter.mp (List.mem_eraseDups.mp h)).2
    simp at hne
termination_by names.length
decreasing_by exact Nat.lt_succ_of_le (List.length_filter_le _ _)

private theorem PendingCalls.mem_names : name ∈ calls.names ↔ name ∈ calls.waiting.map Prod.fst :=
  by
  rw [names, List.mem_mergeSort, List.mem_eraseDups]

/-- The names of calls that wait are listed in byte order, each once. -/
theorem PendingCalls.pairwise_names : calls.names.Pairwise fun a b ↦ utf8 a < utf8 b := by
  have hnodup : calls.names.Nodup := (List.mergeSort_perm _ _).nodup_iff.mpr (nodup_eraseDups _)
  have htrans : ∀ a b c : String, decide (a ≤ b) → decide (b ≤ c) → decide (a ≤ c) := by
    simp only [decide_eq_true_eq]
    exact fun a b c ↦ le_trans
  have htotal : ∀ a b : String, decide (a ≤ b) || decide (b ≤ a) := by
    simp only [Bool.or_eq_true, decide_eq_true_eq]
    exact le_total
  have hsorted : calls.names.Pairwise fun a b ↦ decide (a ≤ b) :=
    List.pairwise_mergeSort htrans htotal _
  refine (hsorted.and hnodup).imp fun {a b} h ↦ utf8_lt_utf8 ?_
  exact lt_of_le_of_ne (of_decide_eq_true h.1) h.2

private theorem PendingCalls.length_sitesOf :
    (calls.sitesOf name).length = (calls.waiting.map Prod.fst).count name := by
  rw [sitesOf, List.length_map, List.count, List.countP_map, List.countP_eq_length_filter]
  rfl

end Names

/-- The name that an instruction is there to call. -/
def Marked.called? (m : Marked) : Option String :=
  match m.purpose with
  | .call name => some name
  | _ => none

private theorem waitingCalls_names (t : RoutineTable) (index : Nat) (ms : List Marked) :
    (waitingCalls t index ms).map Prod.fst =
      (ms.filterMap Marked.called?).filter fun name ↦ (t.start? name).isNone := by
  induction ms generalizing index with
  | nil => rfl
  | cons m ms ih =>
    rw [waitingCalls_cons, List.map_append, ih, List.filterMap_cons]
    cases hp : m.purpose with
    | plain => simp [Marked.waiting?, Marked.called?, hp]
    | static offset => simp [Marked.waiting?, Marked.called?, hp]
    | call name => cases ht : t.start? name <;> simp [Marked.waiting?, Marked.called?, hp, ht]

section Linked

variable {p : Program} {entry : Routine} {code : Code} {base : UInt64} {parts : List Part}

private theorem Aimed.isCall {rs : List (String × Nat)} {address : Int32 → UInt64} {k : Nat}
    {m : Marked} {name : String} (h : Aimed rs address k m) (hp : m.purpose = .call name) :
    m.entry.instruction.isCall := by
  rw [Aimed, hp] at h
  cases hr : resolve? rs k name with
  | none =>
    simp only [hr] at h
    rw [h]
    rfl
  | some target =>
    simp only [hr] at h
    obtain ⟨d, -, hi⟩ := callTo_eq_ok h
    rw [hi]
    rfl

private theorem filterMap_called {ms : List Marked} {names : List String}
    (h : List.Forall₂ (fun m name ↦ m.purpose = .call name) ms names) :
    ms.filterMap Marked.called? = names := by
  induction h with
  | nil => rfl
  | cons hp _ ih => rw [List.filterMap_cons, Marked.called?, hp, ih]

private theorem filterMap_called_callMarks {ms : List Marked}
    (h : ∀ m ∈ ms, ∀ name, m.purpose = .call name → m.entry.instruction.isCall) :
    (callMarks ms).filterMap Marked.called? = ms.filterMap Marked.called? := by
  rw [callMarks, List.filterMap_filter]
  refine List.filterMap_congr fun m hm ↦ ?_
  cases hp : m.purpose with
  | plain => simp [Marked.called?, hp]
  | static offset => simp [Marked.called?, hp]
  | call name => rw [if_pos (h m hm name hp)]

/-- The names that instructions are there to call are those that the program calls. -/
theorem Linked.called (h : Linked code base parts)
    (hsources : sources parts = routineSteps p entry) :
    (allMarks parts).filterMap Marked.called? = (Source.calledNames p).flatten := by
  have hparts : ∀ q ∈ parts, ∀ m ∈ q.marks, ∀ name, m.purpose = .call name →
      m.entry.instruction.isCall := by
    intro q hq m hm name hp
    obtain ⟨k, hk⟩ := List.getElem?_of_mem hq
    exact (h.aimed k q hk m hm).isCall hp
  have hnames := (List.forall₂_and_left _ _).mpr ⟨hparts, callsFor_programCalls hsources⟩
  have heq : parts.map (fun q ↦ q.marks.filterMap Marked.called?) = Source.calledNames p := by
    rw [Source.calledNames, ← List.forall₂_eq_eq_eq, List.forall₂_map_left_iff,
      List.forall₂_map_right_iff]
    refine hnames.imp ?_
    rintro q nodes ⟨hq, hcalls⟩
    rw [← filterMap_called_callMarks hq]
    exact filterMap_called (Source.forall₂_routines hcalls)
  rw [← heq, allMarks, List.filterMap_flatMap, List.flatMap_def]

private theorem start?_isNone_iff (code : Code) (name : String) :
    (code.routines.start? name).isNone ↔ name ∉ code.begun.map Prod.fst := by
  rw [Option.isNone_iff_eq_none, RoutineTable.start?, lookup_eq_none_iff, Code.begun,
    List.map_reverse, List.mem_reverse]

/-- The names of calls that wait to the end are those that no routine has. -/
theorem Linked.mem_unresolved (h : Linked code base parts)
    (hsources : sources parts = routineSteps p entry) (name : String) :
    name ∈ PendingCalls.names ⟨waitingCalls code.routines 0 (allMarks parts)⟩ ↔
      name ∈ (Source.calledNames p).flatten ∧ name ∉ code.begun.map Prod.fst := by
  rw [PendingCalls.mem_names, waitingCalls_names, h.called hsources, List.mem_filter,
    start?_isNone_iff]

/-- Every call of a name that no routine has waits to the end. -/
theorem Linked.length_unresolved (h : Linked code base parts)
    (hsources : sources parts = routineSteps p entry) {name : String}
    (hname : name ∉ code.begun.map Prod.fst) :
    (PendingCalls.sitesOf ⟨waitingCalls code.routines 0 (allMarks parts)⟩ name).length =
      (Source.calledNames p).flatten.count name := by
  rw [PendingCalls.length_sitesOf, waitingCalls_names, h.called hsources]
  exact List.count_filter ((start?_isNone_iff code name).mpr hname)

end Linked

end NativeBackend
