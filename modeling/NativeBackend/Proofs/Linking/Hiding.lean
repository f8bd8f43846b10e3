import NativeBackend.Proofs.Linking.CallSites

/-!
# Routines hidden by others of their name

A call finds its routine by name, so that a routine may be hidden from a caller by
another one of the same name. `Hidden` says exactly when: a name resolves to the one
routine of that name that is not hidden. Routines begin at different offsets, so that
where a call leads tells which routine it found.
-/

namespace NativeBackend

open Machine NativeBackend.Tree

/-- The routine at the second position is hidden from the one at the first: another one of its name
begins after it and not after the caller, or it begins after the caller and another one of its name
before it. -/
def Hidden (names : List String) (caller callee : Nat) : Prop :=
  ∃ i < names.length, names[i]? = names[callee]? ∧
    (callee < i ∧ i ≤ caller ∨ i < callee ∧ caller < callee)

instance (names : List String) (caller callee : Nat) : Decidable (Hidden names caller callee) :=
  inferInstanceAs (Decidable (∃ i < names.length, _))

/-- Of the routines of one name at most one is not hidden. -/
theorem eq_of_not_hidden {names : List String} {k i j : Nat} (hi : i < names.length)
    (hj : j < names.length) (hname : names[i]? = names[j]?) (hi' : ¬Hidden names k i)
    (hj' : ¬Hidden names k j) : i = j := by
  by_contra hne
  rcases Nat.lt_or_gt_of_ne hne with hlt | hlt
  · by_cases hk : j ≤ k
    · exact hi' ⟨j, hj, hname.symm, .inl ⟨hlt, hk⟩⟩
    · exact hj' ⟨i, hi, hname, .inr ⟨hlt, by omega⟩⟩
  · by_cases hk : i ≤ k
    · exact hj' ⟨i, hi, hname, .inl ⟨hlt, hk⟩⟩
    · exact hi' ⟨j, hj, hname.symm, .inr ⟨hlt, by omega⟩⟩

section Resolve

variable {rs : List (String × Nat)} {k t : Nat} {name : String}

private theorem exists_of_lookup {l : List (String × Nat)} (h : l.lookup name = some t) :
    ∃ i : Nat, l[i]? = some (name, t) ∧ ∀ i' < i, ∀ t', l[i']? ≠ some (name, t') := by
  induction l with
  | nil => cases h
  | cons x l ih =>
    obtain ⟨name', start⟩ := x
    rw [lookup_cons_eq_ite] at h
    split at h
    · next heq =>
      refine ⟨0, ?_, fun i' hi' ↦ absurd hi' (Nat.not_lt_zero _)⟩
      rw [heq, ← Option.some.inj h]
      rfl
    · next hne =>
      obtain ⟨i, hi, hbefore⟩ := ih h
      refine ⟨i + 1, hi, fun i' hi' t' ↦ ?_⟩
      cases i' with
      | zero => exact fun hx ↦ hne (Prod.mk.inj (Option.some.inj hx)).1.symm
      | succ i' => exact hbefore i' (Nat.lt_of_succ_lt_succ hi') t'

private theorem exists_same_name {i j : Nat} (hj : rs[j]? = some (name, t))
    (h : (rs.map Prod.fst)[i]? = (rs.map Prod.fst)[j]?) : ∃ t', rs[i]? = some (name, t') := by
  rw [List.getElem?_map, List.getElem?_map, hj, Option.map_some, Option.map_eq_some_iff] at h
  obtain ⟨⟨name', t'⟩, hi, rfl⟩ := h
  exact ⟨t', hi⟩

-- The latest routine of a name up to the caller is not hidden from it.
private theorem exists_of_lookup_take (h : (rs.take (k + 1)).reverse.lookup name = some t) :
    ∃ i, rs[i]? = some (name, t) ∧ ¬Hidden (rs.map Prod.fst) k i := by
  obtain ⟨i, hi, hbefore⟩ := exists_of_lookup h
  have hlength : (rs.take (k + 1)).length = min (k + 1) rs.length := List.length_take
  -- The positions counted from the caller backward and from the first routine forward.
  have hget : ∀ i j, i + j + 1 = min (k + 1) rs.length →
      (rs.take (k + 1)).reverse[i]? = rs[j]? := by
    intro i j hsum
    rw [List.getElem?_reverse' (hsum.trans hlength.symm), List.getElem?_take_of_lt (by omega)]
  have hlt := (List.getElem?_eq_some_iff.mp hi).1
  rw [List.length_reverse, hlength] at hlt
  obtain ⟨j, hj⟩ : ∃ j, i + j + 1 = min (k + 1) rs.length :=
    ⟨min (k + 1) rs.length - 1 - i, by omega⟩
  rw [hget i j hj] at hi
  refine ⟨j, hi, ?_⟩
  rintro ⟨i', hi', hname, ⟨hafter, hk⟩ | ⟨-, hk⟩⟩
  · rw [List.length_map] at hi'
    obtain ⟨t', ht'⟩ := exists_same_name hi hname
    refine hbefore (min (k + 1) rs.length - 1 - i') (by omega) t' ?_
    rw [hget _ i' (by omega), ht']
  · omega

-- If no routine of a name begins up to the caller, the first one after it is not hidden.
private theorem exists_of_lookup_drop (hnone : (rs.take (k + 1)).reverse.lookup name = none)
    (h : (rs.drop (k + 1)).lookup name = some t) :
    ∃ i, rs[i]? = some (name, t) ∧ ¬Hidden (rs.map Prod.fst) k i := by
  obtain ⟨i, hi, hbefore⟩ := exists_of_lookup h
  rw [List.getElem?_drop] at hi
  refine ⟨_, hi, ?_⟩
  rintro ⟨i', -, hname, ⟨hafter, hk⟩ | ⟨hlt, -⟩⟩
  · omega
  · obtain ⟨t', ht'⟩ := exists_same_name hi hname
    by_cases hk : i' ≤ k
    · rw [lookup_eq_none_iff, List.map_reverse, List.mem_reverse] at hnone
      rw [← List.getElem?_take_of_lt (Nat.lt_succ_of_le hk)] at ht'
      exact hnone (List.mem_map.mpr ⟨_, List.mem_of_getElem? ht', rfl⟩)
    · refine hbefore (i' - (k + 1)) (by omega) t' ?_
      have hsum : k + 1 + (i' - (k + 1)) = i' := by omega
      rw [List.getElem?_drop, hsum, ht']

private theorem exists_of_resolve? (h : resolve? rs k name = some t) :
    ∃ i, rs[i]? = some (name, t) ∧ ¬Hidden (rs.map Prod.fst) k i := by
  rw [resolve?, Option.or_eq_some_iff] at h
  rcases h with h | ⟨hnone, h⟩
  · exact exists_of_lookup_take h
  · exact exists_of_lookup_drop hnone h

/-- A name resolves to the one routine of that name that is not hidden. -/
theorem resolve?_eq_some_iff :
    resolve? rs k name = some t ↔
      ∃ i, rs[i]? = some (name, t) ∧ ¬Hidden (rs.map Prod.fst) k i := by
  refine ⟨exists_of_resolve?, fun ⟨i, hi, hhidden⟩ ↦ ?_⟩
  have hlt : i < rs.length := (List.getElem?_eq_some_iff.mp hi).1
  have hmem : name ∈ rs.map Prod.fst := List.mem_map.mpr ⟨_, List.mem_of_getElem? hi, rfl⟩
  cases hr : resolve? rs k name with
  | none => exact absurd hmem (resolve?_eq_none_iff.mp hr)
  | some t' =>
    obtain ⟨j, hj, hhidden'⟩ := exists_of_resolve? hr
    have hlt' : j < rs.length := (List.getElem?_eq_some_iff.mp hj).1
    have hnames : (rs.map Prod.fst)[j]? = (rs.map Prod.fst)[i]? := by
      rw [List.getElem?_map, List.getElem?_map, hi, hj]
      rfl
    have heq := eq_of_not_hidden (by simpa using hlt') (by simpa using hlt) hnames hhidden' hhidden
    rw [heq, hi] at hj
    exact congrArg some (Prod.mk.inj (Option.some.inj hj)).2.symm

end Resolve

section Starts

variable {p : Program} {entry : Routine} {code : Code} {base : UInt64} {o : Nat}
  {parts : List Part}

private theorem Contiguous.start_ge (h : Contiguous o parts) : ∀ q ∈ parts, o ≤ q.start := by
  induction parts generalizing o with
  | nil => intro q hq; cases hq
  | cons q' parts ih =>
    intro q hq
    rcases List.mem_cons.mp hq with rfl | hq
    · exact h.1.ge
    · have hle := ih h.2 q hq
      omega

private theorem Contiguous.pairwise_starts (h : Contiguous o parts)
    (hpos : ∀ q ∈ parts, 0 < extent q.marks) : (starts parts).Pairwise (·.2 < ·.2) := by
  induction parts generalizing o with
  | nil => exact .nil
  | cons q parts ih =>
    obtain ⟨hstart, hrest⟩ := h
    obtain ⟨hq, hparts⟩ := List.forall_mem_cons.mp hpos
    refine .cons (fun x hx ↦ ?_) (ih hrest hparts)
    obtain ⟨q', hq', rfl⟩ := List.mem_map.mp hx
    have hge := hrest.start_ge q' hq'
    change q.start < q'.start
    omega

/-- Every routine starts with an instruction. -/
theorem exists_frame_cons (p : Program) (entry : Routine) :
    ∀ source ∈ routineSteps p entry, ∃ i steps, source.2 = .frame i :: steps := by
  intro source hsource
  rcases List.mem_append.mp hsource with hbuiltin | hroutine
  · obtain ⟨b, hb, rfl⟩ := List.mem_map.mp hbuiltin
    rcases List.mem_cons.mp hb with rfl | hb
    · exact ⟨_, _, rfl⟩
    · rcases List.mem_singleton.mp hb with rfl
      exact ⟨_, _, rfl⟩
  · obtain ⟨r, -, rfl⟩ := List.mem_map.mp hroutine
    exact ⟨_, _, rfl⟩

private theorem extent_pos (hsources : sources parts = routineSteps p entry) :
    ∀ q ∈ parts, 0 < extent q.marks := by
  intro q hq
  have hmem : (q.name, q.steps) ∈ routineSteps p entry :=
    hsources ▸ List.mem_map.mpr ⟨q, hq, rfl⟩
  obtain ⟨i, steps, hsteps⟩ := exists_frame_cons p entry _ hmem
  have hcode := q.assembled
  simp only at hsteps
  rw [hsteps] at hcode
  generalize q.marks = ms at hcode
  cases hcode with
  | frame encoded _ =>
    rw [extent_cons]
    exact Nat.add_pos_left (length_encode_pos encoded) _

/-- No two routines begin at the same offset. -/
theorem Linked.start_injective (h : Linked code base parts)
    (hsources : sources parts = routineSteps p entry) {i j start : Nat} {name name' : String}
    (hi : code.begun[i]? = some (name, start)) (hj : code.begun[j]? = some (name', start)) :
    i = j := by
  have hpairwise := h.contiguous.pairwise_starts (extent_pos hsources)
  rw [← h.begun] at hpairwise
  obtain ⟨hi', hi⟩ := List.getElem?_eq_some_iff.mp hi
  obtain ⟨hj', hj⟩ := List.getElem?_eq_some_iff.mp hj
  by_contra hne
  rcases Nat.lt_or_gt_of_ne hne with hlt | hlt
  · have hstarts := List.pairwise_iff_getElem.mp hpairwise i j hi' hj' hlt
    rw [hi, hj] at hstarts
    exact Nat.lt_irrefl _ hstarts
  · have hstarts := List.pairwise_iff_getElem.mp hpairwise j i hj' hi' hlt
    rw [hi, hj] at hstarts
    exact Nat.lt_irrefl _ hstarts

end Starts

/-- A call of the name of a routine leads to its start exactly when it is not hidden. -/
theorem Linked.branchTarget?_iff {p : Program} {entry : Routine} {code : Code} {base : UInt64}
    {parts : List Part} (h : Linked code base parts)
    (hsources : sources parts = routineSteps p entry) {k j start : Nat} {name : String}
    {e : Emitted} (hj : code.begun[j]? = some (name, start)) (he : LeadsTo code.begun k e name) :
    e.instruction.branchTarget? e.start = some start ↔
      ¬Hidden (code.begun.map Prod.fst) k j := by
  have hmem : name ∈ code.begun.map Prod.fst := List.mem_map.mpr ⟨_, List.mem_of_getElem? hj, rfl⟩
  cases hr : resolve? code.begun k name with
  | none => exact absurd hmem (resolve?_eq_none_iff.mp hr)
  | some target =>
    rw [LeadsTo, hr] at he
    simp only at he
    rw [he, ← hr]
    refine ⟨fun hstart ↦ ?_, fun hshown ↦ resolve?_eq_some_iff.mpr ⟨j, hj, hshown⟩⟩
    obtain ⟨i, hi, hshown⟩ := resolve?_eq_some_iff.mp hstart
    rwa [h.start_injective hsources hi hj] at hshown

end NativeBackend
