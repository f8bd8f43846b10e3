import NativeBackend.Proofs.Emission.Reach
import NativeBackend.Proofs.Emission.WholeProgram

/-!
# Where routines lie

Routines are put one right after the other, so the offset of each is the size of all
steps before it. The offsets that are planned in this way are those of the routines in
the code, when there is code at all.
-/

namespace NativeBackend

open Machine NativeBackend.Tree

/-- The bytes of the code of routines. -/
def sourcesSize (sources : List (String × List Step)) : Nat :=
  (sources.map fun x ↦ stepsSize x.2).sum

/-- The names and offsets of routines that are put one right after the other. -/
def plannedStarts (o : Nat) : List (String × List Step) → List (String × Nat)
  | [] => []
  | (name, xs) :: rest => (name, o) :: plannedStarts (o + stepsSize xs) rest

section Plan

variable {o k : Nat} {name : String} {xs : List Step} {before after : List (String × List Step)}

/-- The plan of routines in a row is that of both parts, the second behind the first. -/
theorem plannedStarts_append : plannedStarts o (before ++ after) =
    plannedStarts o before ++ plannedStarts (o + sourcesSize before) after := by
  induction before generalizing o with
  | nil => rfl
  | cons x before ih =>
    have hsize : sourcesSize (x :: before) = stepsSize x.2 + sourcesSize before := List.sum_cons
    rw [List.cons_append, plannedStarts, plannedStarts, ih, hsize, Nat.add_assoc]
    rfl

/-- There is a planned start for every routine. -/
@[simp] theorem length_plannedStarts : (plannedStarts o before).length = before.length := by
  induction before generalizing o with
  | nil => rfl
  | cons x before ih => exact congrArg Nat.succ ih

/-- A routine lies behind all those before it. -/
theorem getElem?_plannedStarts (h : before[k]? = some (name, xs)) :
    (plannedStarts o before)[k]? = some (name, o + sourcesSize (before.take k)) := by
  have hlt := (List.getElem?_eq_some_iff.mp h).1
  have hk : k = (plannedStarts o (before.take k)).length := by
    rw [length_plannedStarts, List.length_take]
    omega
  conv_lhs => rw [eq_take_append_cons h, plannedStarts_append]
  rw [List.getElem?_append_right hk.ge, ← hk, Nat.sub_self]
  rfl

end Plan

section Parts

variable {o : Nat} {parts : List Part}

/-- Routines in the code take as many bytes as their steps. -/
theorem extent_allMarks (parts : List Part) :
    extent (allMarks parts) = sourcesSize (sources parts) := by
  induction parts with
  | nil => rfl
  | cons q parts ih =>
    have hmarks : allMarks (q :: parts) = q.marks ++ allMarks parts := List.flatMap_cons
    have hsize : sourcesSize (sources (q :: parts)) =
        stepsSize q.steps + sourcesSize (sources parts) := List.sum_cons
    rw [hmarks, extent_append, q.assembled.extent_eq, ih, hsize]

/-- Routines in the code lie where they were planned. -/
theorem Contiguous.starts_eq (h : Contiguous o parts) :
    starts parts = plannedStarts o (sources parts) := by
  induction parts generalizing o with
  | nil => rfl
  | cons q parts ih =>
    obtain ⟨hstart, hrest⟩ := h
    rw [q.assembled.extent_eq] at hrest
    have hcons : starts (q :: parts) = (q.name, q.start) :: starts parts := rfl
    rw [hcons, hstart, ih hrest]
    rfl

/-- A routine in the code lies behind the steps of all those before it. -/
theorem Contiguous.start_eq (h : Contiguous 0 parts) {k : Nat} {q : Part}
    (hq : parts[k]? = some q) : q.start = sourcesSize ((sources parts).take k) := by
  have hsource : (sources parts)[k]? = some (q.name, q.steps) := by
    rw [sources, List.getElem?_map, hq]
    rfl
  have hstart : (starts parts)[k]? = some (q.name, q.start) := by
    rw [starts, List.getElem?_map, hq]
    rfl
  rw [h.starts_eq, getElem?_plannedStarts hsource, Nat.zero_add] at hstart
  exact (Prod.mk.inj (Option.some.inj hstart)).2.symm

end Parts

end NativeBackend
