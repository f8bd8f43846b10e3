import Mathlib
import NativeBackend.Layout.Fields

/-!
# Places of fields

The slot of a field by counting: an instance field follows the instance fields that
its class declares before it, and a static field follows the static fields that the
program declares before it.
-/

namespace NativeBackend

open NativeBackend.Tree

namespace Tree.Program

/-- The count of fields of a program. -/
def fieldCount (p : Program) : Nat := (p.classes.map (·.fields.length)).sum

/-- How many instance fields the class of a field declares before it. -/
def instanceRank (p : Program) (f : FieldRef) : Nat :=
  match p.class? f.owner with
  | some c => (c.fields.take f.position.toNat).countP (!·.isStatic)
  | none => 0

/-- How many static fields the program declares before a field. -/
def staticRank (p : Program) (f : FieldRef) : Nat :=
  ((p.classes.take f.owner.toNat).map (·.fields.countP (·.isStatic))).sum +
    match p.class? f.owner with
    | some c => (c.fields.take f.position.toNat).countP (·.isStatic)
    | none => 0

end Tree.Program

/-- The slot of a field at a position of its class, where slots before it are counted. -/
private def countedSlot (instances statics : Nat) (fields : List FieldDecl) (position : Nat)
    (d : FieldDecl) : FieldSlot :=
  if d.isStatic then
    .inStatics (slotOffset (statics + (fields.take position).countP (·.isStatic)))
  else .inObject (slotOffset (instances + (fields.take position).countP (!·.isStatic)))

/-- The static slots after a class are those before it and its static fields. -/
theorem classSlots_count (instances statics : Nat) (fields : List FieldDecl) :
    (classSlots instances statics fields).2 = statics + fields.countP (·.isStatic) := by
  induction fields generalizing instances statics with
  | nil => rfl
  | cons d fields ih =>
    cases hd : d.isStatic with
    | true => simp [classSlots, hd, ih]; omega
    | false => simp [classSlots, hd, ih]

private theorem classSlots_get (instances statics : Nat) (fields : List FieldDecl)
    (position : Nat) :
    (classSlots instances statics fields).1[position]? =
      fields[position]?.map (countedSlot instances statics fields position) := by
  induction fields generalizing instances statics position with
  | nil => simp [classSlots]
  | cons d fields ih =>
    cases position with
    | zero => cases hd : d.isStatic <;> simp [classSlots, hd, countedSlot]
    | succ position =>
      cases hd : d.isStatic with
      | true =>
        simp only [classSlots, hd, ite_true, List.getElem?_cons_succ, ih]
        congr 1
        funext e
        simp [countedSlot, hd, Nat.add_assoc, Nat.add_comm 1]
      | false =>
        simp only [classSlots, hd, Bool.false_eq_true, ite_false, List.getElem?_cons_succ, ih]
        congr 1
        funext e
        simp [countedSlot, hd, Nat.add_assoc, Nat.add_comm 1]

private theorem programSlots_get (statics : Nat) (classes : List ClassDecl) (owner : Nat) :
    (programSlots statics classes).1[owner]? =
      classes[owner]?.map fun c ↦ (classSlots 0
        (statics + ((classes.take owner).map (·.fields.countP (·.isStatic))).sum) c.fields).1 := by
  induction classes generalizing statics owner with
  | nil => simp [programSlots]
  | cons c classes ih =>
    cases owner with
    | zero => simp [programSlots]
    | succ owner =>
      simp only [programSlots, List.getElem?_cons_succ, ih, classSlots_count, List.take_succ_cons,
        List.map_cons, List.sum_cons, Nat.add_assoc]

/-- A field has a slot exactly when the program declares it, of its own kind and at its rank. -/
theorem slot?_ofProgram (p : Program) (f : FieldRef) :
    (FieldLayout.ofProgram p).slot? f =
      (p.field? f).map fun d ↦
        if d.isStatic then .inStatics (slotOffset (p.staticRank f))
        else .inObject (slotOffset (p.instanceRank f)) := by
  simp only [FieldLayout.slot?, FieldLayout.ofProgram, programSlots_get, Nat.zero_add,
    Program.field?, Program.staticRank, Program.instanceRank, Program.class?]
  cases hc : p.classes[f.owner.toNat]? with
  | none => rfl
  | some c =>
    simp only [Option.map_some, Option.bind_eq_bind, Option.bind_some, classSlots_get]
    congr 1
    funext d
    simp only [countedSlot, Nat.zero_add]

private theorem fields_le_sum {classes : List ClassDecl} {owner : Nat} {c : ClassDecl}
    (h : classes[owner]? = some c) :
    ((classes.take owner).map (·.fields.length)).sum + c.fields.length ≤
      (classes.map (·.fields.length)).sum := by
  induction classes generalizing owner with
  | nil => simp at h
  | cons d classes ih =>
    cases owner with
    | zero =>
      simp only [List.getElem?_cons_zero, Option.some.injEq] at h
      subst h
      simp
    | succ owner =>
      rw [List.getElem?_cons_succ] at h
      have hr := ih h
      simp only [List.take_succ_cons, List.map_cons, List.sum_cons]
      omega

/-- There are no more fields of a kind than fields. -/
theorem countP_sum_le (classes : List ClassDecl) (select : FieldDecl → Bool) :
    (classes.map (·.fields.countP select)).sum ≤ (classes.map (·.fields.length)).sum := by
  induction classes with
  | nil => exact Nat.le_refl _
  | cons c classes ih =>
    have hc := List.countP_le_length (p := select) (l := c.fields)
    simp only [List.map_cons, List.sum_cons]
    omega

/-- The rank of a declared field, whichever its kind, is below the count of fields. -/
theorem ranks_lt {p : Program} {f : FieldRef} {d : FieldDecl} (h : p.field? f = some d) :
    p.staticRank f < p.fieldCount ∧ p.instanceRank f < p.fieldCount := by
  obtain ⟨c, hc, hf⟩ := Option.bind_eq_some_iff.mp h
  have hp : f.position.toNat < c.fields.length := (List.getElem?_eq_some_iff.mp hf).1
  have hs := fields_le_sum hc
  have hb := countP_sum_le (p.classes.take f.owner.toNat) (·.isStatic)
  have hcount (select : FieldDecl → Bool) :
      (c.fields.take f.position.toNat).countP select ≤ f.position.toNat :=
    Nat.le_trans List.countP_le_length (List.length_take_le _ _)
  have hst := hcount (·.isStatic)
  have hin := hcount (!·.isStatic)
  simp only [Program.staticRank, Program.instanceRank, Program.fieldCount, hc]
  omega

end NativeBackend
