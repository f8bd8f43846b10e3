import NativeBackend.Proofs.Layout.FieldPlaces

/-!
# Ranks of static fields

The static fields of a program are counted through in the order of their declaration. No
two of them have the same rank, and the ranks are those below the count of all.
-/

namespace NativeBackend

open NativeBackend.Tree

namespace Tree.Program

/-- The count of static fields of a program. -/
def staticCount (p : Program) : Nat := (p.classes.map (·.fields.countP (·.isStatic))).sum

/-- Whether a reference names a static field that the program declares. -/
def isStaticField (p : Program) (f : FieldRef) : Bool := (p.field? f).any (·.isStatic)

end Tree.Program

private theorem programSlots_count (statics : Nat) (classes : List ClassDecl) :
    (programSlots statics classes).2 =
      statics + (classes.map (·.fields.countP (·.isStatic))).sum := by
  induction classes generalizing statics with
  | nil => rfl
  | cons c classes ih =>
    simp only [programSlots, ih, classSlots_count, List.map_cons, List.sum_cons, Nat.add_assoc]

/-- The static area has a word for each static field. -/
theorem staticSize_ofProgram (p : Program) :
    (FieldLayout.ofProgram p).staticSize = Convention.wordSize * p.staticCount := by
  have hcount : (FieldLayout.ofProgram p).staticCount = p.staticCount := by
    simp only [FieldLayout.ofProgram, programSlots_count, Nat.zero_add, Program.staticCount]
  rw [FieldLayout.staticSize, hcount]

private theorem countP_take_lt {fields : List FieldDecl} {position n : Nat} {d : FieldDecl}
    (hd : fields[position]? = some d) (hstatic : d.isStatic = true) (hn : position < n) :
    (fields.take position).countP (·.isStatic) < (fields.take n).countP (·.isStatic) := by
  induction fields generalizing position n with
  | nil => simp at hd
  | cons e fields ih =>
    obtain ⟨n, rfl⟩ : ∃ k, n = k + 1 := ⟨n - 1, by omega⟩
    cases position with
    | zero =>
      simp only [List.getElem?_cons_zero, Option.some.injEq] at hd
      simp [hd, hstatic]
    | succ position =>
      have hrest := ih hd (by omega : position < n)
      simp only [List.take_succ_cons, List.countP_cons]
      omega

private theorem statics_le {classes : List ClassDecl} {owner n : Nat} {c : ClassDecl}
    (hc : classes[owner]? = some c) (hn : owner < n) :
    ((classes.take owner).map (·.fields.countP (·.isStatic))).sum +
        c.fields.countP (·.isStatic) ≤
      ((classes.take n).map (·.fields.countP (·.isStatic))).sum := by
  induction classes generalizing owner n with
  | nil => simp at hc
  | cons d classes ih =>
    obtain ⟨n, rfl⟩ : ∃ k, n = k + 1 := ⟨n - 1, by omega⟩
    cases owner with
    | zero =>
      simp only [List.getElem?_cons_zero, Option.some.injEq] at hc
      simp [hc]
    | succ owner =>
      have hrest := ih hc (by omega : owner < n)
      simp only [List.take_succ_cons, List.map_cons, List.sum_cons]
      omega

section Ranks

variable {p : Program} {f g : FieldRef}

/-- A field reference is determined by its two positions. -/
theorem eq_of_place (howner : f.owner.toNat = g.owner.toNat)
    (hposition : f.position.toNat = g.position.toNat) : f = g := by
  obtain ⟨owner, position⟩ := f
  obtain ⟨owner', position'⟩ := g
  rw [FieldRef.mk.injEq]
  exact ⟨UInt64.toNat_inj.mp howner, UInt64.toNat_inj.mp hposition⟩

/-- A static field is one that is declared so. -/
theorem isStaticField_iff : p.isStaticField f = true ↔
    ∃ d, p.field? f = some d ∧ d.isStatic = true := by
  cases h : p.field? f with
  | none => simp [Program.isStaticField, h]
  | some d => simp [Program.isStaticField, h]

private theorem exists_class_of_isStaticField (h : p.isStaticField f = true) :
    ∃ c d, p.classes[f.owner.toNat]? = some c ∧ c.fields[f.position.toNat]? = some d ∧
      d.isStatic = true := by
  obtain ⟨d, hd, hstatic⟩ := isStaticField_iff.mp h
  obtain ⟨c, hc, hd⟩ := Option.bind_eq_some_iff.mp hd
  exact ⟨c, d, hc, hd, hstatic⟩

private theorem staticRank_lt (hf : p.isStaticField f = true) {n : Nat} (hn : f.owner.toNat < n) :
    p.staticRank f < ((p.classes.take n).map (·.fields.countP (·.isStatic))).sum := by
  obtain ⟨c, d, hc, hd, hstatic⟩ := exists_class_of_isStaticField hf
  have hclasses := statics_le hc hn
  have hfields := countP_take_lt hd hstatic (List.getElem?_eq_some_iff.mp hd).1
  rw [List.take_length] at hfields
  simp only [Program.staticRank, Program.class?, hc]
  omega

/-- The rank of a static field is below their count. -/
theorem staticRank_lt_staticCount (hf : p.isStaticField f = true) :
    p.staticRank f < p.staticCount := by
  obtain ⟨c, -, hc, -⟩ := exists_class_of_isStaticField hf
  have hlt := staticRank_lt hf (List.getElem?_eq_some_iff.mp hc).1
  rwa [List.take_length] at hlt

private theorem staticRank_lt_of_before (hf : p.isStaticField f = true)
    (hbefore : f.owner.toNat < g.owner.toNat ∨
      f.owner.toNat = g.owner.toNat ∧ f.position.toNat < g.position.toNat) :
    p.staticRank f < p.staticRank g := by
  obtain hclass | ⟨hclass, hposition⟩ := hbefore
  · have hlt := staticRank_lt hf hclass
    rw [Program.staticRank.eq_def p g]
    omega
  · obtain ⟨c, d, hc, hd, hstatic⟩ := exists_class_of_isStaticField hf
    have hfields := countP_take_lt hd hstatic hposition
    simp only [Program.staticRank, Program.class?, ← hclass, hc]
    omega

/-- No two static fields have the same rank. -/
theorem staticRank_injective (hf : p.isStaticField f = true) (hg : p.isStaticField g = true)
    (h : p.staticRank f = p.staticRank g) : f = g := by
  have hforward := staticRank_lt_of_before (g := g) hf
  have hbackward := staticRank_lt_of_before (g := f) hg
  have hplace : f.owner.toNat = g.owner.toNat ∧ f.position.toNat = g.position.toNat := by
    omega
  exact eq_of_place hplace.1 hplace.2

end Ranks

end NativeBackend
