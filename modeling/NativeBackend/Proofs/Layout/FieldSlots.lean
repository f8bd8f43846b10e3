import NativeBackend.Proofs.Layout.FrameSlots
import NativeBackend.Proofs.Layout.StaticRanks

/-!
# Slots of fields

The layout of a program read as lists of offsets. The instance fields of each class take the
words of an object from its start, the static fields of all classes together take the words of
the static area, and both stand in the order of the declarations. So no two fields share a word.
-/

namespace NativeBackend

open NativeBackend.Tree

namespace FieldSlot

def isStatic : FieldSlot → Bool
  | inObject _ => false
  | inStatics _ => true

/-- The offset of a slot from the start of its object or of the static area. -/
def offset : FieldSlot → Int
  | inObject offset => offset.toInt
  | inStatics offset => offset.toInt

@[simp] private theorem isStatic_inObject (o : Int32) : (inObject o).isStatic = false := rfl

@[simp] private theorem isStatic_inStatics (o : Int32) : (inStatics o).isStatic = true := rfl

@[simp] private theorem offset_inObject (o : Int32) : (inObject o).offset = o.toInt := rfl

@[simp] private theorem offset_inStatics (o : Int32) : (inStatics o).offset = o.toInt := rfl

end FieldSlot

/-- The offsets of the slots of one kind, in order. -/
def offsetsOf (static : Bool) (slots : List FieldSlot) : List Int :=
  (slots.filter (·.isStatic == static)).map (·.offset)

/-- The offsets of so many words, from zero. -/
def wordOffsets (count : Nat) : List Int := (List.range count).map fun k : Nat ↦ 8 * (k : Int)

/-- A layout gives every field of a program a word of its own. -/
structure FieldLayout.Places (l : FieldLayout) (p : Program) : Prop where
  /-- The declared fields have slots, and nothing else has: each a slot of its own kind. -/
  declared (f : FieldRef) : (l.slot? f).map (·.isStatic) = (p.field? f).map (·.isStatic)
  /-- The slots stand in the order of the declarations. -/
  inOrder : l.slots.map (·.map (·.isStatic)) = p.classes.map (·.fields.map (·.isStatic))
  /-- The instance fields of a class fill the words of an object without gaps. -/
  instances : l.slots.map (offsetsOf false) =
    p.classes.map fun c ↦ wordOffsets (c.fields.countP (!·.isStatic))
  /-- The static fields of all classes fill the words of the static area without gaps. -/
  statics : offsetsOf true l.slots.flatten = wordOffsets p.staticCount
  size : l.staticSize = 8 * p.staticCount
  /-- Every word of the static area is taken once. -/
  once (n : Nat) (hn : n < l.staticSize) (haligned : n % 8 = 0) :
    (offsetsOf true l.slots.flatten).count (n : Int) = 1
  /-- Two fields that lie in the same area have different slots. -/
  apart (f g : FieldRef) (s : FieldSlot) (hf : l.slot? f = some s) (hg : l.slot? g = some s)
    (harea : s.isStatic = true ∨ f.owner = g.owner) : f = g

private theorem offsetsOf_append (static : Bool) (slots slots' : List FieldSlot) :
    offsetsOf static (slots ++ slots') = offsetsOf static slots ++ offsetsOf static slots' := by
  simp [offsetsOf]

/-- Of the two counts, that of a kind is where its slots begin. -/
theorem offsetsOf_classSlots (static : Bool) (instances statics : Nat) (fields : List FieldDecl) :
    offsetsOf static (classSlots instances statics fields).1 =
      (List.range' (if static then statics else instances)
        (fields.countP (·.isStatic == static))).map fun k ↦ (slotOffset k).toInt := by
  -- A field moves the count of its own kind only, so the slots of the other kind go on from theirs.
  induction fields generalizing instances statics with
  | nil => rfl
  | cons d fields ih =>
    cases hd : d.isStatic with
    | true =>
      have hrest := ih instances (statics + 1)
      cases static <;>
        simpa [classSlots, hd, offsetsOf, List.filter_cons, List.range'_succ] using hrest
    | false =>
      have hrest := ih (instances + 1) statics
      cases static <;>
        simpa [classSlots, hd, offsetsOf, List.filter_cons, List.range'_succ] using hrest

/-- The statics of a class begin where those of the classes before it end. -/
theorem offsetsOf_programSlots (statics : Nat) (classes : List ClassDecl) :
    offsetsOf true (programSlots statics classes).1.flatten =
      (List.range' statics (classes.map (·.fields.countP (·.isStatic))).sum).map
        fun k ↦ (slotOffset k).toInt := by
  induction classes generalizing statics with
  | nil => rfl
  | cons c classes ih =>
    simp only [programSlots, List.flatten_cons, offsetsOf_append, offsetsOf_classSlots, ih,
      classSlots_count, List.map_cons, List.sum_cons, ← List.map_append, ite_true,
      beq_true, List.range'_append_1]

private theorem map_offsetsOf_programSlots (statics : Nat) (classes : List ClassDecl) :
    (programSlots statics classes).1.map (offsetsOf false) =
      classes.map fun c ↦ (List.range (c.fields.countP (!·.isStatic))).map
        fun k ↦ (slotOffset k).toInt := by
  induction classes generalizing statics with
  | nil => rfl
  | cons c classes ih =>
    simp only [programSlots, List.map_cons, offsetsOf_classSlots, ih, List.range_eq_range',
      Bool.false_eq_true, ite_false, beq_false]

/-- Offsets are exact as long as 32 bits hold them. -/
theorem map_toInt_slotOffset {count : Nat} (h : count ≤ 2 ^ 28) :
    ((List.range count).map fun k ↦ (slotOffset k).toInt) = wordOffsets count := by
  refine List.map_congr_left fun k hk ↦ ?_
  rw [toInt_slotOffset (Nat.lt_of_lt_of_le (List.mem_range.mp hk) h)]
  push_cast
  rfl

private theorem nodup_wordOffsets (count : Nat) : (wordOffsets count).Nodup :=
  List.nodup_range.map fun a b h ↦ by simpa using h

private theorem count_wordOffsets {count n : Nat} (hn : n < 8 * count) (haligned : n % 8 = 0) :
    (wordOffsets count).count (n : Int) = 1 := by
  refine List.count_eq_one_of_mem (nodup_wordOffsets count) (List.mem_map.mpr ⟨n / 8, ?_, ?_⟩)
  · exact List.mem_range.mpr (by omega)
  · omega

/-- Slots of one kind are told apart by their offsets. -/
theorem eq_of_nodup_offsetsOf {static : Bool} {slots : List FieldSlot} {i j : Nat} {s : FieldSlot}
    (h : (offsetsOf static slots).Nodup) (hi : slots[i]? = some s) (hj : slots[j]? = some s)
    (hs : s.isStatic = static) : i = j := by
  rw [offsetsOf, List.Nodup, List.pairwise_map, List.pairwise_filter] at h
  have hdistinct {a b : Nat} (ha : slots[a]? = some s) (hb : slots[b]? = some s) : ¬ a < b := by
    intro hab
    obtain ⟨ha, has⟩ := List.getElem?_eq_some_iff.mp ha
    obtain ⟨hb, hbs⟩ := List.getElem?_eq_some_iff.mp hb
    have hne := List.pairwise_iff_getElem.mp h a b ha hb hab
    simp [has, hbs, hs] at hne
  have hle := hdistinct hi hj
  have hge := hdistinct hj hi
  omega

private theorem map_isStatic_classSlots (instances statics : Nat) (fields : List FieldDecl) :
    (classSlots instances statics fields).1.map (·.isStatic) = fields.map (·.isStatic) := by
  induction fields generalizing instances statics with
  | nil => rfl
  | cons d fields ih =>
    cases hd : d.isStatic <;> simp [classSlots, hd, ih]

private theorem map_isStatic_programSlots (statics : Nat) (classes : List ClassDecl) :
    (programSlots statics classes).1.map (·.map (·.isStatic)) =
      classes.map (·.fields.map (·.isStatic)) := by
  induction classes generalizing statics with
  | nil => rfl
  | cons c classes ih => simp only [programSlots, List.map_cons, map_isStatic_classSlots, ih]

section Layout

variable {p : Program}

private theorem staticCount_le_fieldCount (p : Program) : p.staticCount ≤ p.fieldCount :=
  countP_sum_le p.classes (·.isStatic)

private theorem length_le_fieldCount {c : ClassDecl} (hc : c ∈ p.classes) :
    c.fields.length ≤ p.fieldCount :=
  List.le_sum_of_mem (List.mem_map_of_mem hc)

namespace FieldLayout

private theorem map_isStatic_slot? (p : Program) (f : FieldRef) :
    ((ofProgram p).slot? f).map (·.isStatic) = (p.field? f).map (·.isStatic) := by
  rw [slot?_ofProgram, Option.map_map]
  congr 1
  funext d
  cases hd : d.isStatic <;> simp [hd]

private theorem map_offsetsOf_ofProgram (h : p.fieldCount < 2 ^ 28) :
    (ofProgram p).slots.map (offsetsOf false) =
      p.classes.map fun c ↦ wordOffsets (c.fields.countP (!·.isStatic)) := by
  refine (map_offsetsOf_programSlots 0 p.classes).trans (List.map_congr_left fun c hc ↦ ?_)
  have hlength := length_le_fieldCount hc
  have hcount := List.countP_le_length (p := (!·.isStatic)) (l := c.fields)
  exact map_toInt_slotOffset (by omega)

private theorem offsetsOf_ofProgram (h : p.fieldCount < 2 ^ 28) :
    offsetsOf true (ofProgram p).slots.flatten = wordOffsets p.staticCount := by
  have hcount := staticCount_le_fieldCount p
  refine (offsetsOf_programSlots 0 p.classes).trans ?_
  rw [← List.range_eq_range']
  exact map_toInt_slotOffset (by unfold Program.staticCount at hcount; omega)

/-- Static fields lie at their ranks, and no two have the same. -/
theorem eq_of_slot?_inStatics (h : p.fieldCount < 2 ^ 28) {f g : FieldRef} {o : Int32}
    (hf : (ofProgram p).slot? f = some (.inStatics o))
    (hg : (ofProgram p).slot? g = some (.inStatics o)) : f = g := by
  have hrank {e : FieldRef} (he : (ofProgram p).slot? e = some (.inStatics o)) :
      p.isStaticField e = true ∧ o.toInt = 8 * p.staticRank e := by
    rw [slot?_ofProgram, Option.map_eq_some_iff] at he
    obtain ⟨d, hd, hslot⟩ := he
    cases hstatic : d.isStatic with
    | false => simp [hstatic] at hslot
    | true =>
      obtain rfl : slotOffset (p.staticRank e) = o := by simpa [hstatic] using hslot
      refine ⟨isStaticField_iff.mpr ⟨d, hd, hstatic⟩, ?_⟩
      rw [toInt_slotOffset (Nat.lt_trans (ranks_lt hd).1 h)]
      push_cast
      rfl
  obtain ⟨hf, hfo⟩ := hrank hf
  obtain ⟨hg, hgo⟩ := hrank hg
  exact staticRank_injective hf hg (by omega)

/-- The instance fields of one class lie apart. -/
theorem eq_of_slot?_inObject (h : p.fieldCount < 2 ^ 28) {f g : FieldRef} {o : Int32}
    (hf : (ofProgram p).slot? f = some (.inObject o))
    (hg : (ofProgram p).slot? g = some (.inObject o)) (howner : f.owner = g.owner) : f = g := by
  obtain ⟨slots, hslots, hf⟩ := Option.bind_eq_some_iff.mp hf
  obtain ⟨slots', hslots', hg⟩ := Option.bind_eq_some_iff.mp hg
  obtain rfl : slots = slots' := by simpa [← howner, hslots] using hslots'
  have hoffsets : offsetsOf false slots ∈
      p.classes.map fun c ↦ wordOffsets (c.fields.countP (!·.isStatic)) := by
    rw [← map_offsetsOf_ofProgram h]
    exact List.mem_map_of_mem (List.mem_of_getElem? hslots)
  obtain ⟨c, -, hc⟩ := List.mem_map.mp hoffsets
  have hposition : f.position.toNat = g.position.toNat :=
    eq_of_nodup_offsetsOf (hc ▸ nodup_wordOffsets _) hf hg rfl
  exact eq_of_place (congrArg UInt64.toNat howner) hposition

/-- Fewer fields than 32-bit offsets can reach all have a word of their own, with no word between
them left out. -/
theorem places_ofProgram (h : p.fieldCount < 2 ^ 28) : (ofProgram p).Places p where
  declared := map_isStatic_slot? p
  inOrder := map_isStatic_programSlots 0 p.classes
  instances := map_offsetsOf_ofProgram h
  statics := offsetsOf_ofProgram h
  size := staticSize_ofProgram p
  once n hn haligned := by
    rw [offsetsOf_ofProgram h]
    exact count_wordOffsets (staticSize_ofProgram p ▸ hn) haligned
  apart f g s hf hg harea := by
    cases s with
    | inObject o => exact eq_of_slot?_inObject h hf hg (by simpa using harea)
    | inStatics o => exact eq_of_slot?_inStatics h hf hg

/-- Two classes that declare both kinds of fields, in turn. -/
def mixedFields : Program :=
  ⟨[⟨"Point", [⟨"made", .int, true, false⟩, ⟨"x", .int, false, false⟩, ⟨"last", .int, true, true⟩,
      ⟨"y", .int, false, false⟩], []⟩,
    ⟨"Main", [⟨"count", .int, false, true⟩, ⟨"limit", .int, true, false⟩], []⟩]⟩

/-- The slots of two classes with fields of both kinds. -/
theorem places_ofProgram_mixedFields :
    mixedFields.fieldCount < 2 ^ 28 ∧ (ofProgram mixedFields).Places mixedFields ∧
      (ofProgram mixedFields).slot? ⟨0, 3⟩ = some (.inObject 8) ∧
      (ofProgram mixedFields).slot? ⟨1, 1⟩ = some (.inStatics 16) :=
  ⟨by decide, places_ofProgram (by decide), by decide, by decide⟩

end FieldLayout

end Layout

end NativeBackend
