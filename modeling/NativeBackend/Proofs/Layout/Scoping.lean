import NativeBackend.Proofs.Layout.FrameSlots

/-!
# Frames over runs of scopes

Locals are declared, marks are taken, and what was declared since a mark is released again, in any
order. Beside the frame a record is kept of the declarations that are live, with the offset that was
answered to each. The frame agrees with the record after every call, so that no two words of it
overlap, and a release to a mark gives back what there was when the mark was taken.
-/

namespace NativeBackend

open NativeBackend.Tree

/-- A call of an operation that changes or marks the locals of a frame. -/
inductive FrameCall
  | declare (id : VarId)
  | mark
  /-- A release of the locals beyond a mark. -/
  | release (mark : Nat)
  deriving DecidableEq, Repr

namespace Frame

/-- The frame after a call. -/
def afterCall (f : Frame) : FrameCall → Frame
  | .declare id => f.declare id
  | .mark => f
  | .release mark => f.release mark

/-- What a call answers: the offset of the new local, the mark, or how many locals it releases. -/
def answer (f : Frame) : FrameCall → Int
  | .declare id => (f.declare id).latestOffset.toInt
  | .mark => f.live
  | .release mark => f.beyond mark

/-- Whether every release goes back to a mark that was taken since, or to one of some marks.
Properly nested marks and releases are like this. -/
def releasesOwn (marks : List Nat) (f : Frame) : List FrameCall → Bool
  | [] => true
  | .declare id :: calls => releasesOwn marks (f.declare id) calls
  | .mark :: calls => releasesOwn (f.live :: marks) f calls
  | .release mark :: calls => marks.contains mark && releasesOwn marks (f.release mark) calls

end Frame

/-- A frame with the record of its live declarations. -/
structure Scoping where
  frame : Frame
  /-- The live declarations from the first to the latest, each with the offset that was answered. -/
  declared : List (VarId × Int)
  deriving DecidableEq, Repr

namespace Scoping

/-- A method before its first statement. -/
def ofMethod (m : MethodDecl) : Scoping := ⟨.ofMethod m, []⟩

/-- What is declared after a call. A release keeps as many declarations as its mark counts. -/
def declaredAfter (s : Scoping) : FrameCall → List (VarId × Int)
  | .declare id => s.declared ++ [(id, s.frame.answer (.declare id))]
  | .mark => s.declared
  | .release mark => s.declared.take mark

/-- A call, entered in the record. -/
def step (s : Scoping) (c : FrameCall) : Scoping := ⟨s.frame.afterCall c, s.declaredAfter c⟩

/-- Any calls, one after another. -/
def run (s : Scoping) (calls : List FrameCall) : Scoping := calls.foldl step s

/-- The offsets of all words of a frame: the saved frame base, the return address, the receiver, the
parameters and the live locals. -/
def words (s : Scoping) : List Int :=
  [0, 8] ++ s.frame.receiver?.toList.map (·.toInt) ++
    (List.range s.frame.paramCount).filterMap (fun i ↦ (s.frame.param? i).map (·.toInt)) ++
    s.declared.map Prod.snd

/-- The slots of these words, counted from the frame base. -/
def slots (s : Scoping) : List Int :=
  [0, 1] ++ (if s.frame.hasReceiver then [2] else []) ++
    (List.range s.frame.paramCount).map s.frame.paramSlot ++
    (List.range s.declared.length).map fun k : Nat ↦ (-1 - k : Int)

/-- The frame of a method with every word in its place. -/
structure LaidOut (m : MethodDecl) (s : Scoping) : Prop where
  live : s.frame.live = s.declared.length
  /-- The live locals lie below the frame base in the order of their declarations. -/
  offsets : s.declared.map Prod.snd =
    (List.range s.declared.length).map fun k : Nat ↦ -8 * (k + 1 : Int)
  /-- A name finds its latest live declaration. -/
  lookup : ∀ id, (s.frame.local? id).map (·.toInt) =
    (s.declared.reverse.find? (·.1 == id)).map Prod.snd
  params : ∀ i, (s.frame.param? i).isSome = true ↔ i < m.params.length
  receiver : s.frame.receiver?.isSome = !m.isStatic
  apart : s.words.Pairwise fun a b ↦ a + 8 ≤ b ∨ b + 8 ≤ a

/-- The frame of a method agrees with the record. -/
structure Recorded (m : MethodDecl) (s : Scoping) : Prop where
  hasReceiver : s.frame.hasReceiver = !m.isStatic
  paramCount : s.frame.paramCount = m.params.length
  locals : s.frame.locals = (s.declared.map Prod.fst).reverse
  offsets : ∀ k d, s.declared[k]? = some d → d.2 = (Frame.localOffset k).toInt

section Recorded

variable {m : MethodDecl} {s t : Scoping}

private theorem Recorded.live (h : Recorded m s) : s.frame.live = s.declared.length := by
  rw [Frame.live, h.locals, List.length_reverse, List.length_map]

private theorem recorded_ofMethod (m : MethodDecl) : Recorded m (ofMethod m) :=
  ⟨rfl, rfl, rfl, fun k d h ↦ by cases h⟩

/-- The locals that are left after a release are those of the declarations that are left. -/
theorem Recorded.locals_release (h : Recorded m s) (mark : Nat) :
    (s.frame.release mark).locals = ((s.declared.take mark).map Prod.fst).reverse := by
  rw [Frame.release, Frame.beyond, h.live, h.locals, List.map_take, List.reverse_take,
    List.length_map]

private theorem Recorded.step (h : Recorded m s) (c : FrameCall) : Recorded m (s.step c) := by
  cases c with
  | declare id =>
    refine ⟨h.hasReceiver, h.paramCount, ?_, ?_⟩
    · simp [Scoping.step, declaredAfter, Frame.afterCall, Frame.declare, h.locals]
    · intro k d hd
      simp only [Scoping.step, declaredAfter] at hd
      rcases lt_trichotomy k s.declared.length with hlt | rfl | hgt
      · rw [List.getElem?_append_left hlt] at hd
        exact h.offsets k d hd
      · rw [List.getElem?_concat_length] at hd
        cases hd
        rw [← h.live]
        rfl
      · rw [List.getElem?_eq_none (by simp; omega)] at hd
        cases hd
  | mark => exact h
  | release mark =>
    refine ⟨h.hasReceiver, h.paramCount, h.locals_release mark, fun k d hd ↦ ?_⟩
    rw [Scoping.step, declaredAfter, List.getElem?_take] at hd
    split at hd
    · exact h.offsets k d hd
    · cases hd

private theorem run_append (s : Scoping) (calls later : List FrameCall) :
    s.run (calls ++ later) = (s.run calls).run later := List.foldl_append

private theorem Recorded.run (h : Recorded m s) (calls : List FrameCall) :
    Recorded m (s.run calls) := by
  induction calls generalizing s with
  | nil => exact h
  | cons c calls ih => exact ih (h.step c)

/-- The offsets of the live locals count down by words. -/
theorem Recorded.offsets_eq (h : Recorded m s) (hlive : s.declared.length < 2 ^ 28) :
    s.declared.map Prod.snd =
      (List.range s.declared.length).map fun k : Nat ↦ -8 * (k + 1 : Int) := by
  apply List.ext_getElem
  · simp
  · intro k hk hk'
    rw [List.length_map] at hk
    have hoffset := h.offsets k s.declared[k] (List.getElem?_eq_getElem hk)
    rw [Frame.localOffset_eq (by omega), Int32.toInt_ofInt_of_le (by omega) (by omega)] at hoffset
    rw [List.getElem_map, List.getElem_map, List.getElem_range, hoffset]
    omega

/-- The latest live declaration of a name is the one that the frame finds. -/
theorem Recorded.lookup (h : Recorded m s) (id : VarId) :
    (s.frame.local? id).map (·.toInt) = (s.declared.reverse.find? (·.1 == id)).map Prod.snd := by
  -- The frame counts its locals from the latest, the record counts from the first.
  rw [Frame.local?, h.live, h.locals, ← List.map_reverse, List.findIdx?_map,
    List.find?_eq_bind_findIdx?_getElem?]
  change ((s.declared.reverse.findIdx? (·.1 == id)).map _).map _ = _
  cases hfind : s.declared.reverse.findIdx? (·.1 == id) with
  | none => rfl
  | some above =>
    obtain ⟨hlt, -⟩ := List.findIdx?_eq_some_iff_getElem.mp hfind
    rw [List.length_reverse] at hlt
    have hget : s.declared[s.declared.length - 1 - above]? =
        some s.declared[s.declared.length - 1 - above] := List.getElem?_eq_getElem (by omega)
    rw [Option.bind_some, List.getElem?_reverse hlt, hget]
    exact congrArg some (h.offsets _ _ hget).symm

section Words

variable (hparams : m.params.length < 2 ^ 28 - 4)

include hparams

private theorem Recorded.above_lt (h : Recorded m s) : s.frame.above < 2 ^ 28 := by
  unfold Frame.above
  rw [h.paramCount]
  split <;> omega

private theorem Recorded.param?_eq (h : Recorded m s) {i : Nat} (hi : i < m.params.length) :
    (s.frame.param? i).map (·.toInt) = some (8 * s.frame.paramSlot i) := by
  have habove := h.above_lt hparams
  have hcount := s.frame.paramCount_lt_above
  rw [← h.paramCount] at hi
  obtain ⟨offset, hoffset⟩ : ∃ offset, s.frame.param? i = some offset := by
    rw [Frame.param?, if_pos ⟨hi, by omega⟩]
    exact ⟨_, rfl⟩
  rw [hoffset, (Frame.param?_eq_some hoffset).2]
  apply congrArg some
  apply Int32.toInt_ofInt_of_le
  · unfold Frame.paramSlot
    omega
  · unfold Frame.paramSlot
    omega

private theorem Recorded.params (h : Recorded m s) (i : Nat) :
    (s.frame.param? i).isSome = true ↔ i < m.params.length := by
  constructor
  · intro hsome
    obtain ⟨offset, hoffset⟩ := Option.isSome_iff_exists.mp hsome
    rw [← h.paramCount]
    exact (Frame.param?_eq_some hoffset).1
  · intro hi
    have hparam := h.param?_eq hparams hi
    rw [← Option.isSome_map, hparam]
    rfl

/-- The offsets of the words of a frame are those of their slots. -/
theorem Recorded.words_eq (h : Recorded m s) (hlive : s.declared.length < 2 ^ 28) :
    s.words = s.slots.map (8 * ·) := by
  have hreceiver : s.frame.receiver?.toList.map (·.toInt) =
      (if s.frame.hasReceiver then [2] else []).map ((8 : Int) * ·) := by
    rw [Frame.receiver?]
    split <;> rfl
  have hplaces : (List.range s.frame.paramCount).filterMap
      (fun i ↦ (s.frame.param? i).map (·.toInt)) =
        (List.range s.frame.paramCount).map fun i ↦ 8 * s.frame.paramSlot i := by
    rw [← List.filterMap_eq_map']
    apply List.filterMap_congr
    intro i hi
    rw [List.mem_range, h.paramCount] at hi
    exact h.param?_eq hparams hi
  rw [words, hreceiver, hplaces, h.offsets_eq hlive, slots, List.map_append, List.map_append,
    List.map_append, List.map_map, List.map_map]
  congr 1
  apply List.map_congr_left
  intro k _
  simp only [Function.comp]
  omega

end Words

/-- No two words of a frame have the same slot. -/
theorem nodup_slots (s : Scoping) : s.slots.Nodup := by
  -- Locals lie below zero, parameters above the words that every frame has.
  have hfixed : ∀ a : Int, a ∈ [0, 1] ++ (if s.frame.hasReceiver then [2] else []) →
      0 ≤ a ∧ a < s.frame.above - s.frame.paramCount := by
    unfold Frame.above
    split <;> simp
  have hparam : ∀ a ∈ (List.range s.frame.paramCount).map s.frame.paramSlot,
      (s.frame.above : Int) - s.frame.paramCount ≤ a := by
    intro a ha
    obtain ⟨i, hi, rfl⟩ := List.mem_map.mp ha
    rw [List.mem_range] at hi
    unfold Frame.paramSlot
    omega
  have hlocal : ∀ a ∈ (List.range s.declared.length).map fun k : Nat ↦ (-1 - k : Int), a < 0 := by
    intro a ha
    obtain ⟨k, -, rfl⟩ := List.mem_map.mp ha
    omega
  have habove := s.frame.paramCount_lt_above
  rw [slots, List.nodup_append, List.nodup_append]
  refine ⟨⟨?_, ?_, ?_⟩, ?_, ?_⟩
  · split <;> decide
  · apply List.nodup_range.map
    intro i j hij
    unfold Frame.paramSlot at hij
    omega
  · intro a ha b hb
    have hlt := hfixed a ha
    have hle := hparam b hb
    omega
  · apply List.nodup_range.map
    intro j k hjk
    simp only at hjk
    omega
  · intro a ha b hb
    have hneg := hlocal b hb
    rcases List.mem_append.mp ha with ha | ha
    · have hle := hfixed a ha
      omega
    · have hle := hparam a ha
      omega

/-- After any calls, as long as few enough locals are live, every word is in its place. -/
theorem Recorded.laidOut (h : Recorded m s) (hparams : m.params.length < 2 ^ 28 - 4)
    (hlive : s.declared.length < 2 ^ 28) : LaidOut m s := by
  refine ⟨h.live, h.offsets_eq hlive, h.lookup, h.params hparams, ?_, ?_⟩
  · rw [← h.hasReceiver, Frame.receiver?]
    cases s.frame.hasReceiver <;> rfl
  · rw [h.words_eq hparams hlive, List.pairwise_map]
    apply s.nodup_slots.imp
    intro a b hne
    omega

end Recorded

section Releases

variable {m : MethodDecl} {s t : Scoping}

/-- What was declared at some point is still declared, and only the locals have changed. -/
structure Extends (s t : Scoping) : Prop where
  hasReceiver : t.frame.hasReceiver = s.frame.hasReceiver
  paramCount : t.frame.paramCount = s.frame.paramCount
  declared : s.declared <+: t.declared

private theorem Extends.step (h : Extends s t) {c : FrameCall}
    (hc : ∀ mark, c = .release mark → s.declared.length ≤ mark) : Extends s (t.step c) := by
  cases c with
  | declare id => exact ⟨h.hasReceiver, h.paramCount, h.declared.trans (List.prefix_append _ _)⟩
  | mark => exact h
  | release mark =>
    refine ⟨h.hasReceiver, h.paramCount, ?_⟩
    exact List.prefix_take_iff.mpr ⟨h.declared, hc mark rfl⟩

/-- Releases to marks that were taken since keep what was declared before. -/
theorem Extends.run {calls : List FrameCall} {marks : List Nat} (h : Extends s t)
    (ht : Recorded m t) (hmarks : ∀ mark ∈ marks, s.declared.length ≤ mark)
    (hcalls : t.frame.releasesOwn marks calls = true) : Extends s (t.run calls) := by
  -- A mark that is taken on the way counts all of `s`, so it joins the marks that do.
  induction calls generalizing t marks with
  | nil => exact h
  | cons c calls ih =>
    cases c with
    | declare id => exact ih (h.step nofun) (ht.step _) hmarks hcalls
    | mark =>
      refine ih h ht ?_ hcalls
      intro mark hmark
      rcases List.mem_cons.mp hmark with rfl | hmark
      · rw [ht.live]
        exact h.declared.length_le
      · exact hmarks mark hmark
    | release mark =>
      obtain ⟨hmark, hcalls⟩ := Bool.and_eq_true_iff.mp hcalls
      have hle := hmarks mark (List.contains_iff_mem.mp hmark)
      refine ih (h.step ?_) (ht.step _) hmarks hcalls
      rintro _ ⟨⟩
      exact hle

/-- A release to the mark gives back what there was at the mark. -/
theorem Extends.release (h : Extends s t) (hs : Recorded m s) (ht : Recorded m t) :
    t.step (.release s.frame.live) = s := by
  have hdeclared : t.declared.take s.frame.live = s.declared := by
    rw [hs.live]
    exact (List.prefix_iff_eq_take.mp h.declared).symm
  have hlocals : (t.frame.release s.frame.live).locals = s.frame.locals := by
    rw [ht.locals_release, hdeclared, hs.locals]
  have hframe : t.frame.release s.frame.live = s.frame := by
    calc t.frame.release s.frame.live
      _ = ⟨t.frame.hasReceiver, t.frame.paramCount, (t.frame.release s.frame.live).locals⟩ := rfl
      _ = s.frame := by rw [h.hasReceiver, h.paramCount, hlocals]
  exact congrArg₂ Scoping.mk hframe hdeclared

end Releases

/-- Calls in whatever order keep every word of a frame in its place, and a release to a mark undoes
whatever was called since the mark was taken. -/
theorem slots_of_calls {m : MethodDecl} (hparams : m.params.length < 2 ^ 28 - 4) :
    (∀ calls, ((ofMethod m).run calls).declared.length < 2 ^ 28 →
      LaidOut m ((ofMethod m).run calls)) ∧
    ∀ before between later : List FrameCall,
      ((ofMethod m).run before).frame.releasesOwn [] (.mark :: between) = true →
        ∃ mark : Nat, ((ofMethod m).run before).frame.answer .mark = mark ∧
          ((ofMethod m).run (before ++ .mark :: between)).frame.answer (.release mark) =
            (((ofMethod m).run (before ++ .mark :: between)).declared.drop mark).length ∧
          (ofMethod m).run (before ++ .mark :: (between ++ .release mark :: later)) =
            (ofMethod m).run (before ++ later) := by
  refine ⟨fun calls hlive ↦ ((recorded_ofMethod m).run calls).laidOut hparams hlive, ?_⟩
  intro before between later hbetween
  have hs := (recorded_ofMethod m).run before
  have ht := (recorded_ofMethod m).run (before ++ .mark :: between)
  have hextends : Extends ((ofMethod m).run before)
      ((ofMethod m).run (before ++ .mark :: between)) := by
    rw [run_append]
    exact Extends.run ⟨rfl, rfl, List.prefix_refl _⟩ hs (by simp) hbetween
  refine ⟨((ofMethod m).run before).frame.live, rfl, ?_, ?_⟩
  · rw [List.length_drop, Frame.answer, Frame.beyond, ht.live]
  · have hsplit : before ++ .mark :: (between ++ .release ((ofMethod m).run before).frame.live ::
        later) = (before ++ .mark :: between) ++
          (.release ((ofMethod m).run before).frame.live :: later) := by
      rw [List.append_assoc, List.cons_append]
    calc (ofMethod m).run (before ++ .mark :: (between ++ .release _ :: later))
      _ = (((ofMethod m).run (before ++ .mark :: between)).step (.release _)).run later := by
        rw [hsplit, run_append]
        rfl
      _ = (ofMethod m).run (before ++ later) := by rw [hextends.release hs ht, run_append]

/-- A method of an object with two parameters. -/
def pairMethod : MethodDecl :=
  ⟨"pair", .void, false, false, [⟨"first", .int⟩, ⟨"second", .int⟩], []⟩

/-- Calls with a scope in a scope. A name is declared again while it is live. -/
def nestedCalls : List FrameCall :=
  [.declare ⟨0⟩, .declare ⟨1⟩, .mark, .declare ⟨0⟩, .declare ⟨2⟩, .release 3]

/-- A local that another one of its name shadows, in a scope that is left and entered again. -/
theorem slots_of_calls_shadowed :
    pairMethod.params.length < 2 ^ 28 - 4 ∧
    LaidOut pairMethod ((ofMethod pairMethod).run nestedCalls) ∧
    ∃ mark : Nat, ((ofMethod pairMethod).run [.declare ⟨1⟩]).frame.answer .mark = mark ∧
      ((ofMethod pairMethod).run (.declare ⟨1⟩ :: .mark :: nestedCalls)).frame.answer
          (.release mark) =
        (((ofMethod pairMethod).run (.declare ⟨1⟩ :: .mark :: nestedCalls)).declared.drop
          mark).length ∧
      (ofMethod pairMethod).run
          (.declare ⟨1⟩ :: .mark :: (nestedCalls ++ .release mark :: nestedCalls)) =
        (ofMethod pairMethod).run (.declare ⟨1⟩ :: nestedCalls) :=
  ⟨by decide, (slots_of_calls (by decide)).1 nestedCalls (by decide),
    (slots_of_calls (by decide)).2 [.declare ⟨1⟩] nestedCalls nestedCalls (by decide)⟩

end Scoping

end NativeBackend
