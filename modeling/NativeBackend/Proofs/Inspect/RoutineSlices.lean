import NativeBackend.Inspect.Routines
import NativeBackend.Proofs.Linking.EntryPoint
import NativeBackend.Proofs.Linking.Unresolved
import NativeBackend.Proofs.Storage.Loads
import NativeBackend.Proofs.Streams.Edits

/-!
# Code cut into routines

A name stands for the offset of the latest routine that has it, and its slice of the code goes up
to the next offset that any name stands for. However many routines share a name, the slices
of all names in the order of their offsets are the whole code: the code of a routine whose name
was taken over belongs to the slice before it.
-/

namespace NativeBackend

open Machine NativeBackend.Tree

/-- The names of code with the offset each stands for, in the order of the offsets. -/
def Code.namesByStart (code : Code) : List (String × Nat) :=
  code.routines.toList.mergeSort fun x y ↦ decide (x.2 ≤ y.2)

/-- The instructions from an offset up to the next one that a name stands for. -/
def Code.sliceFrom (code : Code) (start : Nat) : List Emitted :=
  code.stream.entries.toList.filter fun e ↦ code.isWithin start e.start

/-- The instruction at an offset and the one behind it open a frame. -/
def Code.OpensFrame (code : Code) (start : Nat) : Prop :=
  ∃ before e e' after, code.stream.entries.toList = before ++ e :: e' :: after ∧
    e.start = start ∧ [e.instruction, e'.instruction] = Builtin.prologue

/-- The slices of the names of a program cut its code into pieces. -/
structure CutIntoSlices (p : Program) (code : Code) : Prop where
  /-- The names are those of the built-in routines and of the routines of the program. -/
  names : ∀ name, (∃ start, (name, start) ∈ code.routines.toList) ↔ name ∈ Source.routineNames p
  distinct : (code.routines.toList.map Prod.snd).Nodup
  begins : ∀ name start, (name, start) ∈ code.routines.toList →
    ∃ e ∈ code.stream.entries.toList, e.start = start
  least : (code.routines.toList.map Prod.snd).min? = some 0
  /-- Every name has a slice, and the slices one after the other are all instructions. -/
  whole : ∃ slices, (code.namesByStart.map Prod.fst).mapM code.routineInstructions? = some slices ∧
    slices.flatten = code.stream.instructions
  opens : ∀ r ∈ p.routines, ∃ start, code.routines.start? r.name = some start ∧
    code.OpensFrame start
  /-- So does a routine whose name was taken over, where its own code begins. -/
  opensAll : ∀ j r, p.routines[j]? = some r →
    ∃ start, code.begun[Builtin.routines.length + j]? = some (r.name, start) ∧
      code.OpensFrame start

section Cuts

variable {es : List Emitted} {next : Nat → Option Nat}

private theorem filter_cut {s t : Nat} (hst : s < t) (hes : es.Pairwise (·.start < ·.start)) :
    es.filter (fun e ↦ decide (s ≤ e.start) && decide (e.start < t)) ++
      es.filter (fun e ↦ decide (t ≤ e.start)) = es.filter fun e ↦ decide (s ≤ e.start) := by
  induction es with
  | nil => rfl
  | cons e es ih =>
    obtain ⟨hlater, hrest⟩ := List.pairwise_cons.mp hes
    rcases Nat.lt_or_ge e.start t with hlt | hge
    · by_cases hs : s ≤ e.start
      · simpa [hs, hlt] using ih hrest
      · simpa [hs, Nat.not_le.mpr hlt] using ih hrest
    · -- nothing before the cut is left
      have hnone : es.filter (fun e ↦ decide (s ≤ e.start) && decide (e.start < t)) = [] := by
        refine List.filter_eq_nil_iff.mpr fun e' he' ↦ ?_
        have := hlater e' he'
        simp only [Bool.and_eq_true, decide_eq_true_eq, not_and, Nat.not_lt]
        omega
      have htail := ih hrest
      rw [hnone, List.nil_append] at htail
      have hs : s ≤ e.start := by omega
      simp [hs, hge, Nat.not_lt.mpr hge, hnone, htail]

-- Between offsets that increase, and from the last one on, lie all instructions from the first
-- offset on.
private theorem flatten_cuts {s : Nat} {ss : List Nat} (hss : (s :: ss).Pairwise (· < ·))
    (hnext : ∀ t ts, t :: ts <:+ s :: ss → next t = ts.head?)
    (hes : es.Pairwise (·.start < ·.start)) :
    ((s :: ss).map fun t ↦ es.filter fun e ↦
        decide (t ≤ e.start) && (next t).all (e.start < ·)).flatten =
      es.filter fun e ↦ decide (s ≤ e.start) := by
  induction ss generalizing s with
  | nil => simp [hnext s [] List.suffix_rfl]
  | cons t ss ih =>
    obtain ⟨hlater, htail⟩ := List.pairwise_cons.mp hss
    rw [List.map_cons, List.flatten_cons,
      ih htail fun u us hsuffix ↦ hnext u us (hsuffix.trans (List.suffix_cons s _)),
      hnext s _ List.suffix_rfl]
    exact filter_cut (hlater t List.mem_cons_self) hes

end Cuts

section Table

variable {t : RoutineTable} {code : Code} {name : String} {start : Nat}

private theorem RoutineTable.mem_toList : (name, start) ∈ t.toList ↔ t.start? name = some start :=
  by
  rw [toList, List.mem_filterMap]
  constructor
  · rintro ⟨name', -, h⟩
    obtain ⟨start', hstart', heq⟩ := Option.map_eq_some_iff.mp h
    cases heq
    exact hstart'
  · intro h
    refine ⟨name, ?_, by rw [h]; rfl⟩
    obtain ⟨before, after, hsplit, -⟩ := List.lookup_eq_some_iff.mp h
    rw [names, List.mem_mergeSort, List.mem_eraseDups, hsplit]
    simp

private theorem Code.exists_latest (h : code.routines.start? name = some start) :
    ∃ k : Nat, code.begun[k]? = some (name, start) ∧
      ∀ (k' : Nat) start', code.begun[k']? = some (name, start') → k' ≤ k := by
  obtain ⟨later, earlier, hsplit, hlater⟩ := List.lookup_eq_some_iff.mp h
  have hbegun : code.begun = earlier.reverse ++ (name, start) :: later.reverse := by
    rw [Code.begun, hsplit, List.reverse_append, List.reverse_cons, List.append_assoc]
    rfl
  refine ⟨earlier.length, by simp [hbegun], fun k' start' hk' ↦ ?_⟩
  by_contra! hlt
  rw [hbegun, List.getElem?_append_right (by simpa using hlt.le), List.length_reverse,
    show k' - earlier.length = k' - earlier.length - 1 + 1 by omega,
    List.getElem?_cons_succ] at hk'
  have hmem := hlater _ (List.mem_reverse.mp (List.mem_of_getElem? hk'))
  simp at hmem

private theorem Code.exists_start (h : name ∈ code.begun.map Prod.fst) :
    ∃ start, code.routines.start? name = some start := by
  refine Option.ne_none_iff_exists'.mp fun hnone ↦ ?_
  rw [RoutineTable.start?, lookup_eq_none_iff] at hnone
  rw [Code.begun, List.map_reverse, List.mem_reverse] at h
  exact hnone h

end Table

section Order

variable {code : Code}

private theorem Code.mem_namesByStart {x : String × Nat} :
    x ∈ code.namesByStart ↔ code.routines.start? x.1 = some x.2 := by
  rw [namesByStart, List.mem_mergeSort, RoutineTable.mem_toList]

private theorem Code.pairwise_namesByStart (hdistinct : (code.routines.toList.map Prod.snd).Nodup) :
    (code.namesByStart.map Prod.snd).Pairwise (· < ·) := by
  have hsorted : code.namesByStart.Pairwise fun x y ↦ decide (x.2 ≤ y.2) :=
    List.pairwise_mergeSort (by grind) (by grind) _
  have hnodup : (code.namesByStart.map Prod.snd).Nodup :=
    ((List.mergeSort_perm _ _).map Prod.snd).nodup_iff.mpr hdistinct
  rw [List.pairwise_map]
  refine (hsorted.and (List.pairwise_map.mp hnodup)).imp fun h ↦ ?_
  exact Nat.lt_of_le_of_ne (of_decide_eq_true h.1) h.2

private theorem Code.nextStart?_eq {s : Nat} {ss : List Nat}
    (hsorted : (code.namesByStart.map Prod.snd).Pairwise (· < ·))
    (hsuffix : s :: ss <:+ code.namesByStart.map Prod.snd) : code.nextStart? s = ss.head? := by
  obtain ⟨before, hsplit⟩ := hsuffix
  rw [← hsplit, List.pairwise_append] at hsorted
  obtain ⟨-, hrest, hbefore⟩ := hsorted
  obtain ⟨hss, hsorted⟩ := List.pairwise_cons.mp hrest
  have hafter : ∀ t, t ∈ (code.routines.toList.map Prod.snd).filter (s < ·) ↔ t ∈ ss := by
    intro t
    have hperm : (code.namesByStart.map Prod.snd).Perm (code.routines.toList.map Prod.snd) :=
      (List.mergeSort_perm _ _).map Prod.snd
    rw [List.mem_filter, decide_eq_true_eq, ← hperm.mem_iff, ← hsplit, List.mem_append,
      List.mem_cons]
    constructor
    · rintro ⟨ht | rfl | ht, hlt⟩
      · have := hbefore t ht s List.mem_cons_self
        omega
      · omega
      · exact ht
    · exact fun ht ↦ ⟨.inr (.inr ht), hss t ht⟩
  rw [nextStart?]
  cases ss with
  | nil =>
    rw [List.head?_nil, List.min?_eq_none_iff]
    exact List.eq_nil_iff_forall_not_mem.mpr fun t ht ↦ List.not_mem_nil ((hafter t).mp ht)
  | cons u us =>
    rw [List.head?_cons, List.min?_eq_some_iff]
    refine ⟨(hafter u).mpr List.mem_cons_self, fun t ht ↦ ?_⟩
    rcases List.mem_cons.mp ((hafter t).mp ht) with rfl | ht
    · exact le_rfl
    · exact ((List.pairwise_cons.mp hsorted).1 t ht).le

private theorem mapM_eq_some_map {α β : Type} {f : α → Option β} {g : α → β} {xs : List α}
    (h : ∀ x ∈ xs, f x = some (g x)) : xs.mapM f = some (xs.map g) := by
  induction xs with
  | nil => rfl
  | cons x xs ih =>
    obtain ⟨hx, hxs⟩ := List.forall_mem_cons.mp h
    rw [List.mapM_cons, hx, ih hxs]
    rfl

-- The names stand for different offsets, zero among them, so their slices make up the code.
private theorem Code.exists_slices
    (horder : code.stream.entries.toList.Pairwise (·.start < ·.start))
    (hdistinct : (code.routines.toList.map Prod.snd).Nodup)
    (hzero : 0 ∈ code.routines.toList.map Prod.snd) :
    ∃ slices, (code.namesByStart.map Prod.fst).mapM code.routineInstructions? = some slices ∧
      slices.flatten = code.stream.instructions := by
  have hsorted := Code.pairwise_namesByStart hdistinct
  have hslices : code.namesByStart.mapM (fun x ↦ code.routineInstructions? x.1) =
      some (code.namesByStart.map fun x ↦ (code.sliceFrom x.2).map Emitted.instruction) := by
    refine mapM_eq_some_map fun x hx ↦ ?_
    rw [routineInstructions?, Code.mem_namesByStart.mp hx]
    rfl
  refine ⟨_, by rw [List.mapM_map]; exact hslices, ?_⟩
  have hflatten : ((code.namesByStart.map Prod.snd).map code.sliceFrom).flatten =
      code.stream.entries.toList := by
    have hzero' : 0 ∈ code.namesByStart.map Prod.snd :=
      ((List.mergeSort_perm _ _).map Prod.snd).mem_iff.mpr hzero
    cases hstarts : code.namesByStart.map Prod.snd with
    | nil =>
      rw [hstarts] at hzero'
      cases hzero'
    | cons s ss =>
      rw [hstarts] at hzero' hsorted
      have hs : s = 0 := by
        rcases List.mem_cons.mp hzero' with h | h
        · exact h.symm
        · have := (List.pairwise_cons.mp hsorted).1 0 h
          omega
      refine (flatten_cuts hsorted (fun t ts hsuffix ↦ ?_) horder).trans (by simp [hs])
      exact Code.nextStart?_eq (hstarts ▸ hsorted) (hstarts ▸ hsuffix)
  calc (code.namesByStart.map fun x ↦ (code.sliceFrom x.2).map Emitted.instruction).flatten
      = (((code.namesByStart.map Prod.snd).map code.sliceFrom).flatten).map
          Emitted.instruction := by
        rw [List.map_flatten, List.map_map, List.map_map]
        rfl
    _ = code.stream.instructions := by rw [hflatten, CodeStream.instructions]

end Order

section Routines

variable {p : Program} {main : Routine} {code : Code} {base : UInt64} {parts : List Part}
  {k start : Nat} {name : String}

private theorem Linked.exists_first (h : Linked code base parts)
    (hsources : sources parts = routineSteps p main)
    (hbegun : code.begun[k]? = some (name, start)) :
    ∃ e ∈ code.stream.entries.toList, e.start = start := by
  obtain ⟨q, hq, rfl, hsteps⟩ := h.part hsources hbegun
  obtain ⟨i, steps, hframe⟩ := exists_frame_cons p main _ (List.mem_of_getElem? hsteps)
  have hassembled : Assembled q.start (.frame i :: steps) q.marks := hframe ▸ q.assembled
  have hmarks : ∃ m ∈ q.marks, m.entry.start = q.start := by
    generalize q.marks = ms at hassembled
    cases hassembled with
    | frame _ _ => exact ⟨_, List.mem_cons_self, rfl⟩
  obtain ⟨m, hm, hstart⟩ := hmarks
  refine ⟨m.entry, ?_, hstart⟩
  rw [h.entries]
  exact List.mem_map_of_mem (List.mem_flatMap.mpr ⟨q, List.mem_of_getElem? hq, hm⟩)

private theorem Linked.opensFrame {j : Nat} (h : Linked code base parts)
    (hsources : sources parts = routineSteps p main)
    (hbegun : code.begun[Builtin.routines.length + j]? = some (name, start)) :
    code.OpensFrame start := by
  obtain ⟨q, r, hq, rfl, -, hsteps⟩ := h.declared_part hsources hbegun
  obtain ⟨e, e', es, hmarks, hstart, hprologue⟩ := (hsteps ▸ q.assembled).prologue
  have hsplit := eq_take_append_cons hq
  rw [Code.OpensFrame, h.entries, hsplit, allMarks_append_cons, List.map_append, List.map_append,
    hmarks]
  exact ⟨_, e, e', _, rfl, hstart, hprologue⟩

private theorem name_ne_allocateName (r : Routine) : r.name ≠ Builtin.allocateName := by
  intro h
  have hdot : '.' ∈ r.name.toList := by simp [Routine.name, routineName]
  rw [h] at hdot
  exact absurd hdot (by decide)

-- The routine that allocates is the first one, and its name is never taken over.
private theorem Linked.start?_allocate (h : Linked code base parts)
    (hsources : sources parts = routineSteps p main) :
    code.routines.start? Builtin.allocateName = some 0 := by
  have hnames := h.begun_names hsources
  have hbegun : Builtin.allocateName ∈ code.begun.map Prod.fst := hnames ▸ List.mem_cons_self
  obtain ⟨start, hstart⟩ := Code.exists_start hbegun
  obtain ⟨k, hk, -⟩ := Code.exists_latest hstart
  have hk' : (Source.routineNames p)[k]? = some Builtin.allocateName := by
    rw [← hnames, List.getElem?_map, hk]
    rfl
  have hzero : k = 0 := by
    match k, hk' with
    | 0, _ => rfl
    | 1, hk' => exact absurd (Option.some.inj hk') (by decide)
    | k + 2, hk' =>
      have hmem : Builtin.allocateName ∈ p.routines.map Routine.name := List.mem_of_getElem? hk'
      obtain ⟨r, -, hr⟩ := List.mem_map.mp hmem
      exact absurd hr (name_ne_allocateName r)
  obtain ⟨q, hq, rfl, -⟩ := h.part hsources hk
  rw [hzero] at hq
  cases hparts : parts with
  | nil => rw [hparts] at hq; cases hq
  | cons q' parts' =>
    rw [hparts] at hq
    cases hq
    have hcontiguous := h.contiguous
    rw [hparts] at hcontiguous
    rw [hstart, hcontiguous.1]

private theorem Linked.nodup_starts (h : Linked code base parts)
    (hsources : sources parts = routineSteps p main) :
    (code.routines.toList.map Prod.snd).Nodup := by
  have hnames : code.routines.names.Nodup :=
    (List.mergeSort_perm _ _).nodup_iff.mpr (nodup_eraseDups _)
  have hpairs : code.routines.toList.Nodup := by
    refine hnames.filterMap fun name name' x hx hx' ↦ ?_
    obtain ⟨start, -, rfl⟩ := Option.map_eq_some_iff.mp hx
    obtain ⟨start', -, hsame⟩ := Option.map_eq_some_iff.mp hx'
    exact (congrArg Prod.fst hsame).symm
  refine hpairs.map_on ?_
  rintro ⟨name, start⟩ hx ⟨name', start'⟩ hy (rfl : start = start')
  obtain ⟨k, hk, -⟩ := Code.exists_latest (RoutineTable.mem_toList.mp hx)
  obtain ⟨k', hk', -⟩ := Code.exists_latest (RoutineTable.mem_toList.mp hy)
  cases h.start_injective hsources hk hk'
  exact Option.some.inj (hk.symm.trans hk')

end Routines

/-- The slices of the names of generated code with an entry cut it into pieces. -/
theorem cutIntoSlices_of_generate {p : Program} {o : Options} {code : Code} {entry : Nat}
    (hcode : (generate p o).result = .ok code) (hentry : code.entry = some entry) :
    CutIntoSlices p code := by
  obtain ⟨main, hmain⟩ := exists_entryCandidates hcode hentry
  obtain ⟨parts, hsources, hlinked, -⟩ := exists_linked hmain hcode
  have hnames := hlinked.begun_names hsources
  have hdistinct := hlinked.nodup_starts hsources
  have hzero : 0 ∈ code.routines.toList.map Prod.snd :=
    List.mem_map.mpr ⟨_, RoutineTable.mem_toList.mpr (hlinked.start?_allocate hsources), rfl⟩
  have hopens : ∀ j r, p.routines[j]? = some r →
      ∃ start, code.begun[Builtin.routines.length + j]? = some (r.name, start) ∧
        code.OpensFrame start := by
    intro j r hr
    have hname : (code.begun.map Prod.fst)[Builtin.routines.length + j]? = some r.name := by
      rw [hnames, Nat.add_comm]
      exact List.getElem?_map.trans (congrArg (Option.map Routine.name) hr)
    rw [List.getElem?_map, Option.map_eq_some_iff] at hname
    obtain ⟨⟨_, start⟩, hbegun, rfl⟩ := hname
    exact ⟨start, hbegun, hlinked.opensFrame hsources hbegun⟩
  refine ⟨fun name ↦ ?_, hdistinct, fun name start hmem ↦ ?_, ?_, ?_, fun r hr ↦ ?_, hopens⟩
  · simp only [RoutineTable.mem_toList, ← hnames]
    constructor
    · rintro ⟨start, hstart⟩
      obtain ⟨k, hk, -⟩ := Code.exists_latest hstart
      exact List.mem_map.mpr ⟨_, List.mem_of_getElem? hk, rfl⟩
    · exact Code.exists_start
  · obtain ⟨k, hk, -⟩ := Code.exists_latest (RoutineTable.mem_toList.mp hmem)
    exact hlinked.exists_first hsources hk
  · exact List.min?_eq_some_iff.mpr ⟨hzero, fun _ _ ↦ Nat.zero_le _⟩
  · exact Code.exists_slices hlinked.inOrder.pairwise_start hdistinct hzero
  · -- the latest routine of the name is not before this one, so it is one of the program
    obtain ⟨j, hj⟩ := List.getElem?_of_mem hr
    obtain ⟨own, hown, -⟩ := hopens j r hj
    obtain ⟨start, hstart⟩ := Code.exists_start
      (List.mem_map.mpr ⟨_, List.mem_of_getElem? hown, rfl⟩)
    obtain ⟨k, hk, hlatest⟩ := Code.exists_latest hstart
    obtain ⟨i, rfl⟩ := Nat.exists_eq_add_of_le ((Nat.le_add_right _ j).trans (hlatest _ _ hown))
    exact ⟨start, hstart, hlinked.opensFrame hsources hk⟩

/-- A program in which two methods share a name, and a third has the name of the built-in routine
that prints. -/
def takenNamesProgram : Program :=
  let args : Parameter := ⟨"args", .array (.object "String")⟩
  let print : Statement := .call .println [.literal (.int 65)]
  ⟨[⟨"Main", [],
    [⟨"show", .void, true, false, [], [print]⟩,
    ⟨"show", .void, true, false, [⟨"n", .int⟩], []⟩,
    ⟨"main", .void, true, false, [args], [.call (.method ⟨0, 0⟩) [], print]⟩]⟩,
  ⟨"System.out", [], [⟨"println", .void, true, false, [⟨"n", .int⟩], []⟩]⟩]⟩

/-- Two of its six routines have no slice of their own. -/
theorem cutIntoSlices_takenNames :
    ∃ code entry, (generate takenNamesProgram {}).result = .ok code ∧ code.entry = some entry ∧
      code.begun = [("_alloc", 0), ("System.out.println", 44), ("Main.show", 80),
        ("Main.show", 106), ("Main.main", 115), ("System.out.println", 153)] ∧
      CutIntoSlices takenNamesProgram code := by
  have hfacts : (generate takenNamesProgram {}).result.toOption.map (fun code ↦
      (code.entry.isSome, code.begun)) =
      some (true, [("_alloc", 0), ("System.out.println", 44), ("Main.show", 80),
        ("Main.show", 106), ("Main.main", 115), ("System.out.println", 153)]) := by
    decide +kernel
  obtain ⟨code, hcode, hvalues⟩ := exists_ok_of_map hfacts
  obtain ⟨hsome, hbegun⟩ := Prod.mk.inj hvalues
  obtain ⟨entry, hentry⟩ := Option.isSome_iff_exists.mp hsome
  exact ⟨code, entry, hcode, hentry, hbegun, cutIntoSlices_of_generate hcode hentry⟩

end NativeBackend
