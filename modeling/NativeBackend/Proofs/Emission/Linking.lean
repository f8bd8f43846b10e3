import NativeBackend.Proofs.Emission.StaticAddresses

/-!
# Linking

Code as a list of routines, each with the marked instructions its steps became. A call
is aimed when it is emitted, if a routine of its name has started, and otherwise when
one starts. `Built` is what holds of code in the making all the way: every call that
can be aimed leads where `resolve?` says, and exactly the other calls wait.
-/

namespace NativeBackend

open Machine

/-- A routine in the code. -/
structure Part where
  name : String
  steps : List Step
  start : Nat
  marks : List Marked
  assembled : Assembled start steps marks

/-- The marked instructions of routines in order. -/
def allMarks (parts : List Part) : List Marked := parts.flatMap Part.marks

/-- An instruction of routines in order is one of some routine. -/
theorem exists_part_of_mem {parts : List Part} {m : Marked} (h : m ∈ allMarks parts) :
    ∃ (k : Nat) (q : Part), parts[k]? = some q ∧ m ∈ q.marks := by
  obtain ⟨q, hq, hm⟩ := List.mem_flatMap.mp h
  obtain ⟨k, hk⟩ := List.mem_iff_getElem?.mp hq
  exact ⟨k, q, hk, hm⟩

/-- The names and offsets of routines in order. -/
def starts (parts : List Part) : List (String × Nat) := parts.map fun q ↦ (q.name, q.start)

/-- Routines lie one right after the other from an offset on. -/
def Contiguous : Nat → List Part → Prop
  | _, [] => True
  | o, q :: qs => q.start = o ∧ Contiguous (o + extent q.marks) qs

/-- Where a call of a name inside a routine leads, given all routines in order and the position of
that one: to the latest routine of the name up to that one, or else to the first one after it. -/
def resolve? (routines : List (String × Nat)) (position : Nat) (name : String) : Option Nat :=
  ((routines.take (position + 1)).reverse.lookup name).or
    ((routines.drop (position + 1)).lookup name)

/-- How an instruction of a routine is aimed, given the routines so far and the addresses of static
words. -/
def Aimed (routines : List (String × Nat)) (address : Int32 → UInt64) (position : Nat)
    (m : Marked) : Prop :=
  match m.purpose with
  | .plain => True
  | .call name =>
    match resolve? routines position name with
    | some target => Instruction.callTo m.entry.start target = .ok m.entry.instruction
    | none => m.entry = callAt m.entry.start 0
  | .static offset => m.entry = loadAt m.entry.start (address offset)

/-- Code in the making consists of routines. No static word has an address yet. -/
structure Built (a : Assembly) (parts : List Part) : Prop where
  entries : a.stream.entries.toList = (allMarks parts).map Marked.entry
  size : a.stream.size = extent (allMarks parts)
  started : a.routines.started = (starts parts).reverse
  contiguous : Contiguous 0 parts
  pending : a.pending.waiting = waitingCalls a.routines 0 (allMarks parts)
  loads : a.staticLoads.toList = staticLoads 0 (allMarks parts)
  aimed : ∀ k q, parts[k]? = some q → ∀ m ∈ q.marks, Aimed (starts parts) (fun _ ↦ 0) k m
  unreported : a.reporter = .empty

/-- A change to marked instructions that leaves everything but distances of calls and static
addresses. -/
structure Relinks (f : Marked → Marked) : Prop where
  plain : ∀ i o bs, f (.plain i o bs) = .plain i o bs
  call : ∀ o d name, ∃ d', f ⟨callAt o d, .call name⟩ = ⟨callAt o d', .call name⟩
  static : ∀ o v offset, ∃ v', f ⟨loadAt o v, .static offset⟩ = ⟨loadAt o v', .static offset⟩

private theorem Assembled.relink {f : Marked → Marked} (hf : Relinks f) {o : Nat}
    {steps : List Step} {ms : List Marked} (h : Assembled o steps ms) :
    Assembled o steps (ms.map f) ∧ extent (ms.map f) = extent ms := by
  induction h with
  | nil => exact ⟨.nil, rfl⟩
  | emit encoded _ ih =>
    rw [List.map_cons, hf.plain, extent_cons, extent_cons, ih.2]
    exact ⟨.emit encoded ih.1, rfl⟩
  | frame encoded _ ih =>
    rw [List.map_cons, hf.plain, extent_cons, extent_cons, ih.2]
    exact ⟨.frame encoded ih.1, rfl⟩
  | call _ ih =>
    obtain ⟨d', hd⟩ := hf.call _ _ _
    rw [List.map_cons, hd, extent_cons, extent_cons, ih.2]
    exact ⟨.call ih.1, rfl⟩
  | staticAddress _ ih =>
    obtain ⟨v', hv⟩ := hf.static _ _ _
    rw [List.map_cons, hv, extent_cons, extent_cons, ih.2]
    exact ⟨.staticAddress ih.1, rfl⟩
  | undeclared _ ih => exact ⟨.undeclared ih.1, ih.2⟩
  | settle _ ih => exact ⟨.settle ih.1, ih.2⟩
  | when encoded _ aimed _ ihbody ih =>
    simp only [List.map_cons, List.map_append, hf.plain, extent_cons, extent_append, ih.2,
      ihbody.2, and_true]
    rw [← ihbody.2] at aimed ih
    exact .when encoded ihbody.1 aimed ih.1
  | choose encoded _ encoded' start_eq _ aimed aimed' _ ihyes ihno ih =>
    simp only [List.map_cons, List.map_append, hf.plain, extent_cons, extent_append, ih.2,
      ihyes.2, ihno.2, and_true]
    rw [← ihyes.2] at start_eq aimed' ⊢
    rw [← ihno.2] at aimed' ih
    exact .choose encoded ihyes.1 encoded' start_eq ihno.1 aimed aimed' ih.1
  | loop _ test_eq encoded _ stop_eq aimed' encoded' aimed _ ihcond ihbody ih =>
    simp only [List.map_cons, List.map_append, hf.plain, extent_cons, extent_append, ih.2,
      ihcond.2, ihbody.2, and_true]
    rw [← ihcond.2] at test_eq
    rw [← ihbody.2] at stop_eq
    exact .loop ihcond.1 test_eq encoded ihbody.1 stop_eq aimed' encoded' aimed ih.1

private theorem relinks_id : Relinks id :=
  ⟨fun _ _ _ ↦ rfl, fun _ d _ ↦ ⟨d, rfl⟩, fun _ v _ ↦ ⟨v, rfl⟩⟩

/-- Filling in static addresses keeps instructions in their places. -/
theorem relinks_filled (base : UInt64) : Relinks (Marked.filled base) :=
  ⟨fun _ _ _ ↦ rfl, fun _ d _ ↦ ⟨d, rfl⟩, fun _ _ _ ↦ ⟨_, rfl⟩⟩

/-- The distance of a call. -/
def callDistance (origin target : Nat) : Int32 :=
  Int32.ofInt ((target : Int) - endOffset origin Instruction.callLength)

/-- An instruction aimed at a routine that starts, if it is there to call it. -/
def Marked.aimedAt (name : String) (target : Nat) (m : Marked) : Marked :=
  if m.purpose = .call name then
    { m with entry := callAt m.entry.start (callDistance m.entry.start target) }
  else m

private theorem relinks_aimedAt (name : String) (target : Nat) :
    Relinks (Marked.aimedAt name target) := by
  refine ⟨fun _ _ _ ↦ rfl, fun o d name' ↦ ?_, fun _ v _ ↦ ⟨v, rfl⟩⟩
  by_cases h : name' = name
  · exact ⟨_, if_pos (congrArg Purpose.call h)⟩
  · exact ⟨d, if_neg fun hp ↦ h (Purpose.call.inj hp)⟩

@[simp] private theorem Marked.purpose_aimedAt (name : String) (target : Nat) (m : Marked) :
    (m.aimedAt name target).purpose = m.purpose := by
  unfold aimedAt
  split <;> rfl

@[simp] private theorem Marked.start_aimedAt (name : String) (target : Nat) (m : Marked) :
    (m.aimedAt name target).entry.start = m.entry.start := by
  unfold aimedAt
  split <;> rfl

/-- A call that can be aimed has its distance. -/
theorem callTo_eq_callDistance {origin target : Nat} {i : Instruction}
    (h : Instruction.callTo origin target = .ok i) : i = .call (callDistance origin target) := by
  obtain ⟨d, hd, rfl⟩ := callTo_eq_ok h
  obtain ⟨-, -, hd, -⟩ := distance_eq_ok hd
  rw [hd]
  rfl

private theorem sitesOf_waitingCalls_cons {t : RoutineTable} {name : String}
    (ht : t.start? name = none) (index : Nat) (m : Marked) (ms : List Marked) :
    PendingCalls.sitesOf ⟨waitingCalls t index (m :: ms)⟩ name =
      (if m.purpose = .call name then [⟨index, m.entry.start⟩] else []) ++
        PendingCalls.sitesOf ⟨waitingCalls t (index + 1) ms⟩ name := by
  simp only [PendingCalls.sitesOf, waitingCalls_cons, List.filter_append, List.map_append]
  congr 1
  cases hp : m.purpose with
  | plain => simp [Marked.waiting?, hp]
  | static offset => simp [Marked.waiting?, hp]
  | call name' =>
    by_cases h : name' = name
    · simp [Marked.waiting?, hp, h, ht]
    · have h' : ¬ Purpose.call name' = .call name := fun hc ↦ h (Purpose.call.inj hc)
      rw [if_neg h']
      by_cases hs : (t.start? name').isSome <;> simp [Marked.waiting?, hp, h, hs]

/-- Aiming all calls of a name, in code that stands after other code. -/
theorem runs_retargetAll {name : String} {target : Nat} {t : RoutineTable}
    (ht : t.start? name = none) (before : List Emitted) (ms : List Marked) {a b : Assembly}
    {u : Unit} (hcalls : ∀ m ∈ ms, m.purpose = .call name → m.entry = callAt m.entry.start 0)
    (ha : a.stream.entries.toList = before ++ ms.map Marked.entry)
    (h : Runs (Assemble.retargetAll target
      (PendingCalls.sitesOf ⟨waitingCalls t before.length ms⟩ name)) a u b) :
    (∀ m ∈ ms, m.purpose = .call name → Instruction.callTo m.entry.start target =
        .ok (.call (callDistance m.entry.start target))) ∧
      ∃ log, b = { a with
        stream := ⟨(before ++ (ms.map (Marked.aimedAt name target)).map Marked.entry).toArray,
          a.stream.size⟩
        log } := by
  induction ms generalizing a before with
  | nil =>
    refine ⟨fun m hm ↦ (List.not_mem_nil hm).elim, a.log, ?_⟩
    have hs : a.stream = ⟨(before ++ []).toArray, a.stream.size⟩ := by
      rw [← List.map_nil, ← ha]
    rw [List.map_nil, List.map_nil, ← hs]
    exact (Runs.pure_iff.mp h).2
  | cons m ms ih =>
    obtain ⟨hm, hms⟩ := List.forall_mem_cons.mp hcalls
    -- The head joins the code before, as it is or aimed.
    have next : ∀ {c : Assembly}, c.stream.entries.toList =
        before ++ (m.aimedAt name target).entry :: ms.map Marked.entry →
        Runs (Assemble.retargetAll target
          (PendingCalls.sitesOf ⟨waitingCalls t (before.length + 1) ms⟩ name)) c u b →
        (∀ m ∈ ms, m.purpose = .call name → Instruction.callTo m.entry.start target =
          .ok (.call (callDistance m.entry.start target))) ∧
        ∃ log, b = { c with
          stream := ⟨(before ++ ((m :: ms).map (Marked.aimedAt name target)).map
            Marked.entry).toArray, c.stream.size⟩
          log } := by
      intro c hc hrun
      have hc' : c.stream.entries.toList =
          (before ++ [(m.aimedAt name target).entry]) ++ ms.map Marked.entry := by
        rw [hc, List.append_assoc]
        rfl
      have hlength : before.length + 1 = (before ++ [(m.aimedAt name target).entry]).length := by
        simp
      rw [hlength] at hrun
      simpa using ih (before ++ [(m.aimedAt name target).entry]) hms hc' hrun
    rw [sitesOf_waitingCalls_cons ht] at h
    by_cases hp : m.purpose = .call name
    · rw [if_pos hp] at h
      obtain ⟨_, c, hr, hrest⟩ := Runs.bind_iff.mp h
      obtain ⟨e, i, stream, log, hget, hi, hpatch, rfl⟩ := Assemble.runs_retarget hr
      rw [CodeStream.get?_of_split ha] at hget
      cases hget
      have hcall : Instruction.callTo m.entry.start target = .ok i := by
        rw [hm hp] at hi
        exact hi
      obtain rfl := callTo_eq_callDistance hcall
      obtain ⟨bs, hbs, -, rfl⟩ := (CodeStream.patch_iff ha).mp hpatch
      cases hbs
      have haimed : (m.aimedAt name target).entry =
          ⟨.call (callDistance m.entry.start target), m.entry.start,
            0xE8 :: dwordBytes (callDistance m.entry.start target)⟩ := by
        rw [Marked.aimedAt, if_pos hp]
        rfl
      obtain ⟨hothers, log', rfl⟩ := next (by rw [haimed]) hrest
      exact ⟨List.forall_mem_cons.mpr ⟨fun _ ↦ hcall, hothers⟩, log', rfl⟩
    · rw [if_neg hp] at h
      obtain ⟨hcall, hb⟩ := next (by rw [ha, Marked.aimedAt, if_neg hp]; rfl) h
      exact ⟨List.forall_mem_cons.mpr ⟨fun hp' ↦ (hp hp').elim, hcall⟩, hb⟩

section Resolve

variable {rs : List (String × Nat)} {k target : Nat} {name name' : String}

/-- A name is not found if it is none of those there. -/
theorem lookup_eq_none_iff {l : List (String × Nat)} :
    l.lookup name = none ↔ name ∉ l.map Prod.fst := by
  rw [List.lookup_eq_none_iff]
  simp only [List.mem_map, not_exists, not_and, bne_iff_ne, ne_eq]
  constructor
  · rintro h x hx rfl
    exact h x hx rfl
  · rintro h x hx rfl
    exact h x hx rfl

/-- A name is looked up in the first entry and then in the rest. -/
theorem lookup_cons_eq_ite (l : List (String × Nat)) :
    List.lookup name ((name', target) :: l) =
      if name = name' then some target else l.lookup name := by
  rw [List.lookup_cons]
  by_cases h : name = name'
  · rw [if_pos h, h, beq_self_eq_true]
  · rw [if_neg h, beq_eq_false_iff_ne.mpr h]

/-- A name leads nowhere exactly when no routine has it. -/
theorem resolve?_eq_none_iff : resolve? rs k name = none ↔ name ∉ rs.map Prod.fst := by
  rw [resolve?, Option.or_eq_none_iff, lookup_eq_none_iff, lookup_eq_none_iff, List.map_reverse,
    List.mem_reverse, ← not_or, ← List.mem_append, ← List.map_append, List.take_append_drop]

/-- In the routine that started last, a name leads to the latest routine that has it. -/
theorem resolve?_last (x : String × Nat) :
    resolve? (rs ++ [x]) rs.length name = (rs ++ [x]).reverse.lookup name := by
  have htake : (rs ++ [x]).take (rs.length + 1) = rs ++ [x] := List.take_of_length_le (by simp)
  have hdrop : (rs ++ [x]).drop (rs.length + 1) = [] := List.drop_of_length_le (by simp)
  rw [resolve?, htake, hdrop, List.lookup_nil, Option.or_none]

/-- One more routine changes where a name leads only if it is the first of that name. -/
theorem resolve?_append (hk : k < rs.length) :
    resolve? (rs ++ [(name', target)]) k name =
      (resolve? rs k name).or (if name = name' then some target else none) := by
  rw [resolve?, List.take_append_of_le_length hk, List.drop_append_of_le_length hk,
    List.lookup_append, lookup_cons_eq_ite, List.lookup_nil, resolve?, Option.or_assoc]

end Resolve

/-- A routine with its calls and static addresses changed. -/
def Part.relink (f : Marked → Marked) (hf : Relinks f) (q : Part) : Part :=
  { q with marks := q.marks.map f, assembled := (q.assembled.relink hf).1 }

section Relink

variable {f : Marked → Marked} (hf : Relinks f)

/-- The instructions of relinked routines are the relinked ones. -/
theorem allMarks_relink (parts : List Part) :
    allMarks (parts.map (Part.relink f hf)) = (allMarks parts).map f := by
  rw [allMarks, allMarks, List.flatMap_map, List.map_flatMap]
  rfl

/-- Relinked routines start where they did. -/
theorem starts_relink (parts : List Part) :
    starts (parts.map (Part.relink f hf)) = starts parts := by
  rw [starts, starts, List.map_map]
  rfl

/-- Relinked routines have as many bytes as before. -/
theorem extent_relink (parts : List Part) :
    extent (allMarks (parts.map (Part.relink f hf))) = extent (allMarks parts) := by
  induction parts with
  | nil => rfl
  | cons q parts ih =>
    have hq : extent (q.marks.map f) = extent q.marks := (q.assembled.relink hf).2
    change extent (q.marks.map f ++ allMarks (parts.map (Part.relink f hf))) =
      extent (q.marks ++ allMarks parts)
    rw [extent_append, extent_append, ih, hq]

/-- Relinked routines lie right after each other as before. -/
theorem Contiguous.relink {o : Nat} {parts : List Part} (h : Contiguous o parts) :
    Contiguous o (parts.map (Part.relink f hf)) := by
  induction parts generalizing o with
  | nil => trivial
  | cons q parts ih =>
    refine ⟨h.1, ?_⟩
    have hq : extent (q.marks.map f) = extent q.marks := (q.assembled.relink hf).2
    change Contiguous (o + extent (q.marks.map f)) _
    rw [hq]
    exact ih h.2

end Relink

/-- A list around one of its elements. -/
theorem eq_take_append_cons {α : Type} {xs : List α} {k : Nat} {x : α} (h : xs[k]? = some x) :
    xs = xs.take k ++ x :: xs.drop (k + 1) := by
  obtain ⟨hk, rfl⟩ := List.getElem?_eq_some_iff.mp h
  rw [← List.drop_eq_getElem_cons hk, List.take_append_drop]

/-- Routines in a row are contiguous if both parts are, the second behind the first. -/
theorem contiguous_append {o : Nat} {xs ys : List Part} :
    Contiguous o (xs ++ ys) ↔ Contiguous o xs ∧ Contiguous (o + extent (allMarks xs)) ys := by
  induction xs generalizing o with
  | nil => exact ⟨fun h ↦ ⟨trivial, h⟩, fun h ↦ h.2⟩
  | cons q xs ih =>
    have hextent : extent (allMarks (q :: xs)) = extent q.marks + extent (allMarks xs) :=
      extent_append _ _
    change q.start = o ∧ Contiguous (o + extent q.marks) (xs ++ ys) ↔
      (q.start = o ∧ Contiguous (o + extent q.marks) xs) ∧ _
    rw [ih, hextent, Nat.add_assoc, and_assoc]

section Waiting

variable {t : RoutineTable} {name : String} {start index : Nat} {ms : List Marked}

private theorem start?_insert (name' : String) :
    (t.insert name start).start? name' = if name' = name then some start else t.start? name' :=
  lookup_cons_eq_ite t.started

/-- The same calls wait when instructions keep their purposes and places. -/
theorem waitingCalls_map {f : Marked → Marked} (hp : ∀ m, (f m).purpose = m.purpose)
    (hs : ∀ m, (f m).entry.start = m.entry.start) :
    waitingCalls t index (ms.map f) = waitingCalls t index ms := by
  induction ms generalizing index with
  | nil => rfl
  | cons m ms ih =>
    rw [List.map_cons, waitingCalls_cons, waitingCalls_cons, ih, Marked.waiting?, Marked.waiting?,
      hp, hs]

private theorem staticLoads_map {f : Marked → Marked} (hp : ∀ m, (f m).purpose = m.purpose) :
    staticLoads index (ms.map f) = staticLoads index ms := by
  induction ms generalizing index with
  | nil => rfl
  | cons m ms ih =>
    rw [List.map_cons, staticLoads_cons, staticLoads_cons, ih, Marked.load?, Marked.load?, hp]

/-- The calls of a routine that starts no longer wait. -/
theorem waitingCalls_insert :
    waitingCalls (t.insert name start) index ms =
      (waitingCalls t index ms).filter (·.1 != name) := by
  induction ms generalizing index with
  | nil => rfl
  | cons m ms ih =>
    rw [waitingCalls_cons, waitingCalls_cons, List.filter_append, ih]
    congr 1
    cases hp : m.purpose with
    | plain => simp [Marked.waiting?, hp]
    | static offset => simp [Marked.waiting?, hp]
    | call name' =>
      simp only [Marked.waiting?, hp, start?_insert]
      by_cases h : name' = name
      · by_cases hs : (t.start? name').isSome <;> simp_all
      · by_cases hs : (t.start? name').isSome <;> simp [h, hs]

/-- No call waits for a routine that has started. -/
theorem sitesOf_eq_nil (h : (t.start? name).isSome) :
    PendingCalls.sitesOf ⟨waitingCalls t index ms⟩ name = [] := by
  rw [PendingCalls.sitesOf, List.map_eq_nil_iff, List.filter_eq_nil_iff]
  intro x hx
  obtain ⟨⟨m, k⟩, -, hm⟩ := List.mem_filterMap.mp hx
  simp only [Marked.waiting?] at hm
  split at hm
  · next name' _ =>
    split at hm
    · cases hm
    · next hs =>
      cases hm
      intro heq
      have heq : name' = name := beq_iff_eq.mp heq
      exact hs (heq ▸ h)
  · cases hm

end Waiting

section Aimed

variable {rs : List (String × Nat)} {address : Int32 → UInt64} {k target : Nat} {name : String}
  {m : Marked}

/-- A call stays aimed when another routine takes over its name. -/
theorem Aimed.append (h : Aimed rs address k m) (hk : k < rs.length)
    (hname : name ∈ rs.map Prod.fst) : Aimed (rs ++ [(name, target)]) address k m := by
  rw [Aimed] at h ⊢
  split
  · trivial
  · next name' hp =>
    rw [hp] at h
    have hr : resolve? (rs ++ [(name, target)]) k name' = resolve? rs k name' := by
      rw [resolve?_append hk]
      split
      · next heq =>
        cases hs : resolve? rs k name' with
        | none => exact (resolve?_eq_none_iff.mp hs (heq ▸ hname)).elim
        | some _ => rfl
      · rw [Option.or_none]
    rw [hr]
    exact h
  · next offset hp =>
    rw [hp] at h
    exact h

/-- The calls of a routine that starts are aimed at it, and all others stay as they are. -/
theorem Aimed.aimedAt (h : Aimed rs address k m) (hk : k < rs.length)
    (hname : name ∉ rs.map Prod.fst)
    (hcall : m.purpose = .call name → Instruction.callTo m.entry.start target =
      .ok (.call (callDistance m.entry.start target))) :
    Aimed (rs ++ [(name, target)]) address k (m.aimedAt name target) := by
  by_cases hp : m.purpose = .call name
  · have hr : resolve? (rs ++ [(name, target)]) k name = some target := by
      rw [resolve?_append hk, if_pos rfl, resolve?_eq_none_iff.mpr hname, Option.none_or]
    rw [Aimed, Marked.purpose_aimedAt, hp]
    simp only [hr]
    rw [Marked.aimedAt, if_pos hp]
    exact hcall hp
  · rw [Marked.aimedAt, if_neg hp]
    rw [Aimed] at h ⊢
    split
    · trivial
    · next name' hp' =>
      rw [hp'] at h
      have hne : ¬ name' = name := fun heq ↦ hp (heq ▸ hp')
      rw [resolve?_append hk, if_neg hne, Option.or_none]
      exact h
    · next offset hp' =>
      rw [hp'] at h
      exact h

end Aimed

/-- A call in the routine that started last is aimed when it is emitted. -/
theorem FirstAimed.aimed {t : RoutineTable} {rs : List (String × Nat)} {k : Nat} {m : Marked}
    (h : FirstAimed t m) (ht : ∀ name, t.start? name = resolve? rs k name) :
    Aimed rs (fun _ ↦ 0) k m := by
  simp only [FirstAimed, ht] at h
  exact h

private theorem getElem?_append_singleton {α : Type} {l : List α} {x y : α} {k : Nat}
    (h : (l ++ [x])[k]? = some y) : k < l.length ∧ l[k]? = some y ∨ k = l.length ∧ y = x := by
  by_cases hk : k < l.length
  · rw [List.getElem?_append_left hk] at h
    exact .inl ⟨hk, h⟩
  · rw [List.getElem?_append_right (by omega), List.getElem?_singleton] at h
    split at h
    · next h0 => exact .inr ⟨by omega, (Option.some.inj h).symm⟩
    · cases h

/-- The names of routines and the steps they were assembled from. -/
def sources (parts : List Part) : List (String × List Step) := parts.map fun q ↦ (q.name, q.steps)

/-- Relinked routines come from the same steps. -/
theorem sources_relink {f : Marked → Marked} (hf : Relinks f) (parts : List Part) :
    sources (parts.map (Part.relink f hf)) = sources parts := by
  rw [sources, sources, List.map_map]
  rfl

/-- The instructions of one more routine come last. -/
theorem allMarks_append (parts : List Part) (q : Part) :
    allMarks (parts ++ [q]) = allMarks parts ++ q.marks := by
  rw [allMarks, List.flatMap_append, List.flatMap_singleton]
  rfl

/-- The instructions around a routine. -/
theorem allMarks_append_cons (before after : List Part) (q : Part) :
    allMarks (before ++ q :: after) = allMarks before ++ (q.marks ++ allMarks after) := by
  rw [allMarks, List.flatMap_append, List.flatMap_cons]
  rfl

/-- The start of one more routine comes last. -/
theorem starts_append (parts : List Part) (q : Part) :
    starts (parts ++ [q]) = starts parts ++ [(q.name, q.start)] := by
  rw [starts, List.map_append]
  rfl

namespace Built

variable {a b : Assembly} {parts : List Part}

/-- What code consists of does not depend on depth, entry and log. -/
theorem congr (h : Built a parts) (hs : b.stream = a.stream) (hr : b.routines = a.routines)
    (hp : b.pending = a.pending) (hl : b.staticLoads = a.staticLoads)
    (hreporter : b.reporter = a.reporter) : Built b parts := by
  refine ⟨hs ▸ h.entries, hs ▸ h.size, hr ▸ h.started, h.contiguous, ?_, hl ▸ h.loads, h.aimed,
    hreporter ▸ h.unreported⟩
  rw [hp, hr]
  exact h.pending

private theorem length (h : Built a parts) : a.stream.length = (allMarks parts).length := by
  rw [CodeStream.length, ← Array.length_toList, h.entries, List.length_map]

/-- The routine that a name stands for now. -/
theorem start?_eq (h : Built a parts) (name : String) :
    a.routines.start? name = (starts parts).reverse.lookup name := by
  rw [RoutineTable.start?, h.started]

/-- Steps extend the routine that started last. -/
theorem steps {name : String} {start : Nat} {ss : List Step} {u : Unit}
    (h : Built a (parts ++ [⟨name, [], start, [], .nil⟩])) (hstart : start = a.stream.size)
    (hr : Runs (Assemble.steps ss) a u b) :
    ∃ q : Part, q.name = name ∧ q.steps = ss ∧ Built b (parts ++ [q]) := by
  subst hstart
  obtain ⟨ms, happends, hcode⟩ := assembled_steps ss hr
  let q : Part := ⟨name, ss, a.stream.size, ms, hcode⟩
  have hmarks : allMarks (parts ++ [⟨name, [], a.stream.size, [], .nil⟩]) = allMarks parts := by
    rw [allMarks_append, List.append_nil]
  have hstarts : starts (parts ++ [q]) =
      starts (parts ++ [⟨name, [], a.stream.size, [], .nil⟩]) := by
    rw [starts_append, starts_append]
  have hentries := h.entries
  have hsize := h.size
  have hlength := h.length
  have hpending := h.pending
  have hloads := h.loads
  rw [hmarks] at hentries hsize hlength hpending hloads
  refine ⟨q, rfl, rfl, ?_, ?_, ?_, ?_, ?_, ?_, ?_, happends.reporter.trans h.unreported⟩
  · rw [happends.entries, hentries, allMarks_append, List.map_append]
  · rw [happends.size, hsize, allMarks_append, extent_append]
  · rw [happends.routines, h.started, hstarts]
  · obtain ⟨hcontiguous, hstart, -⟩ := contiguous_append.mp h.contiguous
    exact contiguous_append.mpr ⟨hcontiguous, hstart, trivial⟩
  · rw [happends.pending, hpending, happends.routines, allMarks_append, waitingCalls_append,
      hlength, Nat.zero_add]
  · rw [happends.loads, hloads, allMarks_append, staticLoads_append, hlength, Nat.zero_add]
  · intro k q' hq' m hm
    rw [hstarts]
    rcases getElem?_append_singleton hq' with ⟨hk, hget⟩ | ⟨rfl, rfl⟩
    · exact h.aimed k q' (by rw [List.getElem?_append_left hk, hget]) m hm
    · apply (happends.aimed m hm).aimed
      intro name'
      have hk : parts.length = (starts parts).length := List.length_map _ |>.symm
      rw [h.start?_eq, starts_append, hk, resolve?_last]

private theorem grow {name : String} {f : Marked → Marked} (h : Built a parts) (hf : Relinks f)
    (hp : ∀ m, (f m).purpose = m.purpose) (hs : ∀ m, (f m).entry.start = m.entry.start)
    (haimed : ∀ k q, parts[k]? = some q → ∀ m ∈ q.marks,
      Aimed (starts parts ++ [(name, a.stream.size)]) (fun _ ↦ 0) k (f m)) (log : Array Event) :
    Built { a with
      stream := ⟨(((allMarks parts).map f).map Marked.entry).toArray, a.stream.size⟩
      pending := a.pending.without name
      routines := a.routines.insert name a.stream.size
      log } (parts.map (Part.relink f hf) ++ [⟨name, [], a.stream.size, [], .nil⟩]) := by
  have hmarks : allMarks (parts.map (Part.relink f hf) ++ [⟨name, [], a.stream.size, [], .nil⟩]) =
      (allMarks parts).map f := by
    rw [allMarks_append, List.append_nil, allMarks_relink]
  have hstarts : starts (parts.map (Part.relink f hf) ++ [⟨name, [], a.stream.size, [], .nil⟩]) =
      starts parts ++ [(name, a.stream.size)] := by
    rw [starts_append, starts_relink]
  refine ⟨?_, ?_, ?_, ?_, ?_, ?_, ?_, h.unreported⟩
  · rw [hmarks]
  · rw [hmarks, ← allMarks_relink hf, extent_relink]
    exact h.size
  · rw [hstarts, List.reverse_append, RoutineTable.insert, h.started]
    rfl
  · refine contiguous_append.mpr ⟨h.contiguous.relink hf, ?_, trivial⟩
    rw [extent_relink, Nat.zero_add, ← h.size]
  · rw [hmarks, waitingCalls_map hp hs, waitingCalls_insert, ← h.pending]
    rfl
  · rw [hmarks, staticLoads_map hp]
    exact h.loads
  · intro k q hq m hm
    rw [hstarts]
    rcases getElem?_append_singleton hq with ⟨-, hget⟩ | ⟨rfl, rfl⟩
    · rw [List.getElem?_map] at hget
      obtain ⟨q', hq', rfl⟩ := Option.map_eq_some_iff.mp hget
      obtain ⟨m', hm', rfl⟩ := List.mem_map.mp hm
      exact haimed k q' hq' m' hm'
    · exact (List.not_mem_nil hm).elim

/-- A routine starts. Of the code before it only calls are changed. -/
theorem startRoutine {name : String} {start : Nat} (h : Built a parts)
    (hr : Runs (Assemble.startRoutine name) a start b) :
    start = b.stream.size ∧ ∃ f, ∃ hf : Relinks f,
      Built b (parts.map (Part.relink f hf) ++ [⟨name, [], start, [], .nil⟩]) := by
  obtain ⟨rfl, c, log, hall, rfl⟩ := Assemble.runs_startRoutine hr
  have hwaiting : a.pending.sitesOf name =
      PendingCalls.sitesOf ⟨waitingCalls a.routines 0 (allMarks parts)⟩ name := by
    rw [← h.pending]
  rw [hwaiting] at hall
  have hindex : ∀ {k q}, parts[k]? = some q → k < (starts parts).length := by
    intro k q hq
    rw [starts, List.length_map]
    exact (List.getElem?_eq_some_iff.mp hq).1
  by_cases hname : name ∈ (starts parts).map Prod.fst
  · have hsome : (a.routines.start? name).isSome := by
      rw [Option.isSome_iff_ne_none, h.start?_eq, Ne, lookup_eq_none_iff, Classical.not_not,
        List.map_reverse, List.mem_reverse]
      exact hname
    rw [sitesOf_eq_nil hsome] at hall
    obtain ⟨-, rfl⟩ := Runs.pure_iff.mp hall
    refine ⟨rfl, id, relinks_id, ?_⟩
    refine (h.grow relinks_id (fun _ ↦ rfl) (fun _ ↦ rfl) ?_ log).congr ?_ rfl rfl rfl rfl
    · intro k q hq m hm
      exact (h.aimed k q hq m hm).append (hindex hq) hname
    · rw [List.map_id, ← h.entries]
  · have hnone : a.routines.start? name = none := by
      rw [h.start?_eq, lookup_eq_none_iff, List.map_reverse, List.mem_reverse]
      exact hname
    have hopen : ∀ m ∈ allMarks parts, m.purpose = .call name →
        m.entry = callAt m.entry.start 0 := by
      intro m hm hp
      obtain ⟨k, q, hk, hm⟩ := exists_part_of_mem hm
      have haimed := h.aimed k q hk m hm
      rw [Aimed, hp] at haimed
      simp only [resolve?_eq_none_iff.mpr hname] at haimed
      exact haimed
    let emptied : Assembly := { a with pending := a.pending.without name }
    have hentries : emptied.stream.entries.toList = [] ++ (allMarks parts).map Marked.entry :=
      h.entries
    obtain ⟨hcalls, log', rfl⟩ := runs_retargetAll hnone [] (allMarks parts) hopen hentries hall
    refine ⟨rfl, _, relinks_aimedAt name a.stream.size, ?_⟩
    refine (h.grow (relinks_aimedAt name a.stream.size) (fun _ ↦ Marked.purpose_aimedAt _ _ _)
      (fun _ ↦ Marked.start_aimedAt _ _ _) ?_ log).congr rfl rfl rfl rfl rfl
    intro k q hq m hm
    exact (h.aimed k q hq m hm).aimedAt (hindex hq) hname
      (hcalls m (List.mem_flatMap.mpr ⟨q, List.mem_of_getElem? hq, hm⟩))

end Built

end NativeBackend
