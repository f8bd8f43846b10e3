import NativeBackend.Proofs.Emission.Assembled

/-!
# Static addresses in assembled code

The loads of static addresses are emitted with a zero and get their values when all
code is out. Filling them in succeeds if no offset is negative, changes these loads and
nothing else, and gives every one the address of its word.
-/

namespace NativeBackend

open Machine

/-- An instruction with the address of its word of the static area, if it is there for one. -/
def Marked.filled (base : UInt64) (m : Marked) : Marked :=
  match m.purpose with
  | .static offset => { m with entry := loadAt m.entry.start (base + UInt64.ofInt offset.toInt) }
  | _ => m

/-- An instruction that is there for a static address loads one. -/
def Marked.LoadsStatic (m : Marked) : Prop :=
  ∀ offset, m.purpose = .static offset → ∃ address, m.entry = loadAt m.entry.start address

/-- An instruction loads its static address from the first on. -/
theorem FirstAimed.loadsStatic {t : RoutineTable} {m : Marked} (h : FirstAimed t m) :
    m.LoadsStatic := by
  intro offset hm
  rw [FirstAimed, hm] at h
  exact ⟨0, h⟩

/-- Filling in an address keeps the purpose. -/
@[simp] theorem Marked.purpose_filled (base : UInt64) (m : Marked) :
    (m.filled base).purpose = m.purpose := by
  unfold filled
  split <;> rfl

/-- Filling in an address keeps the place. -/
@[simp] theorem Marked.start_filled (base : UInt64) (m : Marked) :
    (m.filled base).entry.start = m.entry.start := by
  unfold filled
  split <;> rfl

/-- No offset is negative once addresses are filled in. -/
theorem nonneg_of_fillStatics {base : UInt64} {loads : List StaticLoad} {a b : Assembly} {u : Unit}
    (h : Runs (Assemble.fillStatics base loads) a u b) : ∀ load ∈ loads, 0 ≤ load.offset := by
  induction loads generalizing a with
  | nil => exact fun load hload ↦ (List.not_mem_nil hload).elim
  | cons load loads ih =>
    rw [Assemble.fillStatics] at h
    split at h
    · cases h
    · next hoffset =>
      obtain ⟨_, c, -, hrest⟩ := Runs.bind_iff.mp h
      exact List.forall_mem_cons.mpr ⟨Int32.not_lt.mp hoffset, ih hrest⟩

/-- Filling in the addresses of code that stands after other code. -/
theorem runs_fillStatics (base : UInt64) {a : Assembly} (before : List Emitted)
    (ms : List Marked) (hloads : ∀ m ∈ ms, m.LoadsStatic)
    (hoffsets : ∀ load ∈ staticLoads before.length ms, 0 ≤ load.offset)
    (ha : a.stream.entries.toList = before ++ ms.map Marked.entry) :
    Runs (Assemble.fillStatics base (staticLoads before.length ms)) a ()
      { a with stream :=
        ⟨(before ++ (ms.map (Marked.filled base)).map Marked.entry).toArray, a.stream.size⟩ } := by
  induction ms generalizing a before with
  | nil =>
    have hs : a.stream = ⟨(before ++ []).toArray, a.stream.size⟩ := by
      rw [← List.map_nil, ← ha]
    rw [List.map_nil, List.map_nil, ← hs]
    exact Runs.pure_iff.mpr ⟨rfl, rfl⟩
  | cons m ms ih =>
    obtain ⟨hm, hms⟩ := List.forall_mem_cons.mp hloads
    rw [staticLoads_cons] at hoffsets
    obtain ⟨hhead, htail⟩ := List.forall_mem_append.mp hoffsets
    -- The head joins the code before, as it is or with its address.
    have next : ∀ {b : Assembly}, b.stream.entries.toList =
        before ++ (m.filled base).entry :: ms.map Marked.entry →
        Runs (Assemble.fillStatics base (staticLoads (before.length + 1) ms)) b ()
          { b with stream := ⟨(before ++ ((m :: ms).map (Marked.filled base)).map
            Marked.entry).toArray, b.stream.size⟩ } := by
      intro b hb
      have hb' : b.stream.entries.toList =
          (before ++ [(m.filled base).entry]) ++ ms.map Marked.entry := by
        rw [hb, List.append_assoc]
        rfl
      simpa using ih (before ++ [(m.filled base).entry]) hms (by simpa using htail) hb'
    rw [staticLoads_cons, Marked.load?]
    cases hp : m.purpose with
    | plain => exact next (by rw [ha, Marked.filled, hp]; rfl)
    | call name => exact next (by rw [ha, Marked.filled, hp]; rfl)
    | static offset =>
      obtain ⟨address, hm⟩ := hm offset hp
      have hoffset : ¬offset < 0 := Int32.not_lt.mpr (hhead ⟨before.length, offset⟩ (by
        simp [Marked.load?, hp]))
      let loaded := loadAt m.entry.start (base + UInt64.ofInt offset.toInt)
      change Runs (Assemble.fillStatics base (⟨before.length, offset⟩ :: _)) a () _
      rw [Assemble.fillStatics, if_neg hoffset]
      refine Runs.bind_iff.mpr ⟨(), _, Assemble.runs_overwrite.mpr
        ⟨⟨(before ++ loaded :: ms.map Marked.entry).toArray, a.stream.size⟩, ?_, rfl⟩,
        next (by rw [Marked.filled, hp])⟩
      refine (CodeStream.patch_iff ha).mpr ⟨loaded.bytes, rfl, ?_, rfl⟩
      rw [hm]
      rfl

end NativeBackend
