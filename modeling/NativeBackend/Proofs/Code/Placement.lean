import NativeBackend.Proofs.Emission.WholeProgram
import NativeBackend.Proofs.Encoding.OperandShapes
import NativeBackend.Proofs.Execution.Counter

/-!
# Where code lies

Assembled instructions lie one right after the other, so that an offset finds the
instruction that was emitted there, and the distance of every branch leads to the
offset it was taken to.
-/

namespace NativeBackend

open Machine Execution

/-- Instructions lie one right after the other from an offset on. -/
def Laid : Nat → List Marked → Prop
  | _, [] => True
  | o, m :: ms => m.entry.start = o ∧ 0 < m.entry.bytes.length ∧ Laid m.entry.finish ms

/-- Code holds instructions where they belong, with the static addresses filled in. -/
def Holding (code : CodeStream) (base : UInt64) (ms : List Marked) : Prop :=
  ∀ m ∈ ms, code.at? m.entry.start = some m.entry ∧ m.filled base = m

namespace Laid

variable {o : Nat} {ms ms' : List Marked}

private theorem append (h : Laid o ms) (h' : Laid (o + extent ms) ms') : Laid o (ms ++ ms') := by
  induction ms generalizing o with
  | nil => exact h'
  | cons m ms ih =>
    obtain ⟨hs, hpos, hrest⟩ := h
    refine ⟨hs, hpos, ih hrest ?_⟩
    rw [extent_cons] at h'
    rwa [Emitted.finish, hs, Nat.add_assoc]

/-- Laid instructions begin at the offset of the first or behind it. -/
theorem start_ge (h : Laid o ms) : ∀ m ∈ ms, o ≤ m.entry.start := by
  induction ms generalizing o with
  | nil => intro m hm; cases hm
  | cons m ms ih =>
    obtain ⟨hs, -, hrest⟩ := h
    intro m' hm'
    rcases List.mem_cons.mp hm' with rfl | hm'
    · omega
    · have hle := ih hrest m' hm'
      unfold Emitted.finish at hle
      omega

/-- Laid instructions begin before the end of all. -/
theorem start_lt (h : Laid o ms) : ∀ m ∈ ms, m.entry.start < o + extent ms := by
  induction ms generalizing o with
  | nil => intro m hm; cases hm
  | cons m ms ih =>
    obtain ⟨hs, hpos, hrest⟩ := h
    intro m' hm'
    rw [extent_cons]
    rcases List.mem_cons.mp hm' with rfl | hm'
    · omega
    · have hlt := ih hrest m' hm'
      unfold Emitted.finish at hlt
      omega

/-- An offset finds the instruction that starts there. -/
theorem find?_start (h : Laid o ms) {m : Marked} (hm : m ∈ ms) :
    (ms.map Marked.entry).find? (·.start == m.entry.start) = some m.entry := by
  induction ms generalizing o with
  | nil => cases hm
  | cons m' ms ih =>
    obtain ⟨hs, hpos, hrest⟩ := h
    rcases List.mem_cons.mp hm with rfl | hm
    · exact List.find?_cons_of_pos (beq_self_eq_true m.entry.start)
    · have hge := hrest.start_ge m hm
      have hne : (m'.entry.start == m.entry.start) = false := by
        rw [beq_eq_false_iff_ne]
        unfold Emitted.finish at hge
        omega
      simp only [List.map_cons, List.find?_cons, hne]
      exact ih hrest hm

end Laid

/-- Assembled instructions lie one right after the other. -/
theorem Assembled.laid {o : Nat} {steps : List Step} {ms : List Marked}
    (h : Assembled o steps ms) : Laid o ms := by
  induction h with
  | nil => trivial
  | emit encoded _ ih => exact ⟨rfl, length_encode_pos encoded, ih⟩
  | frame encoded _ ih => exact ⟨rfl, length_encode_pos encoded, ih⟩
  | call _ ih => exact ⟨rfl, Nat.succ_pos _, ih⟩
  | staticAddress _ ih => exact ⟨rfl, Nat.succ_pos _, ih⟩
  | undeclared _ ih => exact ih
  | settle _ ih => exact ih
  | when encoded _ _ _ ihbody ih =>
    exact ⟨rfl, length_encode_pos encoded, ihbody.append ih⟩
  | choose encoded _ encoded' start_eq _ _ _ _ ihyes ihno ih =>
    subst start_eq
    exact ⟨rfl, length_encode_pos encoded,
      ihyes.append ⟨rfl, length_encode_pos encoded', ihno.append ih⟩⟩
  | loop _ test_eq encoded _ stop_eq _ encoded' _ _ ihcond ihbody ih =>
    subst test_eq stop_eq
    exact ihcond.append
      ⟨rfl, length_encode_pos encoded, ihbody.append ⟨rfl, length_encode_pos encoded', ih⟩⟩

/-- The instructions of routines right after each other are laid. -/
theorem Contiguous.laid {o : Nat} {parts : List Part} (h : Contiguous o parts) :
    Laid o (allMarks parts) := by
  induction parts generalizing o with
  | nil => trivial
  | cons q parts ih =>
    obtain ⟨hs, hrest⟩ := h
    exact (hs ▸ q.assembled.laid).append (ih hrest)

private theorem Aimed.filled_eq {rs : List (String × Nat)} {k : Nat} {m : Marked} {base : UInt64}
    (h : Aimed rs (fun offset ↦ base + UInt64.ofInt offset.toInt) k m) : m.filled base = m := by
  obtain ⟨entry, purpose⟩ := m
  cases purpose with
  | plain => rfl
  | call name => rfl
  | static offset =>
    simp only [Aimed] at h
    simp only [Marked.filled]
    rw [← h]

/-- Linked code holds every routine. -/
theorem Linked.holding {code : Code} {base : UInt64} {parts : List Part}
    (h : Linked code base parts) {q : Part} (hq : q ∈ parts) :
    Holding code.stream base q.marks := by
  intro m hm
  obtain ⟨k, hk⟩ := List.getElem?_of_mem hq
  refine ⟨?_, (h.aimed k q hk m hm).filled_eq⟩
  rw [CodeStream.at?, h.entries]
  exact h.contiguous.laid.find?_start (List.mem_flatMap.mpr ⟨q, hq, hm⟩)

namespace Assembled

variable {o : Nat} {x : Step} {xs ys : List Step} {ms : List Marked}

/-- The instructions of steps are those of the first step and then those of the rest. -/
theorem of_cons (h : Assembled o (x :: ys) ms) :
    ∃ ms₁ ms₂, ms = ms₁ ++ ms₂ ∧ Assembled o [x] ms₁ ∧ Assembled (o + extent ms₁) ys ms₂ := by
  cases h with
  | emit encoded rest => exact ⟨[_], _, rfl, .emit encoded .nil, rest⟩
  | frame encoded rest => exact ⟨[_], _, rfl, .frame encoded .nil, rest⟩
  | call rest => exact ⟨[_], _, rfl, .call .nil, rest⟩
  | staticAddress rest => exact ⟨[_], _, rfl, .staticAddress .nil, rest⟩
  | undeclared rest => exact ⟨[], _, rfl, .undeclared .nil, rest⟩
  | settle rest => exact ⟨[], _, rfl, .settle .nil, rest⟩
  | when encoded body_code aimed rest =>
    refine ⟨_, _, ?_, .when encoded body_code aimed .nil, rest.at_offset ?_⟩
    · simp
    · simp only [extent_cons, List.append_nil, Marked.plain]
      omega
  | choose encoded yes_code encoded' start_eq no_code aimed aimed' rest =>
    refine ⟨_, _, ?_, .choose encoded yes_code encoded' start_eq no_code aimed aimed' .nil,
      rest.at_offset ?_⟩
    · simp
    · simp only [extent_cons, extent_append, List.append_nil, Marked.plain, start_eq]
      omega
  | loop cond_code test_eq encoded body_code stop_eq aimed' encoded' aimed rest =>
    refine ⟨_, _, ?_, .loop cond_code test_eq encoded body_code stop_eq aimed' encoded' aimed .nil,
      rest.at_offset ?_⟩
    · simp
    · simp only [extent_cons, extent_append, extent_nil, Marked.plain, test_eq, stop_eq]
      omega

/-- Steps in a row are assembled one after the other. -/
theorem of_append (h : Assembled o (xs ++ ys) ms) :
    ∃ ms₁ ms₂, ms = ms₁ ++ ms₂ ∧ Assembled o xs ms₁ ∧ Assembled (o + extent ms₁) ys ms₂ := by
  induction xs generalizing o ms with
  | nil => exact ⟨[], ms, rfl, .nil, h⟩
  | cons x xs ih =>
    obtain ⟨ms₁, ms₂, rfl, hx, hrest⟩ := of_cons h
    obtain ⟨ms₃, ms₄, rfl, hxs, hys⟩ := ih hrest
    refine ⟨ms₁ ++ ms₃, ms₄, by rw [List.append_assoc], hx.append hxs, ?_⟩
    apply hys.at_offset
    rw [extent_append, Nat.add_assoc]

end Assembled

section Distances

variable {origin target length : Nat} {d : Int32}

/-- A distance leads to its target, unless the end of the branch is beyond the machine words. -/
theorem add_distance (h : distance origin target length = .ok d)
    (hend : origin + length < wordLimit) : (origin + length : Nat) + d.toInt = target := by
  obtain ⟨-, -, -, hsum⟩ := distance_eq_ok h
  rwa [endOffset, Nat.mod_eq_of_lt hend] at hsum

/-- What a distance leads to is an offset of 63 bits. -/
theorem target_lt (h : distance origin target length = .ok d) : target < signedLimit :=
  (distance_eq_ok h).2.1

end Distances

end NativeBackend
