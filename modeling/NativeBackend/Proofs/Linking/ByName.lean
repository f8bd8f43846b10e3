import NativeBackend.Proofs.Linking.Unresolved

/-!
# Calls find routines by name

In finished code every call leads to the latest routine of its name up to the one it
lies in, or else to the first one after it. Calls of names that no routine has stay as
they were emitted, and what is reported is exactly these names.
-/

namespace NativeBackend

open Machine NativeBackend.Tree

/-- How finished code and the reports about it follow from the names that a program declares and
calls. -/
structure LinkedByName (p : Program) (code : Code) (reports : List Diagnostic) : Prop where
  begun : code.begun.map Prod.fst = Source.routineNames p
  calls : code.stream.entries.toList.filter (·.instruction.isCall) =
    (List.range code.begun.length).flatMap code.callsIn
  leads : ∀ k names, (Source.calledNames p)[k]? = some names →
    List.Forall₂ (LeadsTo code.begun k) (code.callsIn k) names
  reported : ∃ unresolved : List String,
    unresolved.Pairwise (fun a b ↦ utf8 a < utf8 b) ∧
    (∀ name, name ∈ unresolved ↔
      name ∈ (Source.calledNames p).flatten ∧ name ∉ code.begun.map Prod.fst) ∧
    reports = unresolved.map fun name ↦
      .unresolvedCall name ((Source.calledNames p).flatten.count name)

/-- Every call of generated code leads where its name resolves to, and exactly the names that no
routine has are reported. -/
theorem linkedByName_of_generate {p : Program} {o : Options} {entry : Routine} {code : Code}
    (hentry : entryCandidates p o = [entry]) (hcode : (generate p o).result = .ok code) :
    LinkedByName p code (generate p o).reporter.diagnostics := by
  obtain ⟨parts, hsources, hlinked, hreports⟩ := exists_linked hentry hcode
  refine ⟨hlinked.begun_names hsources, hlinked.calls, fun k names hk ↦ ?_, ?_⟩
  · rw [Source.calledNames, List.getElem?_map, Option.map_eq_some_iff] at hk
    obtain ⟨nodes, hnodes, rfl⟩ := hk
    exact Source.forall₂_routines (hlinked.leadsTo hsources hnodes)
  · have hmem := hlinked.mem_unresolved hsources
    refine ⟨_, PendingCalls.pairwise_names _, hmem, ?_⟩
    rw [hreports, PendingCalls.groups, List.map_map]
    refine List.map_congr_left fun name hname ↦ ?_
    rw [← hlinked.length_unresolved hsources ((hmem name).mp hname).2]
    rfl

/-- A program whose routines call each other forward and backward, an undeclared method, and the
built-in routines. Two of them have the same name. -/
def relayProgram : Program :=
  let callOf (position : UInt64) : Statement := .call (.method ⟨0, position⟩) []
  let args : List Parameter := [⟨"args", .array (.object "String")⟩]
  ⟨[⟨"Main", [],
    [⟨"main", .void, true, false, args,
      [callOf 1, .call .println [.literal (.int 1)], callOf 9]⟩,
    ⟨"relay", .void, true, false, [],
      [callOf 2, .declare ⟨"o", .object "Main", ⟨0⟩⟩ (.newObject 0), callOf 9]⟩,
    ⟨"last", .void, true, false, [], [callOf 1, callOf 2]⟩,
    ⟨"relay", .void, true, false, [], [callOf 1]⟩]⟩]⟩

/-- The undeclared method is reported with both of its calls. -/
theorem linkedByName_relay :
    ∃ code, (generate relayProgram {}).result = .ok code ∧
      LinkedByName relayProgram code [.unresolvedCall "Main.#9" 2] := by
  have hok : (generate relayProgram {}).result.isOk = true := by decide +kernel
  have hreports : (generate relayProgram {}).reporter.diagnostics =
      [.unresolvedCall "Main.#9" 2] := by
    decide +kernel
  obtain ⟨code, hcode⟩ := exists_ok_of_isOk hok
  exact ⟨code, hcode, hreports ▸ linkedByName_of_generate rfl hcode⟩

end NativeBackend
