import Mathlib
import NativeBackend.Proofs.Tree.Kinds
import NativeBackend.Proofs.Tree.RoundTrip

/-!
# Spellings of a tree

A part of a tree can be written in several ways. A rewrite takes one of them to another, at any
node. Whatever stands at a node counts only by what it is read as, so a value keeps its meaning
under any number of rewrites, and has none as soon as one of its nodes has none. An object that
repeats a key of its kind has none.
-/

namespace NativeBackend.Tree

open Json

/-- A place for a part of the second kind in a part of the first kind, as what the value that stands
there makes. -/
inductive Place : Kind → Kind → (Value → Value) → Prop
  | item {k c : Kind} (hshape : k.shape = .list c) (before after : List Value) :
    Place k c fun u ↦ .arr (before ++ u :: after)
  | present {k c : Kind} (hshape : k.shape = .option c) : Place k c id
  | field {k : Kind} {slots : List Slot} {s : Slot} (hshape : k.shape = .record slots)
      (hs : s ∈ slots) (before after : List (Option String × Value)) :
    Place k s.kind fun u ↦ .obj (before ++ (some s.name, u) :: after)
  | position {k : Kind} {slots : List Slot} {s : Slot} (hshape : k.shape = .record slots)
      (before after : List Value) (hs : slots[before.length]? = some s) :
    Place k s.kind fun u ↦ .arr (before ++ u :: after)
  | content {k c : Kind} {bare : List String} {contents : List (String × Kind)} {tag : String}
      (hshape : k.shape = .choice bare contents) (hmem : (tag, c) ∈ contents) :
    Place k c fun u ↦ .obj [(some tag, u)]

/-- A node of the tree: a place at any depth. -/
inductive Node : Kind → Kind → (Value → Value) → Prop
  | root {k : Kind} : Node k k id
  | inside {k c d : Kind} {outer inner : Value → Value} (houter : Place k c outer)
      (hinner : Node c d inner) : Node k d (outer ∘ inner)

private theorem Node.trans {k c d : Kind} {outer inner : Value → Value} (houter : Node k c outer)
    (hinner : Node c d inner) : Node k d (outer ∘ inner) := by
  induction houter with
  | root => exact hinner
  | inside hplace _ ih =>
    rw [Function.comp_assoc]
    exact .inside hplace (ih hinner)

section Places

variable {k c d : Kind} {place : Value → Value}

/-- Within every nesting, a value at the place counts only by what it is read as within some other
nesting, in which it fits if the whole fits. -/
def ReadsThrough (k c : Kind) (place : Value → Value) : Prop :=
  ∀ n, ∃ m, ∃ rest : c.Part → Option k.Part, (∀ u, (place u).depth ≤ n → u.depth ≤ m) ∧
    ∀ u, u ≠ .null → place u ≠ .null ∧ k.read? n (place u) = (c.read? m u).bind rest

private theorem ReadsThrough.comp {inner : Value → Value} (houter : ReadsThrough k c place)
    (hinner : ReadsThrough c d inner) : ReadsThrough k d (place ∘ inner) := by
  intro n
  obtain ⟨m, rest, hdepth, hread⟩ := houter n
  obtain ⟨l, rest', hdepth', hread'⟩ := hinner m
  refine ⟨l, fun x ↦ (rest' x).bind rest, fun u hu ↦ hdepth' u (hdepth _ hu), fun u hu ↦ ?_⟩
  obtain ⟨hnull, hu⟩ := hread' u hu
  obtain ⟨hnull, houter⟩ := hread (inner u) hnull
  exact ⟨hnull, by rw [Function.comp_apply, houter, hu, Option.bind_assoc]⟩

-- A value that is not read, whatever stands at the place, is read through it all the same.
private theorem readsThrough_of_unread {n : Nat} (hdepth : ∀ u, u.depth < (place u).depth)
    (hread : ∀ u, k.read? n (place u) = none) :
    ∃ m, ∃ rest : c.Part → Option k.Part, (∀ u, (place u).depth ≤ n → u.depth ≤ m) ∧
      ∀ u, u ≠ .null → place u ≠ .null ∧ k.read? n (place u) = (c.read? m u).bind rest := by
  refine ⟨n, fun _ ↦ none, fun u hu ↦ ((hdepth u).trans_le hu).le, fun u _ ↦ ⟨fun hnull ↦ ?_, ?_⟩⟩
  · have hlt := hdepth u
    rw [hnull] at hlt
    exact Nat.not_lt_zero _ hlt
  · rw [hread, Option.bind_fun_none]

private theorem depth_lt_item (before after : List Value) (u : Value) :
    u.depth < (Value.arr (before ++ u :: after)).depth :=
  depth_lt_arr (List.mem_append_right before List.mem_cons_self)

private theorem depth_lt_member (before after : List (Option String × Value)) (key : String)
    (u : Value) : u.depth < (Value.obj (before ++ (some key, u) :: after)).depth := by
  rw [depth_obj, List.map_append]
  exact depth_lt_item ..

private theorem readsThrough_item (before after : List Value) :
    ReadsThrough (.list c) c fun u ↦ .arr (before ++ u :: after) := by
  intro n
  cases n with
  | zero => exact readsThrough_of_unread (depth_lt_item before after) fun u ↦ rfl
  | succ n =>
    refine ⟨n, fun y ↦ (before.mapM (c.read? n)).bind fun xs ↦
      (after.mapM (c.read? n)).map fun ys ↦ xs ++ y :: ys,
      fun u hu ↦ Nat.le_of_lt_succ ((depth_lt_item before after u).trans_le hu),
      fun u _ ↦ ⟨nofun, ?_⟩⟩
    rw [Kind.read?, items?, List.mapM_append, List.mapM_cons]
    cases before.mapM (c.read? n) <;> cases c.read? n u <;> cases after.mapM (c.read? n) <;> simp

private theorem readsThrough_present : ReadsThrough (.option c) c id := by
  refine fun n ↦ ⟨n, fun x ↦ some (some x), fun u hu ↦ hu, fun u hu ↦ ⟨hu, ?_⟩⟩
  cases u with
  | null => exact absurd rfl hu
  | _ => exact Option.map_eq_bind

-- If all parts but one are settled, the row hangs on that one.
private theorem gather_through {α : Type} [Inhabited α] {slots : List Slot} {s : Slot}
    (hnodup : slots.Nodup) (hs : s ∈ slots) (part : α → (s : Slot) → Option s.kind.Part)
    (h : ∀ t ∈ slots, t ≠ s → ∀ u w, part u t = part w t) :
    ∃ rest : s.kind.Part → Option (Row slots),
      ∀ u, Row.gather (part u) slots = (part u s).bind rest := by
  induction slots with
  | nil => cases hs
  | cons t slots ih =>
    obtain ⟨ht, hnodup⟩ := List.nodup_cons.mp hnodup
    obtain ⟨hfirst, hothers⟩ := List.forall_mem_cons.mp h
    by_cases heq : s = t
    · subst heq
      refine ⟨fun x ↦ (Row.gather (part default) slots).map fun xs ↦ (x, xs), fun u ↦ ?_⟩
      have hslots : Row.gather (part u) slots = Row.gather (part default) slots :=
        Row.gather_congr fun t' ht' ↦ hothers t' ht' (fun heq ↦ ht (heq ▸ ht')) u default
      rw [Row.gather, hslots]
    · have hmem : s ∈ slots := (List.mem_cons.mp hs).resolve_left heq
      obtain ⟨rest, hrest⟩ := ih hnodup hmem hothers
      refine ⟨fun x ↦ (part default t).bind fun y ↦ (rest x).map fun xs ↦ (y, xs), fun u ↦ ?_⟩
      rw [Row.gather, hrest, hfirst (Ne.symm heq) u default]
      cases part default t <;> cases part u s <;> simp

variable {slots : List Slot} {s : Slot}

private theorem eq_of_name_eq (hshape : k.shape = .record slots) (hs : s ∈ slots) {t : Slot}
    (ht : t ∈ slots) (h : t.name = s.name) : t = s :=
  List.inj_on_of_nodup_map (Kind.nodup_names hshape) ht hs h

private theorem read?_record_repeated (hshape : k.shape = .record slots) (hs : s ∈ slots)
    {members : List (Option String × Value)}
    (h : 2 ≤ (members.map Prod.fst).count (some s.name)) (n : Nat) :
    k.read? n (.obj members) = none := by
  cases n with
  | zero => exact Kind.read?_zero hshape _
  | succ n =>
    obtain ⟨build, hbuild⟩ := Kind.exists_build hshape
    rw [hbuild, ite_eq_right_iff, Option.map_eq_none_iff, ← Option.not_isSome_iff_eq_none]
    intro _ hrow
    have hpart := Row.isSome_of_gather hrow hs
    rw [soleMember?_repeated h] at hpart
    cases hpart

private theorem readsThrough_field (hshape : k.shape = .record slots) (hs : s ∈ slots)
    (before after : List (Option String × Value)) :
    ReadsThrough k s.kind fun u ↦ .obj (before ++ (some s.name, u) :: after) := by
  intro n
  have hdepth := depth_lt_member before after s.name
  cases n with
  | zero => exact readsThrough_of_unread hdepth fun u ↦ Kind.read?_zero hshape _
  | succ n =>
    obtain ⟨build, hbuild⟩ := Kind.exists_build hshape
    -- Whether the object can be read apart from the place does not hang on the value there.
    by_cases hall : (before ++ after).all (·.1.isSome)
    · by_cases hkey : some s.name ∈ (before ++ after).map Prod.fst
      · refine readsThrough_of_unread hdepth fun u ↦ read?_record_repeated hshape hs ?_ (n + 1)
        rw [(List.perm_middle.map Prod.fst).count_eq, List.map_cons, List.count_cons_self]
        exact Nat.succ_le_succ (List.count_pos_iff.mpr hkey)
      · have hothers (t : Slot) (ht : t ∈ slots) (hne : t ≠ s) (u w : Value) :
            (soleMember? (before ++ (some s.name, u) :: after) t.name).bind (t.read? n) =
              (soleMember? (before ++ (some s.name, w) :: after) t.name).bind (t.read? n) := by
          have hname : some s.name ≠ some t.name :=
            fun heq ↦ hne (eq_of_name_eq hshape hs ht (Option.some.inj heq).symm)
          rw [soleMember?_perm List.perm_middle, soleMember?_cons_of_ne hname,
            soleMember?_perm List.perm_middle, soleMember?_cons_of_ne hname]
        obtain ⟨rest, hrest⟩ := gather_through (Kind.nodup_names hshape).of_map hs
          (fun (u : Value) t ↦
            (soleMember? (before ++ (some s.name, u) :: after) t.name).bind (t.read? n)) hothers
        refine ⟨n, fun x ↦ (rest x).map build,
          fun u hu ↦ Nat.le_of_lt_succ ((hdepth u).trans_le hu), fun u _ ↦ ⟨nofun, ?_⟩⟩
        rw [hbuild, if_pos (by simpa using hall), hrest, soleMember?_perm List.perm_middle,
          soleMember?_cons_self hkey, Option.map_bind]
        rfl
    · refine readsThrough_of_unread hdepth fun u ↦ ?_
      rw [hbuild, if_neg (by simpa using hall)]

private theorem exists_record_zip {names : List String} {before : List Value} {name : String}
    (h : names[before.length]? = some name) (after : List Value) :
    ∃ front back, ∀ u, Value.record (names.zip (before ++ u :: after)) =
      .obj (front ++ (some name, u) :: back) := by
  obtain ⟨hlt, rfl⟩ := List.getElem?_eq_some_iff.mp h
  have hsplit : names = names.take before.length ++
      names[before.length] :: names.drop (before.length + 1) := by
    rw [← List.drop_eq_getElem_cons hlt, List.take_append_drop]
  have hfront : (names.take before.length).length = before.length :=
    List.length_take_of_le (Nat.le_of_lt hlt)
  refine ⟨((names.take before.length).zip before).map fun m ↦ (some m.1, m.2),
    ((names.drop (before.length + 1)).zip after).map fun m ↦ (some m.1, m.2), fun u ↦ ?_⟩
  nth_rewrite 1 [hsplit]
  rw [record_eq_obj, List.zip_append hfront, List.zip_cons_cons, List.map_append, List.map_cons]

private theorem readsThrough_position (hshape : k.shape = .record slots) {before : List Value}
    (hs : slots[before.length]? = some s) (after : List Value) :
    ReadsThrough k s.kind fun u ↦ .arr (before ++ u :: after) := by
  intro n
  have hname : (slots.map Slot.name)[before.length]? = some s.name := by
    rw [List.getElem?_map, hs, Option.map_some]
  obtain ⟨front, back, hrecord⟩ := exists_record_zip hname after
  by_cases hlength : ∀ u : Value, (before ++ u :: after).length ≤ slots.length
  · obtain ⟨m, rest, hdepth, hread⟩ :=
      readsThrough_field hshape (List.mem_of_getElem? hs) front back n
    refine ⟨m, rest, fun u hu ↦ hdepth u (le_of_eq_of_le ?_ hu), fun u hu ↦ ⟨nofun, ?_⟩⟩
    · exact (congrArg Value.depth (hrecord u)).symm.trans
        (depth_record_zip (by simpa using hlength u))
    · rw [Kind.read?_arr hshape (hlength u), hrecord]
      exact (hread u hu).2
  · refine readsThrough_of_unread (depth_lt_item before after) fun u ↦ ?_
    rw [← Option.not_isSome_iff_eq_none]
    intro hread
    obtain ⟨_, hv⟩ | ⟨values, hv, hvalues⟩ := Kind.record_cases hshape hread
    · cases hv
    · cases hv
      exact hlength fun w ↦ by simpa using hvalues

private theorem readsThrough_content {bare : List String} {contents : List (String × Kind)}
    {tag : String} (hshape : k.shape = .choice bare contents) (hmem : (tag, c) ∈ contents) :
    ReadsThrough k c fun u ↦ .obj [(some tag, u)] := by
  obtain ⟨inject, hinject⟩ := Kind.exists_inject hshape hmem
  have hdepth := depth_lt_member [] [] tag
  intro n
  cases n with
  | zero =>
    refine readsThrough_of_unread hdepth fun u ↦ ?_
    rw [← Option.not_isSome_iff_eq_none]
    intro hread
    obtain ⟨_, _, hv⟩ | ⟨m, _, _, hm, _⟩ := Kind.choice_cases hshape hread
    · cases hv
    · cases hm
  | succ n =>
    refine ⟨n, fun x ↦ some (inject x), fun u hu ↦ Nat.le_of_lt_succ ((hdepth u).trans_le hu),
      fun u _ ↦ ⟨nofun, ?_⟩⟩
    rw [hinject, Option.map_eq_bind]
    rfl

private theorem Place.readsThrough (h : Place k c place) : ReadsThrough k c place := by
  cases h with
  | item hshape before after =>
    obtain rfl := Kind.eq_list hshape
    exact readsThrough_item before after
  | present hshape =>
    obtain rfl := Kind.eq_option hshape
    exact readsThrough_present
  | field hshape hs before after => exact readsThrough_field hshape hs before after
  | position hshape before after hs => exact readsThrough_position hshape hs after
  | content hshape hmem => exact readsThrough_content hshape hmem

private theorem Node.readsThrough (h : Node k c place) : ReadsThrough k c place := by
  induction h with
  | root => exact fun n ↦ ⟨n, some, fun u hu ↦ hu, fun u hu ↦ ⟨hu, (Option.bind_fun_some _).symm⟩⟩
  | inside houter hinner ih => exact houter.readsThrough.comp ih

end Places

/-- Two spellings of one part: those that differ in the order of keys, in a key of no meaning, as
object and array, in a default that is left out, and as tag and object. -/
inductive Rewrite : Kind → Value → Value → Prop
  | permuted {k : Kind} {slots : List Slot} {members members' : List (Option String × Value)}
      (hshape : k.shape = .record slots) (h : members.Perm members') :
    Rewrite k (.obj members) (.obj members')
  | unknown {k : Kind} {slots : List Slot} {key : String} (hshape : k.shape = .record slots)
      (hkey : key ∉ slots.map Slot.name) (u : Value)
      (before after : List (Option String × Value)) :
    Rewrite k (.obj (before ++ after)) (.obj (before ++ (some key, u) :: after))
  | listed {k : Kind} {slots : List Slot} (hshape : k.shape = .record slots) (values : List Value)
      (h : values.length ≤ slots.length) :
    Rewrite k (.record ((slots.map Slot.name).zip values)) (.arr values)
  | default {k : Kind} {slots : List Slot} {s : Slot} {u : Value}
      (hshape : k.shape = .record slots) (hs : s ∈ slots) (hu : s.absent = some u)
      (before after : List (Option String × Value))
      (h : some s.name ∉ (before ++ after).map Prod.fst) :
    Rewrite k (.obj (before ++ after)) (.obj (before ++ (some s.name, u) :: after))
  | trailing {k : Kind} {slots : List Slot} {s : Slot} {u : Value}
      (hshape : k.shape = .record slots) (values : List Value)
      (hs : slots[values.length]? = some s) (hu : s.absent = some u) :
    Rewrite k (.arr values) (.arr (values ++ [u]))
  | bare {k : Kind} {bare : List String} {contents : List (String × Kind)} {tag : String}
      (hshape : k.shape = .choice bare contents) (htag : tag ∈ bare) :
    Rewrite k (.str (some tag)) (.obj [(some tag, .null)])

section Rewrites

variable {k : Kind} {slots : List Slot} {s : Slot} {n : Nat} {v w : Value}

private theorem Rewrite.ne_null (h : Rewrite k v w) : v ≠ .null ∧ w ≠ .null := by
  cases h <;> exact ⟨nofun, nofun⟩

private theorem read?_obj_congr {members members' : List (Option String × Value)}
    (hshape : k.shape = .record slots)
    (hall : members.all (·.1.isSome) = members'.all (·.1.isSome))
    (h : ∀ s ∈ slots, (soleMember? members s.name).bind (s.read? n) =
      (soleMember? members' s.name).bind (s.read? n)) :
    k.read? (n + 1) (.obj members) = k.read? (n + 1) (.obj members') := by
  obtain ⟨build, hbuild⟩ := Kind.exists_build hshape
  rw [hbuild, hbuild, hall, Row.gather_congr h]

private theorem read?_permuted {members members' : List (Option String × Value)}
    (hshape : k.shape = .record slots) (h : members.Perm members') :
    k.read? n (.obj members) = k.read? n (.obj members') := by
  cases n with
  | zero => rw [Kind.read?_zero hshape, Kind.read?_zero hshape]
  | succ n =>
    exact read?_obj_congr hshape h.all_eq fun s _ ↦ by rw [soleMember?_perm h]

private theorem read?_unknown {members : List (Option String × Value)} {key : String} {u : Value}
    (hshape : k.shape = .record slots) (h : key ∉ slots.map Slot.name) :
    k.read? n (.obj members) = k.read? n (.obj ((some key, u) :: members)) := by
  cases n with
  | zero => rw [Kind.read?_zero hshape, Kind.read?_zero hshape]
  | succ n =>
    refine read?_obj_congr hshape (by simp) fun s hs ↦ ?_
    rw [soleMember?_cons_of_ne fun heq ↦ h (List.mem_map.mpr ⟨s, hs, (Option.some.inj heq).symm⟩)]

private theorem read?_default {members : List (Option String × Value)} {u : Value}
    (hshape : k.shape = .record slots) (hs : s ∈ slots) (hu : s.absent = some u)
    (h : some s.name ∉ members.map Prod.fst) (hdepth : u.depth < n) :
    k.read? n (.obj members) = k.read? n (.obj ((some s.name, u) :: members)) := by
  cases n with
  | zero => cases hdepth
  | succ n =>
    refine read?_obj_congr hshape (by simp) fun t ht ↦ ?_
    by_cases hname : t.name = s.name
    · obtain rfl := eq_of_name_eq hshape hs ht hname
      rw [soleMember?_of_notMem h, soleMember?_cons_self h, Option.bind_some, Option.bind_some,
        Slot.read?, Slot.read?, hu, Option.bind_some]
      exact (Kind.read?_eq_of_depth_le (Nat.le_of_lt_succ hdepth)).symm
    · rw [soleMember?_cons_of_ne fun heq ↦ hname (Option.some.inj heq).symm]

private theorem zip_concat {names : List String} {values : List Value} {name : String}
    (hnames : names.Nodup) (h : names[values.length]? = some name) (u : Value) :
    names.zip (values ++ [u]) = names.zip values ++ [(name, u)] ∧
      name ∉ (names.zip values).map Prod.fst := by
  induction names generalizing values with
  | nil => cases h
  | cons first names ih =>
    obtain ⟨hfirst, hnames⟩ := List.nodup_cons.mp hnames
    cases values with
    | nil => simp_all
    | cons v values =>
      obtain ⟨hzip, hname⟩ := ih hnames h
      refine ⟨by simp [hzip], ?_⟩
      rw [List.zip_cons_cons, List.map_cons, List.mem_cons, not_or]
      refine ⟨?_, hname⟩
      rintro rfl
      exact hfirst (List.mem_of_getElem? h)

private theorem read?_trailing {values : List Value} {u : Value} (hshape : k.shape = .record slots)
    (hs : slots[values.length]? = some s) (hu : s.absent = some u) (hdepth : u.depth < n) :
    k.read? n (.arr values) = k.read? n (.arr (values ++ [u])) := by
  have hlength : values.length < slots.length := (List.getElem?_eq_some_iff.mp hs).1
  have hname : (slots.map Slot.name)[values.length]? = some s.name := by
    rw [List.getElem?_map, hs, Option.map_some]
  obtain ⟨hzip, hnotMem⟩ := zip_concat (Kind.nodup_names hshape) hname u
  have habsent : some s.name ∉
      (((slots.map Slot.name).zip values).map fun m ↦ (some m.1, m.2)).map Prod.fst := by
    simpa using hnotMem
  rw [Kind.read?_arr hshape hlength.le, Kind.read?_arr hshape (by simpa using hlength), hzip,
    record_eq_obj, record_eq_obj, List.map_append, List.map_singleton,
    read?_permuted hshape (List.perm_append_singleton _ _)]
  exact read?_default hshape (List.mem_of_getElem? hs) hu habsent hdepth

private theorem Rewrite.read?_eq (h : Rewrite k v w) (hv : v.depth ≤ n) (hw : w.depth ≤ n) :
    k.read? n v = k.read? n w := by
  cases h with
  | permuted hshape hperm => exact read?_permuted hshape hperm
  | unknown hshape hkey u before after =>
    rw [read?_permuted hshape List.perm_middle]
    exact read?_unknown hshape hkey
  | listed hshape values hlength => exact (Kind.read?_arr hshape hlength n).symm
  | default hshape hs hu before after habsent =>
    rw [read?_permuted hshape List.perm_middle]
    exact read?_default hshape hs hu habsent ((depth_lt_member ..).trans_le hw)
  | trailing hshape values hs hu =>
    exact read?_trailing hshape hs hu ((depth_lt_item values [] _).trans_le hw)
  | bare hshape hmem =>
    cases n with
    | zero => simp [Value.depth] at hw
    | succ n =>
      obtain ⟨x, htag, hobj⟩ := Kind.exists_bare hshape hmem
      rw [htag, hobj]

end Rewrites

/-- Two spellings that differ by one rewrite at one node. -/
inductive RewriteAt (k : Kind) : Value → Value → Prop
  | node {c : Kind} {place : Value → Value} {u w : Value} (hnode : Node k c place)
      (h : Rewrite c u w) : RewriteAt k (place u) (place w)

/-- Two spellings that differ by rewrites at any nodes, in any number and either way. -/
def Respelled (k : Kind) : Value → Value → Prop := Relation.EqvGen (RewriteAt k)

/-- The keys that have a meaning in an object. -/
def Kind.Shape.keys : Kind.Shape → List String
  | record slots => slots.map Slot.name
  | choice bare contents => bare ++ contents.map Prod.fst
  | _ => []

section Spellings

variable {k : Kind} {v w : Value}

private theorem RewriteAt.read?_eq (h : RewriteAt k v w) :
    k.read? v.depth v = k.read? w.depth w := by
  obtain ⟨hnode, hrewrite⟩ := h
  rename_i c place u u'
  obtain ⟨m, rest, hdepth, hread⟩ := hnode.readsThrough (max (place u).depth (place u').depth)
  have hu : u.depth ≤ m := hdepth u (le_max_left ..)
  have hu' : u'.depth ≤ m := hdepth u' (le_max_right ..)
  obtain ⟨hnull, hnull'⟩ := hrewrite.ne_null
  calc k.read? (place u).depth (place u)
      = k.read? (max (place u).depth (place u').depth) (place u) :=
        (Kind.read?_eq_of_depth_le (le_max_left ..)).symm
    _ = (c.read? m u).bind rest := (hread u hnull).2
    _ = (c.read? m u').bind rest := by rw [hrewrite.read?_eq hu hu']
    _ = k.read? (max (place u).depth (place u').depth) (place u') := (hread u' hnull').2.symm
    _ = k.read? (place u').depth (place u') := Kind.read?_eq_of_depth_le (le_max_right ..)

private theorem Respelled.read?_eq (h : Respelled k v w) : k.read? v.depth v = k.read? w.depth w :=
  by
  induction h with
  | rel v w hrewrite => exact hrewrite.read?_eq
  | refl v => rfl
  | symm v w _ ih => exact ih.symm
  | trans u v w _ _ ihuv ihvw => exact ihuv.trans ihvw

/-- An object that repeats a key is not read as any part that gives the key a meaning. -/
theorem Kind.read?_repeated {members : List (Option String × Value)} {key : String}
    (hkey : key ∈ k.shape.keys) (h : 2 ≤ (members.map Prod.fst).count (some key)) (n : Nat) :
    k.read? n (.obj members) = none := by
  cases hshape : k.shape with
  | record slots =>
    rw [hshape] at hkey
    obtain ⟨s, hs, rfl⟩ := List.mem_map.mp hkey
    exact read?_record_repeated hshape hs h n
  | choice bare contents =>
    rw [← Option.not_isSome_iff_eq_none]
    intro hread
    obtain ⟨_, _, hv⟩ | ⟨_, tag, content, _, hv, _⟩ := Kind.choice_cases hshape hread
    · cases hv
    · cases hv
      have hcount : [some tag].count (some key) ≤ 1 := List.count_le_length
      exact absurd (h.trans hcount) (by decide)
  | _ => simp [hshape, Kind.Shape.keys] at hkey

/-- Where a node is not read, nothing is read. -/
theorem Node.read?_eq_none {c : Kind} {place : Value → Value} {u : Value} (h : Node k c place)
    (hnull : u ≠ .null) (hu : ∀ n, c.read? n u = none) (n : Nat) : k.read? n (place u) = none := by
  obtain ⟨m, rest, -, hread⟩ := h.readsThrough n
  rw [(hread u hnull).2, hu m, Option.bind_none]

end Spellings

/-- Spellings that differ by rewrites stand for one program, and those of what a program is written
as for that program. Of texts with such spellings, if one is read then the other one is read as the
same program, or nests too deep to be read. A spelling with a node that repeats a key of some
meaning stands for no program, and no text with it is read. -/
theorem spellings_agree (v : Value) :
    (∀ w p, Respelled .program v w → Program.ofJson? v = some p → Program.ofJson? w = some p) ∧
    (∀ p : Program, Respelled .program p.toJson v → Program.ofJson? v = some p) ∧
    (∀ w p text text', Respelled .program v w → Json.read? text = some v →
      Json.read? text' = some w → Program.read? text = some p →
      Program.read? text' = some p ∨ Program.read? text' = none ∧ nestingLimit < w.depth) ∧
    ∀ c place members key, Node .program c place → v = place (.obj members) →
      key ∈ c.shape.keys → 2 ≤ (members.map Prod.fst).count (some key) →
      Program.ofJson? v = none ∧ ∀ text, Json.read? text = some v → Program.read? text = none := by
  refine ⟨fun w p h hv ↦ h.read?_eq.symm.trans hv, fun p h ↦ ?_,
    fun w p text text' h htext htext' hread ↦ ?_,
    fun c place members key hnode hv hkey hcount ↦ ?_⟩
  · have hwritten : Program.ofJson? p.toJson = some p :=
      ((stands_program p).reads _).trans (if_pos le_rfl)
    exact h.read?_eq.symm.trans hwritten
  · rw [Program.read?, htext, Option.bind_some] at hread
    rw [Program.read?, htext', Option.bind_some]
    have hv : Kind.program.read? v.depth v = some p :=
      Kind.program.steady nestingLimit hread (.inr le_rfl)
    have hw : Kind.program.read? w.depth w = some p := h.read?_eq.symm.trans hv
    cases hread' : readProgram? nestingLimit w with
    | none =>
      refine .inr ⟨rfl, lt_of_not_ge fun hdepth ↦ ?_⟩
      have hfits := Kind.program.steady w.depth hw (.inl hdepth)
      exact absurd (hread'.symm.trans hfits) (Option.some_ne_none p).symm
    | some q => exact .inl ((Kind.program.steady nestingLimit hread' (.inr le_rfl)).symm.trans hw)
  · have hnone (n : Nat) : readProgram? n v = none := by
      rw [hv]
      exact hnode.read?_eq_none (Value.noConfusion : Value.obj members ≠ .null)
        (Kind.read?_repeated hkey hcount) n
    refine ⟨hnone _, fun text htext ↦ ?_⟩
    rw [Program.read?, htext, Option.bind_some, hnone]

/-- A program with one class that has one field. -/
def oneField (field : Value) : Value :=
  .record [("classes", .arr [.record [("name", .text "A"), ("fields", .arr [field])]])]

private theorem node_oneField : Node .program .field oneField :=
  .inside (.field (s := .needed "classes" (.list .classDecl)) rfl (.head _) [] []) <|
  .inside (.item rfl [] []) <|
  .inside (.field (s := .list "fields" .field) rfl (.tail _ (.head _))
    [(some "name", .text "A")] []) <|
  .inside (.item rfl [] []) .root

/-- A key of no meaning is dropped, the keys are put in order, the record becomes an array, a
default is written out, and a tag becomes an object. -/
theorem respelled_oneField :
    Respelled .program
      (oneField (.record [("ty", .text "int"), ("note", .arr []), ("name", .text "n")]))
      (oneField (.arr [.text "n", .record [("int", .null)], .bool false])) := by
  have hunknown : Rewrite .field (.record [("ty", .text "int"), ("name", .text "n")])
      (.record [("ty", .text "int"), ("note", .arr []), ("name", .text "n")]) :=
    .unknown rfl (by decide) (.arr []) [(some "ty", .text "int")] [(some "name", .text "n")]
  have hpermuted : Rewrite .field (.record [("ty", .text "int"), ("name", .text "n")])
      (.record [("name", .text "n"), ("ty", .text "int")]) := .permuted rfl (.swap ..)
  have hlisted : Rewrite .field (.record [("name", .text "n"), ("ty", .text "int")])
      (.arr [.text "n", .text "int"]) :=
    @Rewrite.listed .field _ rfl [.text "n", .text "int"] (by decide)
  have htrailing : Rewrite .field (.arr [.text "n", .text "int"])
      (.arr [.text "n", .text "int", .bool false]) :=
    .trailing rfl [.text "n", .text "int"] rfl rfl
  have hbare : Rewrite .type (.text "int") (.record [("int", .null)]) := .bare rfl (.head _)
  have htype : Node .field .type fun u ↦ .arr [.text "n", u, .bool false] :=
    .inside (.position (s := .needed "ty" .type) rfl [.text "n"] [.bool false] rfl) .root
  have htag := RewriteAt.node (node_oneField.trans htype) hbare
  exact .trans _ _ _ (.symm _ _ (.rel _ _ (.node node_oneField hunknown))) <|
    .trans _ _ _ (.rel _ _ (.node node_oneField hpermuted)) <|
    .trans _ _ _ (.rel _ _ (.node node_oneField hlisted)) <|
    .trans _ _ _ (.rel _ _ (.node node_oneField htrailing)) <|
    .rel _ _ htag

/-- The respelled program is read as the one before, and a field with two names is not read. -/
theorem spellings_agree_oneField :
    Respelled .program
        (oneField (.record [("ty", .text "int"), ("note", .arr []), ("name", .text "n")]))
        (oneField (.arr [.text "n", .record [("int", .null)], .bool false])) ∧
      Program.ofJson? (oneField (.arr [.text "n", .record [("int", .null)], .bool false])) =
        some ⟨[⟨"A", [⟨"n", .int, false, false⟩], []⟩]⟩ ∧
      Program.ofJson? (oneField (.record [("name", .text "n"), ("name", .text "n"),
        ("ty", .text "int")])) = none :=
  ⟨respelled_oneField, (spellings_agree _).1 _ _ respelled_oneField rfl,
    ((spellings_agree _).2.2.2 _ _ _ "name" node_oneField rfl (by decide) (by decide)).1⟩

end NativeBackend.Tree
