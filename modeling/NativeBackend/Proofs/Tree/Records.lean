import Mathlib
import NativeBackend.Proofs.Json.RoundTrip
import NativeBackend.Tree.Reading
import NativeBackend.Tree.Writing

/-!
# Values that stand for parts of a tree

A value stands for a part of a tree if the reader of such parts takes it for that part within every
nesting that the value fits in, and refuses it within every other one. So a reader neither
gives up early nor goes deeper than it may. The three ways in which parts are put together
keep that: a record of fields, an alternative with its tag, and an array of items. Before that
stands what a key has among the members of an object, and that the array of the first fields of a
record has the same fields as the object with their names.
-/

namespace NativeBackend.Tree

open Json

variable {α β : Type}

/-- The value `v` is what the reader takes for `x`, within a nesting exactly when it fits in. -/
structure Stands (read : Nat → Value → Option α) (v : Value) (x : α) : Prop where
  whole : v.Whole
  reads (n : Nat) : read n v = if v.depth ≤ n then some x else none

section Guards

variable {p : Prop} [Decidable p] {x : α}

/-- What is done with a guarded value is guarded. -/
theorem bind_guarded (f : α → Option β) :
    (if p then some x else none).bind f = if p then f x else none := by
  split_ifs <;> rfl

private theorem map_guarded (f : α → β) :
    (if p then some x else none).map f = if p then some (f x) else none := by
  split_ifs <;> rfl

end Guards

private theorem mapM_congr {f g : α → Option β} {xs : List α} (h : ∀ x ∈ xs, f x = g x) :
    xs.mapM f = xs.mapM g := by
  induction xs with
  | nil => rfl
  | cons x xs ih =>
    obtain ⟨hx, hxs⟩ := List.forall_mem_cons.mp h
    rw [List.mapM_cons, List.mapM_cons, hx, ih hxs]

/-- A list that is read is read alike by whatever reads its elements alike. -/
theorem mapM_mono {f g : α → Option β} {xs : List α} {ys : List β}
    (h : ∀ x ∈ xs, ∀ y, f x = some y → g x = some y) (hf : xs.mapM f = some ys) :
    xs.mapM g = some ys := by
  induction xs generalizing ys with
  | nil => exact hf
  | cons x xs ih =>
    obtain ⟨hx, hxs⟩ := List.forall_mem_cons.mp h
    simp only [List.mapM_cons, Option.bind_eq_bind, Option.bind_eq_some_iff] at hf ⊢
    obtain ⟨y, hy, ys, hys, heq⟩ := hf
    exact ⟨y, hx y hy, ys, ih hxs hys, heq⟩

private theorem length_of_mapM {f : α → Option β} {xs : List α} {ys : List β}
    (h : xs.mapM f = some ys) : ys.length = xs.length := by
  induction xs generalizing ys with
  | nil => cases h; rfl
  | cons x xs ih =>
    simp only [List.mapM_cons, Option.bind_eq_bind, Option.bind_eq_some_iff] at h
    obtain ⟨y, -, ys, hys, heq⟩ := h
    cases heq
    rw [List.length_cons, List.length_cons, ih hys]

section Depths

variable {n : Nat}

/-- An array is one level deeper than its deepest element. -/
theorem depth_arr_le_iff {items : List Value} :
    (Value.arr items).depth ≤ n + 1 ↔ ∀ v ∈ items, v.depth ≤ n := by
  rw [Value.depth, Nat.add_le_add_iff_right]
  induction items with
  | nil => simp [Value.depthOfItems]
  | cons v items ih => simp [Value.depthOfItems, ih]

/-- An element is less deep than its array. -/
theorem depth_lt_arr {u : Value} {items : List Value} (h : u ∈ items) :
    u.depth < (Value.arr items).depth := by
  rw [Value.depth]
  exact Nat.lt_succ_of_le (depth_arr_le_iff.mp (by rw [Value.depth]) u h)

/-- A record is an object with proper keys. -/
theorem record_eq_obj (members : List (String × Value)) :
    Value.record members = .obj (members.map fun m ↦ (some m.1, m.2)) := rfl

/-- An object is as deep as an array of its values. -/
theorem depth_obj (members : List (Option String × Value)) :
    (Value.obj members).depth = (Value.arr (members.map Prod.snd)).depth := by
  rw [Value.depth, Value.depth]
  induction members with
  | nil => rfl
  | cons m members ih => simp_all [Value.depthOfMembers, Value.depthOfItems]

/-- A record is as deep as an array of its values. -/
theorem depth_record_zip {names : List String} {values : List Value}
    (h : values.length ≤ names.length) :
    (Value.record (names.zip values)).depth = (Value.arr values).depth := by
  rw [record_eq_obj, depth_obj, List.map_map]
  exact congrArg (Value.depth ∘ Value.arr) (List.map_snd_zip h)

end Depths

section Members

variable {members members' : List (Option String × Value)} {key : String} {v : Value}

/-- The order of members has no meaning. -/
theorem soleMember?_perm (h : members.Perm members') :
    soleMember? members key = soleMember? members' key := by
  have hfilter := h.filter (·.1 == some key)
  rcases hfound : members.filter (·.1 == some key) with _ | ⟨m, _ | ⟨m', rest⟩⟩
  · rw [hfound, List.nil_perm] at hfilter
    rw [soleMember?, soleMember?, hfound, hfilter]
  · rw [hfound, List.singleton_perm] at hfilter
    rw [soleMember?, soleMember?, hfound, ← hfilter]
  · rcases hfound' : members'.filter (·.1 == some key) with _ | ⟨w, _ | ⟨w', rest'⟩⟩
    all_goals rw [hfound, hfound'] at hfilter
    · simpa using hfilter.length_eq
    · simpa using hfilter.length_eq
    · rw [soleMember?, soleMember?, hfound, hfound']

private theorem filter_eq_nil (h : some key ∉ members.map Prod.fst) :
    members.filter (·.1 == some key) = [] :=
  List.filter_eq_nil_iff.mpr fun m hm hkey ↦ h (List.mem_map.mpr ⟨m, hm, beq_iff_eq.mp hkey⟩)

/-- A member that is not there is absent, which is no error. -/
theorem soleMember?_of_notMem (h : some key ∉ members.map Prod.fst) :
    soleMember? members key = some none := by
  rw [soleMember?, filter_eq_nil h]

/-- A member with a key of its own is found. -/
theorem soleMember?_cons_self (h : some key ∉ members.map Prod.fst) :
    soleMember? ((some key, v) :: members) key = some (some v) := by
  rw [soleMember?, List.filter_cons_of_pos (by simp), filter_eq_nil h]

/-- Members with other keys are passed over. -/
theorem soleMember?_cons_of_ne {m : Option String × Value} (h : m.1 ≠ some key) :
    soleMember? (m :: members) key = soleMember? members key := by
  rw [soleMember?, List.filter_cons_of_neg (by simpa using h), ← soleMember?]

/-- A repeated member is an error. -/
theorem soleMember?_repeated (h : 2 ≤ (members.map Prod.fst).count (some key)) :
    soleMember? members key = none := by
  have hlength : 2 ≤ (members.filter (·.1 == some key)).length := by
    rwa [← List.countP_eq_length_filter, ← Function.comp_def (· == some key) Prod.fst,
      ← List.countP_map]
  rw [soleMember?]
  split <;> simp_all

/-- A member that is found is there. -/
theorem mem_of_soleMember? (h : soleMember? members key = some (some v)) :
    (some key, v) ∈ members := by
  rw [soleMember?] at h
  split at h
  · cases h
  · next k w heq =>
    obtain ⟨hmem, hkey⟩ := List.mem_filter.mp (heq ▸ List.mem_singleton_self (k, w))
    cases h
    rwa [← beq_iff_eq.mp hkey]
  · cases h

end Members

section Records

/-- There is a value or none for every field. -/
theorem length_fieldsOf? {names : List String} {v : Value} {values : List (Option Value)}
    (h : fieldsOf? names v = some values) : values.length = names.length := by
  cases v with
  | obj members =>
    rw [fieldsOf?] at h
    split_ifs at h
    exact length_of_mapM h
  | arr items =>
    rw [fieldsOf?] at h
    split_ifs at h with hlength
    cases h
    simp [hlength]
  | _ => cases h

private theorem mapM_soleMember? {names : List String} {values : List Value}
    (hlength : values.length ≤ names.length) (hnames : names.Nodup) :
    names.mapM (soleMember? ((names.zip values).map fun m ↦ (some m.1, m.2))) =
      some (values.map some ++ List.replicate (names.length - values.length) none) := by
  induction names generalizing values with
  | nil =>
    obtain rfl := List.length_eq_zero_iff.mp (Nat.le_zero.mp hlength)
    rfl
  | cons name names ih =>
    obtain ⟨hname, hnames⟩ := List.nodup_cons.mp hnames
    cases values with
    | nil =>
      have hrest := @ih [] (Nat.zero_le _) hnames
      rw [List.zip_nil_right] at hrest ⊢
      rw [List.mapM_cons, hrest]
      rfl
    | cons v values =>
      have hrest := ih (Nat.le_of_succ_le_succ hlength) hnames
      have hfirst : some name ∉ ((names.zip values).map fun m ↦ (some m.1, m.2)).map Prod.fst := by
        simp only [List.map_map, List.mem_map, Function.comp_apply, Option.some.injEq]
        rintro ⟨m, hm, rfl⟩
        exact hname (List.of_mem_zip hm).1
      have hne (other : String) (hother : other ∈ names) : some name ≠ some other :=
        fun heq ↦ hname (Option.some.inj heq ▸ hother)
      rw [List.zip_cons_cons, List.map_cons, List.mapM_cons, soleMember?_cons_self hfirst,
        mapM_congr fun other hother ↦ soleMember?_cons_of_ne (hne other hother), hrest]
      simp

/-- A record with the first of its keys, each once, has the fields of an array. -/
theorem fieldsOf?_record_zip {names : List String} {values : List Value}
    (hlength : values.length ≤ names.length) (hnames : names.Nodup) :
    fieldsOf? names (.record (names.zip values)) = fieldsOf? names (.arr values) := by
  rw [record_eq_obj, fieldsOf?, if_pos (by simp), mapM_soleMember? hlength hnames, fieldsOf?,
    if_pos hlength]

/-- A record with each of its keys once has its fields under their names. -/
theorem fieldsOf?_record (names : List String) (values : List Value)
    (hlength : names.length = values.length) (hnames : names.Nodup) :
    fieldsOf? names (.record (names.zip values)) = some (values.map some) := by
  rw [fieldsOf?_record_zip hlength.ge hnames, fieldsOf?, if_pos hlength.ge]
  simp [hlength]

/-- A record stands for what its fields make. -/
theorem Stands.record {read : Nat → Value → Option α} (names : List String) (values : List Value)
    {x : α} (hlength : names.length = values.length) (hnames : names.Nodup)
    (hwhole : ∀ v ∈ values, v.Whole) (hzero : ∀ v, read 0 v = none)
    (hsucc : ∀ n v, fieldsOf? names v = some (values.map some) →
      read (n + 1) v = if ∀ w ∈ values, w.depth ≤ n then some x else none) :
    Stands read (.record (names.zip values)) x := by
  refine ⟨.obj fun m hm ↦ ?_, fun n ↦ ?_⟩
  · obtain ⟨⟨name, v⟩, hmem, rfl⟩ := List.mem_map.mp hm
    exact hwhole v (List.of_mem_zip hmem).2
  · cases n with
    | zero => rw [hzero, if_neg (by simp [Value.record, Value.depth])]
    | succ n =>
      rw [hsucc n _ (fieldsOf?_record names values hlength hnames)]
      simp only [depth_record_zip hlength.ge, depth_arr_le_iff]

end Records

section Alternatives

private theorem depth_tagged (tag : String) (v : Value) : (tagged tag v).depth = v.depth + 1 := by
  simp [tagged, Value.record, Value.depth, Value.depthOfMembers]

/-- An alternative stands for what its content stands for. -/
theorem Stands.tagged {inner read : Nat → Value → Option α} {tag : String} {v : Value} {x : α}
    (h : Stands inner v x) (hzero : read 0 (tagged tag v) = none)
    (hsucc : ∀ n, read (n + 1) (tagged tag v) = inner n v) : Stands read (tagged tag v) x := by
  refine ⟨.obj fun m hm ↦ ?_, fun n ↦ ?_⟩
  · obtain rfl := List.mem_singleton.mp hm
    exact h.whole
  · cases n with
    | zero => rw [hzero, depth_tagged, if_neg (by omega)]
    | succ n =>
      rw [hsucc, h.reads, depth_tagged]
      simp only [Nat.add_le_add_iff_right]

/-- What is read can be made into something else. -/
theorem Stands.map {read : Nat → Value → Option α} {v : Value} {x : α} (h : Stands read v x)
    (make : α → β) : Stands (fun n v ↦ (read n v).map make) v (make x) :=
  ⟨h.whole, fun n ↦ by rw [h.reads, map_guarded]⟩

/-- A tag alone stands for the alternative that has no content. -/
theorem Stands.bare {read : Nat → Value → Option α} {tag : String} {x : α}
    (h : ∀ n, read n (.text tag) = some x) : Stands read (.text tag) x :=
  ⟨.str _, fun n ↦ (h n).trans (if_pos (Nat.zero_le n)).symm⟩

/-- Null stands for what is left out. -/
theorem Stands.absent {read : Nat → Value → Option α} :
    Stands (fun n ↦ optional (read n)) .null none :=
  ⟨.null, fun n ↦ (if_pos (Nat.zero_le n)).symm⟩

/-- Any other value stands for what it stands for anyway. -/
theorem Stands.present {read : Nat → Value → Option α} {v : Value} {x : α} (h : Stands read v x)
    (hv : v ≠ .null) : Stands (fun n ↦ optional (read n)) v (some x) := by
  refine ⟨h.whole, fun n ↦ ?_⟩
  have hread : optional (read n) v = (read n v).map some := by
    cases v with
    | null => exact absurd rfl hv
    | _ => rfl
  rw [hread, h.reads, map_guarded]

end Alternatives

section Lists

variable {read : Nat → Value → Option α} {toJson : α → Value} {xs : List α}

private theorem mapM_stands (h : ∀ x ∈ xs, Stands read (toJson x) x) (n : Nat) :
    (xs.map toJson).mapM (read n) =
      if Value.depthOfItems (xs.map toJson) ≤ n then some xs else none := by
  induction xs with
  | nil => rfl
  | cons x xs ih =>
    obtain ⟨hx, hxs⟩ := List.forall_mem_cons.mp h
    rw [List.map_cons, List.mapM_cons, hx.reads, ih hxs, Value.depthOfItems]
    simp only [Option.bind_eq_bind, bind_guarded, Option.pure_def, max_le_iff, ite_and]

/-- An array stands for the list of what its items stand for. -/
theorem Stands.items (h : ∀ x ∈ xs, Stands read (toJson x) x) :
    Stands (items? read) (.arr (xs.map toJson)) xs := by
  refine ⟨.arr fun v hv ↦ ?_, fun n ↦ ?_⟩
  · obtain ⟨x, hx, rfl⟩ := List.mem_map.mp hv
    exact (h x hx).whole
  · cases n with
    | zero => simp [items?, Value.depth]
    | succ n =>
      rw [items?, mapM_stands h]
      simp only [Value.depth, Nat.add_le_add_iff_right]

/-- Arguments are read as a list of expressions. -/
theorem readArguments?_eq : readArguments? = items? readExpression? := by
  funext n v
  cases n <;> cases v <;> rfl

/-- A body is read as a list of statements. -/
theorem readStatements?_eq : readStatements? = items? readStatement? := by
  funext n v
  cases n <;> cases v <;> rfl

end Lists

end NativeBackend.Tree
