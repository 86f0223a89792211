import SolidServer.Library.HashMap
import SolidServer.Library.Json

/-!
# Derived serialization

A `Serde α` writes the values of a type as JSON values and reads them back.  The ones for
strings, numbers, options, vectors and maps are put together to those of records: a record is
an object with a member for each of its fields.  A `RecordField` leaves its member out for the
values that `skip` names, and has the value `absent` where no member bears its name, so every
value is read back if `absent` is the only one that is left out.
-/

open Text

/-- How the values of a type are written as JSON values and read back. -/
structure Serde (α : Type) where
  serialize : α → Json
  deserialize : Json → Option α

namespace Serde

variable {α : Type}

/-- Every value is read back. -/
def Exact (S : Serde α) : Prop :=
  ∀ a, S.deserialize (S.serialize a) = some a

/-- Arrays and objects are nested at most `n` deep. -/
def Within (S : Serde α) (n : ℕ) : Prop :=
  ∀ a, (S.serialize a).depth ≤ n

/-- A string. -/
def string : Serde Str where
  serialize := .string
  deserialize j :=
    match j with
    | .string s => some s
    | _ => none

/-- A natural number of 64 bits. -/
def u64 : Serde UInt64 where
  serialize := .number
  deserialize j :=
    match j with
    | .number n => some n
    | _ => none

/-- A value that may be missing, for which `null` stands then. -/
def option (S : Serde α) : Serde (Option α) where
  serialize o := o.elim .null S.serialize
  deserialize j :=
    match j with
    | .null => some none
    | j => (S.deserialize j).map some

/-- The items of an array. -/
def vec (S : Serde α) : Serde (List α) where
  serialize as := .array (as.map S.serialize)
  deserialize j :=
    match j with
    | .array js => js.mapM S.deserialize
    | _ => none

/-- The members of an object, the last of those with the same name. -/
def map (order : IterationOrder (Str × α)) (S : Serde α) : Serde (HashMap Str α) where
  serialize m := .object ((m.iter order).map fun e => (e.1, S.serialize e.2))
  deserialize j :=
    match j with
    | .object ms => ms.foldlM (fun m e => (S.deserialize e.2).map fun a => m.insert e.1 a) ∅
    | _ => none

/-! ### Reading back -/

theorem string_exact :
  string.Exact
  := fun _ => rfl

theorem u64_exact :
  u64.Exact
  := fun _ => rfl

/-- What is not `null` is a value. -/
theorem deserialize_option {S : Serde α} {j : Json} (h : j ≠ .null) :
  S.option.deserialize j = (S.deserialize j).map some
  := by
  cases j with
  | null => exact absurd rfl h
  | _ => rfl

/-- An option is read back, if no value is written as `null`. -/
theorem option_exact {S : Serde α} (h : S.Exact) (hnull : ∀ a, S.serialize a ≠ .null) :
  S.option.Exact
  := by
  intro o
  cases o with
  | none => rfl
  | some a =>
      change S.option.deserialize (S.serialize a) = some (some a)
      rw [deserialize_option (hnull a), h a, Option.map_some]

/-- A vector is read back, item by item. -/
theorem vec_exact {S : Serde α} (h : S.Exact) :
  S.vec.Exact
  := by
  intro as
  change (as.map S.serialize).mapM S.deserialize = some as
  induction as with
  | nil => rfl
  | cons a as ih => rw [List.map_cons, List.mapM_cons, h a, ih]; rfl

/-- A map is read back, with its entries inserted in the order they were written in. -/
theorem map_restores {S : Serde α} (h : S.Exact) (order : IterationOrder (Str × α))
    (m : HashMap Str α) :
  ∃ back, (S.map order).deserialize ((S.map order).serialize m) = some back
    ∧ ∀ k, back.lookup k = m.lookup k
  := by
  have inserts : ∀ (es : List (Str × α)) (m : HashMap Str α),
      (es.map fun e => (e.1, S.serialize e.2)).foldlM
        (fun m e => (S.deserialize e.2).map fun a => m.insert e.1 a) m
      = some (es.foldl (fun m e => m.insert e.1 e.2) m) := by
    intro es
    induction es with
    | nil => exact fun _ => rfl
    | cons e es ih =>
        intro m
        rw [List.map_cons, List.foldlM_cons, h e.2, Option.map_some, Option.bind_eq_bind,
          Option.bind_some, ih, List.foldl_cons]
  refine ⟨_, inserts _ _, ?_⟩
  intro k
  apply Option.ext
  intro v
  rw [HashMap.lookup_foldl_insert ∅ (m.nodup_keys_iter order), HashMap.mem_iter]
  simp

/-! ### Records -/

/-- A field of a record, whose member bears the name. -/
structure RecordField (α : Type) where
  name : Str
  serde : Serde α
  skip : α → Bool
  absent : Option α

namespace RecordField

/-- A field whose member has to be there. -/
def required (name : String) (S : Serde α) : RecordField α where
  name := name.toList
  serde := S
  skip _ := false
  absent := none

/-- A field that is `none` without its member, which is always written. -/
def optional (name : String) (S : Serde α) : RecordField (Option α) where
  name := name.toList
  serde := S.option
  skip _ := false
  absent := some none

/-- A field that has the default value without its member, which is not written for the values
that `skip` names. -/
def skipped (name : String) (S : Serde α) (skip : α → Bool) (default : α) :
    RecordField α where
  name := name.toList
  serde := S
  skip := skip
  absent := some default

/-- The name and what is written for a value, unless the member is left out. -/
def write (f : RecordField α) (a : α) : Str × Option Json :=
  (f.name, if f.skip a then none else some (f.serde.serialize a))

/-- The value in the members of a record, of which at most one may bear the name. -/
def read (f : RecordField α) (members : List (Str × Json)) : Option α :=
  match members.filter fun e => e.1 = f.name with
  | [] => f.absent
  | [e] => f.serde.deserialize e.2
  | _ => none

/-- What is read back for a value. -/
def restored (f : RecordField α) (a : α) : Option α :=
  if f.skip a then f.absent else f.serde.deserialize (f.serde.serialize a)

/-- Every value is read back: only the absent value is left out. -/
structure Exact (f : RecordField α) : Prop where
  serde : f.serde.Exact
  absent : ∀ a, f.skip a = true → f.absent = some a

end RecordField

/-- The members that are not left out. -/
def present (ws : List (Str × Option Json)) : List (Str × Json) :=
  ws.filterMap fun w => w.2.map fun j => (w.1, j)

/-- The object with the members that are not left out. -/
def record (ws : List (Str × Option Json)) : Json :=
  .object (present ws)

/-- The members of an object. -/
def members : Json → Option (List (Str × Json))
  | .object ms => some ms
  | _ => none

@[simp]
theorem members_record (ws : List (Str × Option Json)) :
  members (record ws) = some (present ws)
  := rfl

/-- A name that no member bears leads nowhere. -/
theorem filter_present_of_notMem {ws : List (Str × Option Json)} {name : Str}
    (h : name ∉ ws.map Prod.fst) :
  (present ws).filter (fun e => e.1 = name) = []
  := by
  rw [List.filter_eq_nil_iff]
  intro e he hname
  obtain ⟨w, hw, hj⟩ := List.mem_filterMap.mp he
  obtain ⟨j, -, rfl⟩ := Option.map_eq_some_iff.mp hj
  exact h (List.mem_map.mpr ⟨w, hw, of_decide_eq_true hname⟩)

/-- A name leads to what was written for it, if no other member bears it. -/
theorem filter_present {ws : List (Str × Option Json)} (hnodup : (ws.map Prod.fst).Nodup)
    {w : Str × Option Json} (hw : w ∈ ws) :
  (present ws).filter (fun e => e.1 = w.1) = (w.2.map fun j => (w.1, j)).toList
  := by
  induction ws with
  | nil => cases hw
  | cons w' ws ih =>
      obtain ⟨hnot, hrest⟩ := List.nodup_cons.mp hnodup
      have split : present (w' :: ws) = (w'.2.map fun j => (w'.1, j)).toList ++ present ws := by
        rw [present, List.filterMap_cons]
        cases w'.2 <;> rfl
      rw [split, List.filter_append]
      rcases List.mem_cons.mp hw with rfl | hw
      · rw [filter_present_of_notMem hnot, List.append_nil]
        cases w.2 with
        | none => rfl
        | some j => exact List.filter_cons_of_pos (decide_eq_true rfl)
      · have hne : w'.1 ≠ w.1 := by
          intro heq
          exact hnot (heq ▸ List.mem_map.mpr ⟨w, hw, rfl⟩)
        have hother : (w'.2.map fun j => (w'.1, j)).toList.filter (fun e => e.1 = w.1) = [] := by
          cases w'.2 with
          | none => rfl
          | some j => exact List.filter_cons_of_neg (by simpa using hne)
        rw [hother, List.nil_append, ih hrest hw]

/-- A field is read from the record it was written to. -/
theorem RecordField.read_present {ws : List (Str × Option Json)} (hnodup : (ws.map Prod.fst).Nodup)
    {f : RecordField α} {a : α} (h : f.write a ∈ ws) :
  f.read (present ws) = f.restored a
  := by
  have hfilter := filter_present hnodup h
  rw [RecordField.read, RecordField.restored]
  change (present ws).filter (fun e => e.1 = f.name) = _ at hfilter
  rw [hfilter, RecordField.write]
  by_cases hskip : f.skip a = true
  · rw [if_pos hskip, if_pos hskip]
    rfl
  · rw [if_neg hskip, if_neg hskip]
    rfl

/-- A field that reads back every value is read from the record it was written to. -/
theorem RecordField.Exact.read_present {f : RecordField α} (h : f.Exact)
    {ws : List (Str × Option Json)} (hnodup : (ws.map Prod.fst).Nodup) {a : α}
    (ha : f.write a ∈ ws) :
  f.read (present ws) = some a
  := by
  rw [RecordField.read_present hnodup ha, RecordField.restored]
  by_cases hskip : f.skip a = true
  · rw [if_pos hskip, h.absent a hskip]
  · rw [if_neg hskip, h.serde a]

theorem RecordField.required_exact (name : String) {S : Serde α} (h : S.Exact) :
  (RecordField.required name S).Exact
  where
  serde := h
  absent := by
    rintro a ⟨⟩

/-- A field that may be missing is always written. -/
theorem RecordField.optional_exact (name : String) {S : Serde α} (h : S.Exact)
    (hnull : ∀ a, S.serialize a ≠ .null) :
  (RecordField.optional name S).Exact
  where
  serde := option_exact h hnull
  absent := by
    rintro a ⟨⟩

theorem RecordField.string_exact (name : String) :
  (RecordField.optional name .string).Exact
  := by
  apply RecordField.optional_exact name Serde.string_exact
  rintro s ⟨⟩

/-- A map that is skipped where it is empty is read back. -/
theorem RecordField.skipped_map_restores (name : String) {S : Serde α} (h : S.Exact)
    (order : IterationOrder (Str × α)) (m : HashMap Str α) :
  ∃ back, (RecordField.skipped name (S.map order) HashMap.isEmpty ∅).restored m = some back
    ∧ ∀ k, back.lookup k = m.lookup k
  := by
  rw [RecordField.restored]
  by_cases hempty : m.isEmpty = true
  · obtain rfl := HashMap.isEmpty_iff.mp hempty
    exact ⟨∅, rfl, fun _ => rfl⟩
  · obtain ⟨back, hback, hsame⟩ := map_restores h order m
    exact ⟨back, (if_neg hempty).trans hback, hsame⟩

/-- A field with a default is read back, if only the default is skipped. -/
theorem RecordField.skipped_exact (name : String) {S : Serde α} (h : S.Exact) {skip : α → Bool}
    {default : α} (hskip : ∀ a, skip a = true → a = default) :
  (RecordField.skipped name S skip default).Exact
  where
  serde := h
  absent := by
    intro a ha
    exact congrArg some (hskip a ha).symm

end Serde

/-! ### Depth -/

namespace Json

/-- Items are as deep as the deepest of them. -/
theorem depthItems_le {n : ℕ} {js : List Json} (h : ∀ j ∈ js, j.depth ≤ n) :
  depthItems js ≤ n
  := by
  induction js with
  | nil => exact Nat.zero_le n
  | cons j js ih =>
      rw [depthItems]
      exact max_le (h j List.mem_cons_self) (ih fun i hi => h i (List.mem_cons_of_mem j hi))

/-- Members are as deep as the deepest of them. -/
theorem depthMembers_le {n : ℕ} {ms : List (Str × Json)} (h : ∀ e ∈ ms, e.2.depth ≤ n) :
  depthMembers ms ≤ n
  := by
  induction ms with
  | nil => exact Nat.zero_le n
  | cons e ms ih =>
      rw [depthMembers]
      exact max_le (h e List.mem_cons_self) (ih fun i hi => h i (List.mem_cons_of_mem e hi))

end Json

namespace Serde

variable {α : Type}

theorem string_within :
  string.Within 0
  := fun _ => le_rfl

theorem u64_within :
  u64.Within 0
  := fun _ => le_rfl

theorem Within.option {S : Serde α} {n : ℕ} (h : S.Within n) :
  S.option.Within n
  := by
  intro o
  cases o with
  | none => exact Nat.zero_le n
  | some a => exact h a

/-- A vector is one deeper than its items. -/
theorem Within.vec {S : Serde α} {n : ℕ} (h : S.Within n) :
  S.vec.Within (n + 1)
  := by
  intro as
  apply Nat.succ_le_succ
  apply Json.depthItems_le
  intro j hj
  obtain ⟨a, -, rfl⟩ := List.mem_map.mp hj
  exact h a

/-- A map is one deeper than its values. -/
theorem Within.map {S : Serde α} {n : ℕ} (h : S.Within n) (order : IterationOrder (Str × α)) :
  (S.map order).Within (n + 1)
  := by
  intro m
  apply Nat.succ_le_succ
  apply Json.depthMembers_le
  intro e he
  obtain ⟨e, -, rfl⟩ := List.mem_map.mp he
  exact h e.2

theorem Within.mono {S : Serde α} {n n' : ℕ} (h : S.Within n) (hn : n ≤ n') :
  S.Within n'
  := fun a => (h a).trans hn

/-- A member is no deeper than the values of its field. -/
theorem RecordField.write_within {f : RecordField α} {n : ℕ} (h : f.serde.Within n) (a : α) :
  ∀ j ∈ (f.write a).2, j.depth ≤ n
  := by
  intro j hj
  rw [RecordField.write] at hj
  by_cases hskip : f.skip a = true
  · rw [if_pos hskip] at hj
    cases hj
  · rw [if_neg hskip] at hj
    obtain rfl := Option.some.inj hj
    exact h a

/-- A record is one deeper than its members. -/
theorem depth_record {ws : List (Str × Option Json)} {n : ℕ}
    (h : ∀ w ∈ ws, ∀ j ∈ w.2, j.depth ≤ n) :
  (record ws).depth ≤ n + 1
  := by
  apply Nat.succ_le_succ
  apply Json.depthMembers_le
  intro e he
  obtain ⟨w, hw, hmap⟩ := List.mem_filterMap.mp he
  obtain ⟨j, hj, rfl⟩ := Option.map_eq_some_iff.mp hmap
  exact h w hw j hj

end Serde
