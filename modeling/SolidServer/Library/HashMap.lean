import SolidServer.Library.LawfulMap

/-!
# Hash maps

A `HashMap K V` is a finite map whose entries are visited in an order that is not specified.
Whoever visits them does so in an `IterationOrder`, and what holds for every such order does
not depend on it.
-/

/-- A finite map from `K` to `V`. -/
abbrev HashMap (K V : Type) := AList fun _ : K => V

/-- An order to visit the elements of a collection in. -/
structure IterationOrder (α : Type) where
  arrange : List α → List α
  perm : ∀ l, (arrange l).Perm l

namespace IterationOrder

/-- The elements are visited in the order they are listed in. -/
def listed (α : Type) : IterationOrder α where
  arrange := id
  perm := List.Perm.refl

/-- The elements are visited in the order opposite to the one they are listed in. -/
def reversed (α : Type) : IterationOrder α where
  arrange := List.reverse
  perm := List.reverse_perm

end IterationOrder

/-- If at most one element satisfies `p`, every order leads to the same one. -/
theorem find?_eq_of_perm {α : Type} {l l' : List α} (h : l.Perm l') {p : α → Bool}
    (unique : ∀ a ∈ l, ∀ b ∈ l, p a = true → p b = true → a = b) :
  l.find? p = l'.find? p
  := by
  cases hl' : l'.find? p with
  | none =>
      rw [List.find?_eq_none] at hl' ⊢
      exact fun a ha => hl' a (h.mem_iff.mp ha)
  | some b =>
      have hb := h.mem_iff.mpr (List.mem_of_find?_eq_some hl')
      have hpb := List.find?_some hl'
      cases hl : l.find? p with
      | none => exact absurd hpb (List.find?_eq_none.mp hl b hb)
      | some a =>
          have ha := List.mem_of_find?_eq_some hl
          rw [unique a ha b hb (List.find?_some hl) hpb]

namespace HashMap

variable {K V : Type}

/-- The entries in the order they are visited in. -/
def iter (m : HashMap K V) (order : IterationOrder (K × V)) : List (K × V) :=
  order.arrange (m.entries.map fun e => (e.1, e.2))

/-- The values in the order they are visited in. -/
def values (m : HashMap K V) (order : IterationOrder (K × V)) : List V :=
  (m.iter order).map Prod.snd

/-- Whether there are no entries. -/
def isEmpty (m : HashMap K V) : Bool :=
  m.entries.isEmpty

/-- Keep the entries that satisfy `p`. -/
def retain (p : K → V → Bool) (m : HashMap K V) : HashMap K V where
  entries := m.entries.filter fun e => p e.1 e.2
  nodupKeys := List.NodupKeys.sublist List.filter_sublist m.nodupKeys

theorem isEmpty_iff {m : HashMap K V} :
  m.isEmpty = true ↔ m = ∅
  := by
  rw [isEmpty, List.isEmpty_iff]
  exact ⟨fun h => AList.ext h, fun h => congrArg AList.entries h⟩

variable [DecidableEq K]

@[simp]
theorem mem_iter {m : HashMap K V} {order : IterationOrder (K × V)} {k : K} {v : V} :
  (k, v) ∈ m.iter order ↔ m.lookup k = some v
  := by
  rw [iter, (order.perm _).mem_iff]
  exact LawfulMap.ofAList.mem_entries m k v

theorem mem_iff_lookup {m : HashMap K V} {k : K} :
  k ∈ m ↔ ∃ v, m.lookup k = some v
  := by
  rw [← AList.lookup_isSome, Option.isSome_iff_exists]

theorem lookup_insert (m : HashMap K V) (k : K) (v : V) (k' : K) :
  (m.insert k v).lookup k' = if k' = k then some v else m.lookup k'
  := LawfulMap.lookup_insert m k v k'

theorem lookup_erase (m : HashMap K V) (k k' : K) :
  (m.erase k).lookup k' = if k' = k then none else m.lookup k'
  := LawfulMap.lookup_erase m k k'

theorem lookup_insert_eq_some_iff {m : HashMap K V} {k k' : K} {v v' : V} :
  (m.insert k v).lookup k' = some v' ↔ (k' = k ∧ v = v') ∨ (k' ≠ k ∧ m.lookup k' = some v')
  := by
  rw [lookup_insert]
  by_cases h : k' = k
  · simp [h]
  · simp [h]

theorem lookup_erase_eq_some_iff {m : HashMap K V} {k k' : K} {v' : V} :
  (m.erase k).lookup k' = some v' ↔ k' ≠ k ∧ m.lookup k' = some v'
  := by
  rw [lookup_erase]
  by_cases h : k' = k
  · simp [h]
  · simp [h]

/-- Removing a key that is not there changes nothing. -/
theorem erase_of_notMem {m : HashMap K V} {k : K} (h : k ∉ m) :
  m.erase k = m
  := by
  apply AList.ext
  exact List.kerase_of_notMem_keys h

/-- Removing an entry whose key was new undoes its insertion. -/
theorem erase_insert_of_notMem {m : HashMap K V} {k : K} (h : k ∉ m) (v : V) :
  (m.insert k v).erase k = m
  := by
  rw [AList.insert_of_notMem h]
  apply AList.ext
  exact List.kerase_cons_eq rfl

/-- Entries with different keys are all found in the map they are inserted into. -/
theorem lookup_foldl_insert {es : List (K × V)} (m : HashMap K V) (h : (es.map Prod.fst).Nodup)
    (k : K) (v : V) :
  (es.foldl (fun m e => m.insert e.1 e.2) m).lookup k = some v
    ↔ (k, v) ∈ es ∨ (k ∉ es.map Prod.fst ∧ m.lookup k = some v)
  := by
  induction es generalizing m with
  | nil => simp
  | cons e es ih =>
      obtain ⟨hnot, hnodup⟩ := List.nodup_cons.mp h
      rw [List.foldl_cons, ih _ hnodup, lookup_insert]
      obtain ⟨k', v'⟩ := e
      by_cases hk : k = k'
      · subst hk
        have hmem : (k, v) ∉ es := fun hmem => hnot (List.mem_map.mpr ⟨_, hmem, rfl⟩)
        simp [hmem, hnot, eq_comm]
      · simp [hk]

theorem notMem_iff_lookup {m : HashMap K V} {k : K} :
  k ∉ m ↔ ∀ v, m.lookup k ≠ some v
  := by
  rw [mem_iff_lookup, not_exists]

/-- No two entries that are visited have the same key. -/
theorem nodup_keys_iter (m : HashMap K V) (order : IterationOrder (K × V)) :
  ((m.iter order).map Prod.fst).Nodup
  := by
  rw [iter, ((order.perm _).map Prod.fst).nodup_iff]
  exact LawfulMap.ofAList.nodup_entries m

/-- The entries are visited one by one. -/
theorem nodup_iter (m : HashMap K V) (order : IterationOrder (K × V)) :
  (m.iter order).Nodup
  := by
  exact (m.nodup_keys_iter order).of_map Prod.fst

theorem lookup_retain (p : K → V → Bool) (m : HashMap K V) (k : K) :
  (m.retain p).lookup k = (m.lookup k).filter (p k)
  := by
  apply Option.ext
  intro v
  rw [Option.filter_eq_some_iff, ← Option.mem_def, ← Option.mem_def, AList.mem_lookup_iff,
    AList.mem_lookup_iff]
  apply List.mem_filter

end HashMap
