import Mathlib.Data.List.AList

/-!
# Lawful maps

A `LawfulMap σ K V` makes a state type `σ` a map from `K` to `V`: it has the operations of a
key-value store, and laws that say what `get` returns after each of them.  Association
lists are an instance.
-/

/-- The operations of a map with states `σ`, and their laws. -/
structure LawfulMap (σ K V : Type) [DecidableEq K] where
  get : σ → K → Option V
  set : σ → K → V → σ
  delete : σ → K → Bool × σ
  entries : σ → List (K × V)
  get_set : ∀ s k v k', get (set s k v) k' = if k' = k then some v else get s k'
  get_delete : ∀ s k k', get (delete s k).2 k' = if k' = k then none else get s k'
  delete_existed : ∀ s k, (delete s k).1 = (get s k).isSome
  nodup_entries : ∀ s, ((entries s).map Prod.fst).Nodup
  mem_entries : ∀ s k v, (k, v) ∈ entries s ↔ get s k = some v

namespace LawfulMap

variable {σ K V : Type} [DecidableEq K]

theorem lookup_insert (m : AList fun _ : K => V) (k : K) (v : V) (k' : K) :
  (m.insert k v).lookup k' = if k' = k then some v else m.lookup k'
  := by
  split
  · subst_vars
    apply AList.lookup_insert
  · apply AList.lookup_insert_ne ‹_›

theorem lookup_erase (m : AList fun _ : K => V) (k k' : K) :
  (m.erase k).lookup k' = if k' = k then none else m.lookup k'
  := by
  split
  · subst_vars
    apply AList.lookup_erase
  · apply AList.lookup_erase_ne ‹_›

/-- The association lists are a lawful map. -/
def ofAList : LawfulMap (AList fun _ : K => V) K V where
  get s k := s.lookup k
  set s k v := s.insert k v
  delete s k := ((s.lookup k).isSome, s.erase k)
  entries s := s.entries.map fun e => (e.1, e.2)
  get_set := lookup_insert
  get_delete := lookup_erase
  delete_existed _ _ := rfl
  nodup_entries s := by
    simpa [AList.keys, List.keys, Function.comp_def] using s.keys_nodup
  mem_entries s k v := by
    rw [← Option.mem_def, AList.mem_lookup_iff]
    constructor
    · intro h
      obtain ⟨e, he, heq⟩ := List.mem_map.mp h
      obtain ⟨rfl, rfl⟩ := Prod.mk.inj heq
      exact he
    · intro h
      exact List.mem_map.mpr ⟨⟨k, v⟩, h, rfl⟩

variable (M : LawfulMap σ K V)

/-- Deleting some of a list of keys removes those and keeps the rest. -/
theorem get_foldl_delete (fails : K → Bool) (ks : List K) (s : σ) (k : K) :
  M.get (ks.foldl (fun s k => if fails k then s else (M.delete s k).2) s) k
    = if k ∈ ks ∧ fails k = false then none else M.get s k
  := by
  induction ks generalizing s with
  | nil => simp
  | cons k' ks ih =>
      rw [List.foldl_cons, ih]
      by_cases hk : k = k'
      · subst hk
        by_cases hf : fails k <;> simp [hf, M.get_delete]
      · by_cases hf : fails k' <;> simp [hf, hk, M.get_delete]

/-- The entries with a function applied to their values. -/
theorem mem_map_entries {W : Type} {f : V → W} {s : σ} {k : K} {x : W} :
  (k, x) ∈ (M.entries s).map (fun e => (e.1, f e.2)) ↔ (M.get s k).map f = some x
  := by
  rw [List.mem_map, Option.map_eq_some_iff]
  constructor
  · rintro ⟨e, he, heq⟩
    obtain ⟨rfl, rfl⟩ := Prod.mk.inj heq
    use e.2, (M.mem_entries s e.1 e.2).mp he
  · rintro ⟨v, hv, rfl⟩
    use (k, v), (M.mem_entries s k v).mpr hv

/-- Two maps that agree after a function is applied to the values have the same entries then,
in some order. -/
theorem perm_map_entries {τ V' W : Type} (M' : LawfulMap τ K V') {f : V → W} {f' : V' → W}
    {s : σ} {t : τ} (h : ∀ k, (M.get s k).map f = (M'.get t k).map f') :
  ((M.entries s).map fun e => (e.1, f e.2)).Perm ((M'.entries t).map fun e => (e.1, f' e.2))
  := by
  have nodup : ∀ {σ V : Type} (M : LawfulMap σ K V) (f : V → W) (s : σ),
      ((M.entries s).map fun e => (e.1, f e.2)).Nodup := by
    intro σ V M f s
    apply List.Nodup.of_map Prod.fst
    rw [List.map_map]
    apply M.nodup_entries s
  apply (List.perm_ext_iff_of_nodup (nodup M f s) (nodup M' f' t)).mpr
  rintro ⟨k, x⟩
  rw [mem_map_entries, mem_map_entries, h]

end LawfulMap
