import Mathlib.Data.List.Basic

/-!
# Stable sorting by a comparator

Sorting a slice by a comparator.  What comes out is specified only when the comparator is a
total preorder on the elements: then it is the elements, in an order the comparator agrees
with, those that compare equal in the order they had.  With any other comparator the outcome
is unspecified, and may be a panic.
-/

namespace StableSort

variable {α : Type}

/-- The comparator is a total preorder on the elements of the list. -/
structure TotalPreorderOn (cmp : α → α → Ordering) (xs : List α) : Prop where
  swap : ∀ a ∈ xs, ∀ b ∈ xs, cmp b a = (cmp a b).swap
  trans : ∀ a ∈ xs, ∀ b ∈ xs, ∀ c ∈ xs,
    (cmp a b).isLE = true → (cmp b c).isLE = true → (cmp a c).isLE = true

/-- `ys` are the elements of `xs`, sorted, with equal elements in the order they had. -/
structure StablySorted (cmp : α → α → Ordering) (xs ys : List α) : Prop where
  perm : ys.Perm xs
  sorted : ys.Pairwise fun a b => (cmp a b).isLE = true
  stable : ∀ a ∈ xs, ys.filter (cmp a · == .eq) = xs.filter (cmp a · == .eq)

/-- A stable sorting function, undefined where it panics. -/
structure SliceSort where
  sortBy {α : Type} : (α → α → Ordering) → List α → Option (List α)
  sorts {α : Type} : ∀ (cmp : α → α → Ordering) (xs : List α), TotalPreorderOn cmp xs →
    ∃ ys, sortBy cmp xs = some ys ∧ StablySorted cmp xs ys

/-! ### Merge sort -/

/-- Merge sort by a total preorder on the whole type. -/
theorem stablySorted_of_total {cmp : α → α → Ordering} (swap : ∀ a b, cmp b a = (cmp a b).swap)
    (trans : ∀ a b c, (cmp a b).isLE = true → (cmp b c).isLE = true → (cmp a c).isLE = true)
    (xs : List α) :
  StablySorted cmp xs (xs.mergeSort fun a b => (cmp a b).isLE)
  := by
  have total : ∀ a b, ((cmp a b).isLE || (cmp b a).isLE) = true := by
    intro a b
    rw [swap a b]
    cases cmp a b <;> rfl
  have perm := List.mergeSort_perm xs fun a b => (cmp a b).isLE
  constructor
  case perm => exact perm
  case sorted => exact List.pairwise_mergeSort trans total xs
  case stable =>
    intro a _
    -- the elements that compare equal are a sorted sublist, which merge sort keeps
    have tied : (xs.filter (cmp a · == .eq)).Pairwise fun b c => (cmp b c).isLE = true := by
      apply List.pairwise_of_forall_mem_list
      intro b hb c hc
      have hab := eq_of_beq (List.mem_filter.mp hb).2
      have hac := eq_of_beq (List.mem_filter.mp hc).2
      apply trans b a c
      · rw [swap a b, hab]
        rfl
      · rw [hac]
        rfl
    have kept := (List.sublist_mergeSort trans total tied List.filter_sublist).filter
      (cmp a · == .eq)
    rw [List.filter_filter] at kept
    simp only [Bool.and_self] at kept
    apply (kept.eq_of_length (perm.filter _).length_eq.symm).symm

/-- Sorting commutes with maps that keep the comparisons. -/
theorem StablySorted.map {β : Type} {cmp : β → β → Ordering} {f : α → β} {xs ys : List α}
    (h : StablySorted (fun a b => cmp (f a) (f b)) xs ys) :
  StablySorted cmp (xs.map f) (ys.map f)
  := by
  constructor
  case perm => exact h.perm.map f
  case sorted => exact List.pairwise_map.mpr h.sorted
  case stable =>
    intro b hb
    obtain ⟨a, ha, rfl⟩ := List.mem_map.mp hb
    rw [List.filter_map, List.filter_map]
    apply congrArg (List.map f) (h.stable a ha)

/-- Merge sort sorts stably by every comparator that is a total preorder on the elements. -/
theorem stablySorted_mergeSort {cmp : α → α → Ordering} {xs : List α}
    (h : TotalPreorderOn cmp xs) :
  StablySorted cmp xs (xs.mergeSort fun a b => (cmp a b).isLE)
  := by
  have attached : StablySorted (fun a b : {x // x ∈ xs} => cmp a.1 b.1) xs.attach
      (xs.attach.mergeSort fun a b => (cmp a.1 b.1).isLE) := by
    apply stablySorted_of_total
    · intro a b
      apply h.swap a.1 a.2 b.1 b.2
    · intro a b c
      apply h.trans a.1 a.2 b.1 b.2 c.1 c.2
  have key := attached.map
  rwa [List.map_mergeSort (s := fun a b => (cmp a b).isLE) fun _ _ _ _ => rfl,
    List.attach_map_subtype_val] at key

/-- Merge sort, for every comparator. -/
def mergeSort : SliceSort where
  sortBy cmp xs := some (xs.mergeSort fun a b => (cmp a b).isLE)
  sorts _ _ h := ⟨_, rfl, stablySorted_mergeSort h⟩

end StableSort
