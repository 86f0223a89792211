import SolidServer.ServerCore.Requests

/-!
# The container hierarchy

`Hierarchy s` says that the root is stored and that the parent container of every stored
key made of segments is stored.  Writes restore the hierarchy through the walk over the
ancestors, which stops at a depth of 98 segments, and removals respect it unless they
remove the root or a container with a stored child: an effect that `Keeps` the hierarchy is
exactly one after which there still is one.
-/

open Text Http

namespace ServerCore

/-- A container is stored under the key. -/
def HasContainer (s : LdpStore) (k : Str) : Prop :=
  ∃ e, s.lookup k = some e ∧ e.isContainer = true

/-- The key is that of a document or a container in the container with segments `ss`. -/
def Child (ss : List Segment) (k : Str) : Prop :=
  ∃ t, k = documentPath ss t ∨ k = containerPath (ss ++ [t])

/-- The root is stored, and so is the parent container of every stored key. -/
structure Hierarchy (s : LdpStore) : Prop where
  root : HasContainer s ['/']
  parent : ∀ ss k, Child ss k → k ∈ s → HasContainer s (containerPath ss)

/-- An effect keeps the hierarchy if it does not remove the root or a container with a stored
child, and does not write a key whose parent is deeper than 98 segments and not stored. -/
def Effect.Keeps (s : LdpStore) : Effect → Prop
  | .nothing => True
  | .write k _ _ => ∀ ss, Child ss k → ss.length ≤ 98 ∨ containerPath ss ∈ s
  | .remove k => k ≠ ['/'] ∧ ∀ ss k', k = containerPath ss → Child ss k' → k' ∉ s

/-- Entries are marked as containers exactly under keys that end with a slash. -/
def Flagged (s : LdpStore) : Prop :=
  ∀ k e, s.lookup k = some e → e.isContainer = endsWith k '/'

theorem HasContainer.mem {s : LdpStore} {k : Str} (h : HasContainer s k) :
  k ∈ s
  := by
  obtain ⟨e, he, -⟩ := h
  apply LdpStore.mem_of_lookup_eq_some he

/-- In a store with correct marks, a key that ends with a slash is that of a container. -/
theorem Flagged.hasContainer {s : LdpStore} (h : Flagged s) {k : Str}
    (hk : endsWith k '/' = true) (hmem : k ∈ s) :
  HasContainer s k
  := by
  obtain ⟨e, he⟩ := Option.isSome_iff_exists.mp (LdpStore.isSome_lookup_iff.mpr hmem)
  use e, he
  rw [h k e he, hk]

theorem Child.ne {ss : List Segment} {k : Str} (h : Child ss k) :
  containerPath ss ≠ k
  := by
  obtain ⟨t, rfl | rfl⟩ := h
  · symm
    apply documentPath_ne_containerPath
  · intro heq
    have := congrArg List.length (containerPath_injective heq)
    simp at this

theorem Child.startsWith {ss : List Segment} {k : Str} (h : Child ss k) :
  startsWith k '/' = true
  := by
  obtain ⟨t, rfl | rfl⟩ := h <;> rfl

/-- The ancestors of a child of a container are the containers up to that one, to a depth of
98 segments. -/
theorem Child.mem_ancestorKeys_iff {ss : List Segment} {k : Str} (h : Child ss k) {a : Str} :
  a ∈ LdpStore.ancestorKeys k ↔ ∃ l, l <+: ss.take 98 ∧ a = containerPath l
  := by
  obtain ⟨t, rfl | rfl⟩ := h
  · apply LdpStore.mem_ancestorKeys_documentPath
  · apply LdpStore.mem_ancestorKeys_containerPath

/-- The parent of a key is among its ancestors exactly up to a depth of 98 segments. -/
theorem Child.parent_mem_iff {ss : List Segment} {k : Str} (h : Child ss k) :
  containerPath ss ∈ LdpStore.ancestorKeys k ↔ ss.length ≤ 98
  := by
  rw [h.mem_ancestorKeys_iff]
  constructor
  · rintro ⟨l, hl, heq⟩
    obtain rfl := containerPath_injective heq
    have := hl.length_le
    rw [List.length_take] at this
    omega
  · intro hlen
    use ss
    rw [List.take_of_length_le hlen]
    use List.prefix_rfl

/-! ### Marks -/

theorem flagged_new :
  Flagged LdpStore.new
  := by
  intro k e he
  rw [LdpStore.lookup_new] at he
  obtain ⟨rfl, he⟩ := Option.ite_none_right_eq_some.mp he
  obtain rfl := Option.some.inj he
  rfl

/-- The ancestors that an effect adds are marked as containers. -/
theorem isContainer_of_ancestor {k k' : Str} {e : Entry}
    (he : (if k' ∈ LdpStore.ancestorKeys k then some Entry.autoContainer else none) = some e) :
  e.isContainer = true ∧ endsWith k' '/' = true
  := by
  obtain ⟨hmem, he⟩ := Option.ite_none_right_eq_some.mp he
  obtain rfl := Option.some.inj he
  use rfl, LdpStore.endsWith_ancestor hmem

/-- Requests keep the marks correct. -/
theorem Flagged.serve {s : LdpStore} (h : Flagged s) (x : Exchange) :
  Flagged (serve x s).2
  := by
  rw [serve_store]
  intro k' e he
  cases heff : effect x with
  | nothing =>
      rw [heff] at he
      apply h k' e he
  | write k body ct =>
      rw [heff, lookup_write] at he
      split at he
      · obtain rfl := Option.some.inj he
        subst_vars
        rfl
      · rcases Option.or_eq_some_iff.mp he with he | ⟨-, he⟩
        · apply h k' e he
        · obtain ⟨h₁, h₂⟩ := isContainer_of_ancestor he
          rw [h₁, h₂]
  | remove k =>
      rw [heff, lookup_remove] at he
      split at he
      · cases he
      · apply h k' e he

theorem flagged_serveAll (xs : List Exchange) :
  Flagged (serveAll xs LdpStore.new)
  := by
  induction xs using List.reverseRecOn with
  | nil => apply flagged_new
  | append_singleton xs x ih =>
      rw [serveAll_concat]
      apply ih.serve

/-! ### Effects on the hierarchy -/

/-- After a write, the ancestors of the key are stored containers. -/
theorem hasContainer_write {s : LdpStore} (flagged : Flagged s) (k : Str) (body : List UInt8)
    (ct : Str) {c : Str} (hc : endsWith c '/' = true) (h : c ∈ s ∨ c ∈ LdpStore.ancestorKeys k) :
  HasContainer ((Effect.write k body ct).apply s) c
  := by
  rw [HasContainer, lookup_write]
  split
  · subst_vars
    exact ⟨_, rfl, hc⟩
  · cases hs : s.lookup c with
    | some e =>
        use e, Option.some_or
        rw [flagged c e hs, hc]
    | none =>
        have hmem := h.resolve_left (LdpStore.lookup_eq_none_iff.mp hs)
        use Entry.autoContainer
        rw [Option.none_or, if_pos hmem]
        exact ⟨rfl, rfl⟩

/-- What is stored after a write was stored, was written or is an ancestor. -/
theorem mem_write {s : LdpStore} {k : Str} {body : List UInt8} {ct : Str} {k' : Str}
    (h : k' ∈ (Effect.write k body ct).apply s) :
  k' = k ∨ k' ∈ s ∨ k' ∈ LdpStore.ancestorKeys k
  := by
  by_cases hk : k' = k
  · left
    apply hk
  · right
    rw [← LdpStore.mem_ensureAncestors_iff, ← LdpStore.isSome_lookup_iff]
    rw [← LdpStore.isSome_lookup_iff, Effect.apply, LdpStore.lookup_insert, if_neg hk] at h
    apply h

theorem mem_remove_iff {s : LdpStore} {k k' : Str} :
  k' ∈ (Effect.remove k).apply s ↔ k' ≠ k ∧ k' ∈ s
  := by
  rw [← LdpStore.isSome_lookup_iff, lookup_remove, ← LdpStore.isSome_lookup_iff]
  by_cases h : k' = k <;> simp [h]

/-- An effect that keeps the hierarchy leaves one. -/
theorem Hierarchy.apply {s : LdpStore} (h : Hierarchy s) (flagged : Flagged s) {x : Exchange}
    (keeps : (effect x).Keeps s) :
  Hierarchy ((effect x).apply s)
  := by
  cases heff : effect x with
  | nothing => apply h
  | write k body ct =>
      rw [heff] at keeps
      have hk := startsWith_of_effect_eq_write heff
      constructor
      case root =>
        apply hasContainer_write flagged k body ct rfl
        left
        apply h.root.mem
      case parent =>
        intro ss k' hchild hmem
        apply hasContainer_write flagged k body ct (endsWith_containerPath ss)
        rcases mem_write hmem with rfl | hmem | hmem
        · rcases keeps ss hchild with hlen | hs
          · right
            apply hchild.parent_mem_iff.mpr hlen
          · left
            apply hs
        · left
          apply (h.parent ss k' hchild hmem).mem
        · -- an ancestor ends with a slash, so it is a container in its parent
          right
          obtain ⟨t, rfl | rfl⟩ := hchild
          · have := LdpStore.endsWith_ancestor hmem
            rw [endsWith_documentPath] at this
            cases this
          · apply LdpStore.parent_mem_ancestorKeys hk hmem
  | remove k =>
      rw [heff] at keeps
      obtain ⟨hroot, hempty⟩ := keeps
      have kept : ∀ c, c ≠ k → HasContainer s c →
          HasContainer ((Effect.remove k).apply s) c := by
        rintro c hc ⟨e, he, hflag⟩
        use e
        rw [lookup_remove, if_neg hc]
        use he, hflag
      constructor
      case root => apply kept _ hroot.symm h.root
      case parent =>
        intro ss k' hchild hmem
        have hmem' := (mem_remove_iff.mp hmem).2
        apply kept _ _ (h.parent ss k' hchild hmem')
        intro heq
        apply hempty ss k' heq.symm hchild hmem'

/-- An effect that leaves a hierarchy keeps it. -/
theorem keeps_of_hierarchy_apply {s : LdpStore} {e : Effect} (h : Hierarchy (e.apply s)) :
  e.Keeps s
  := by
  cases e with
  | nothing => trivial
  | write k body ct =>
      intro ss hchild
      have stored : k ∈ (Effect.write k body ct).apply s := by
        rw [← LdpStore.isSome_lookup_iff, lookup_write, if_pos rfl]
        rfl
      rcases mem_write (h.parent ss k hchild stored).mem with heq | hmem | hmem
      · apply absurd heq hchild.ne
      · right
        apply hmem
      · left
        apply hchild.parent_mem_iff.mp hmem
  | remove k =>
      constructor
      · rintro rfl
        apply (mem_remove_iff.mp h.root.mem).1 rfl
      · rintro ss k' rfl hchild hmem
        have stored : k' ∈ (Effect.remove (containerPath ss)).apply s :=
          mem_remove_iff.mpr ⟨hchild.ne.symm, hmem⟩
        apply (mem_remove_iff.mp (h.parent ss k' hchild stored).mem).1 rfl

theorem hierarchy_new :
  Hierarchy LdpStore.new
  := by
  constructor
  case root => apply flagged_new.hasContainer rfl (by decide)
  case parent =>
    intro ss k hchild hmem
    have hk : k = ['/'] := by
      by_contra hne
      apply absurd (LdpStore.isSome_lookup_iff.mpr hmem)
      simp [hne]
    subst hk
    obtain ⟨t, h | h⟩ := hchild
    · apply absurd h.symm (documentPath_ne_containerPath ss [] t)
    · have := containerPath_injective (containerPath_nil.trans h)
      simp at this

/-- In a run of requests from a new store, every store on the way has the hierarchy if and only
if every request keeps it: no `DELETE` of the root or of a container with a stored child,
and no write below a container which is deeper than 98 segments and not stored. -/
theorem hierarchy_iff (xs : List Exchange) :
  (∀ ys, ys <+: xs → Hierarchy (serveAll ys LdpStore.new)) ↔
    ∀ ys x, ys ++ [x] <+: xs → (effect x).Keeps (serveAll ys LdpStore.new)
  := by
  constructor
  · intro h ys x hys
    apply keeps_of_hierarchy_apply
    rw [← serve_store, ← serveAll_concat]
    apply h _ hys
  · intro h ys hys
    induction ys using List.reverseRecOn with
    | nil => apply hierarchy_new
    | append_singleton ys x ih =>
        rw [serveAll_concat, serve_store]
        apply (ih ((List.prefix_append ys [x]).trans hys)).apply (flagged_serveAll ys)
        apply h ys x hys

/-- `DELETE /` -/
def deleteRoot : Exchange :=
  (zeroSlug, ⟨.delete, ['/'], [], .ok []⟩)

/-- `DELETE /` leaves a store without a root. -/
theorem not_hierarchy_of_delete_root :
  ¬ ∀ s, Reachable s → Hierarchy s
  := by
  intro h
  have key := (h (serveAll [deleteRoot] LdpStore.new) ⟨[deleteRoot], rfl⟩).root.mem
  revert key
  decide

/-! ### Writes at any depth -/

/-- After a put, a container above the path is stored if it was before, or if it is at most 98
segments deep. -/
theorem mem_put_iff {ss l : List Segment} {k : Str} (hk : Child ss k) (hl : l <+: ss)
    (s : LdpStore) (body : List UInt8) (contentType : Str) :
  containerPath l ∈ ((LdpStore.put k body contentType).run StoreCmd.exec s).2
    ↔ containerPath l ∈ s ∨ l.length ≤ 98
  := by
  have hne : containerPath l ≠ k := by
    obtain ⟨m, rfl⟩ := hl
    obtain ⟨t, rfl | rfl⟩ := hk
    · symm
      apply documentPath_ne_containerPath
    · intro heq
      have := congrArg List.length (containerPath_injective heq)
      simp only [List.length_append, List.length_singleton] at this
      omega
  have hmem : containerPath l ∈ LdpStore.ancestorKeys k ↔ l.length ≤ 98 := by
    rw [hk.mem_ancestorKeys_iff]
    constructor
    · rintro ⟨m, hm, heq⟩
      obtain rfl := containerPath_injective heq
      have := hm.length_le
      rw [List.length_take] at this
      omega
    · intro hlen
      use l
      rw [List.prefix_take_iff]
      exact ⟨⟨hl, hlen⟩, rfl⟩
  rw [run_put, LdpStore.key_eq_self hk.startsWith, ← LdpStore.isSome_lookup_iff, lookup_write,
    if_neg hne, Option.isSome_or, Bool.or_eq_true, LdpStore.isSome_lookup_iff]
  simp only [hmem]
  split <;> simp [*]

/-- A put on a path of any number of segments stores all containers above the path exactly if
those deeper than 98 segments are stored already. -/
theorem put_ancestors_iff {ss : List Segment} {k : Str} (hk : Child ss k) (s : LdpStore)
    (body : List UInt8) (contentType : Str) :
  (∀ l, l <+: ss → containerPath l ∈ ((LdpStore.put k body contentType).run StoreCmd.exec s).2)
    ↔ ∀ l, l <+: ss → 98 < l.length → containerPath l ∈ s
  := by
  constructor
  · intro h l hl hlen
    rcases (mem_put_iff hk hl s body contentType).mp (h l hl) with hs | hle
    · apply hs
    · omega
  · intro h l hl
    apply (mem_put_iff hk hl s body contentType).mpr
    by_cases hlen : l.length ≤ 98
    · right
      apply hlen
    · left
      apply h l hl
      omega

/-- The segment `a`. -/
def segmentA : Segment :=
  ⟨['a'], by decide, by decide⟩

theorem put_ancestors_iff_document :
  (∀ l, l <+: [segmentA] → containerPath l
      ∈ ((LdpStore.put (documentPath [segmentA] segmentA) [] []).run StoreCmd.exec LdpStore.new).2)
    ↔ ∀ l, l <+: [segmentA] → 98 < l.length → containerPath l ∈ LdpStore.new
  := put_ancestors_iff ⟨segmentA, .inl rfl⟩ LdpStore.new [] []

/-- A put on a path of 100 segments leaves a new store without the container of the path. -/
theorem not_put_ancestors :
  ¬ ∀ (s : LdpStore) (ss : List Segment) (t : Segment), ∀ l, l <+: ss →
    containerPath l ∈ ((LdpStore.put (documentPath ss t) [] []).run StoreCmd.exec s).2
  := by
  intro h
  obtain ⟨ss, hlen⟩ : ∃ ss : List Segment, ss.length = 99 :=
    ⟨List.replicate 99 segmentA, List.length_replicate⟩
  have hmem := h LdpStore.new ss segmentA ss List.prefix_rfl
  rcases (mem_put_iff ⟨segmentA, .inl rfl⟩ List.prefix_rfl _ _ _).mp hmem with hs | hle
  · have hroot : containerPath ss = containerPath [] := by
      by_contra hne
      rw [containerPath_nil] at hne
      apply absurd (LdpStore.isSome_lookup_iff.mpr hs)
      rw [LdpStore.lookup_new, if_neg hne]
      simp
    rw [containerPath_injective hroot] at hlen
    cases hlen
  · omega

end ServerCore
