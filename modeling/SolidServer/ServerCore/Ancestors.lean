import SolidServer.ServerCore.Store
import SolidServer.Library.Paths

/-!
# Ancestor containers

`ensureAncestors k` inserts an empty container under every key in `ancestorKeys k` that is
missing, and changes nothing else.  The ancestors of a key end with `/` and are proper
initial parts of it, except that the root is its own ancestor.  Those of a key made of
segments are the containers above it, down to a depth of 98 segments.
-/

open Text

namespace ServerCore.LdpStore

/-- The keys the walk over the parts goes through. -/
def walkedKeys : List Str → Str → List Str
  | [], _ => []
  | part :: parts, current =>
      squash (pushPart current part) :: walkedKeys parts (pushPart current part)

/-- The keys `ensureAncestors` goes through. -/
def ancestorKeys (key : Str) : List Str :=
  walkedKeys (ancestorParts key) []

theorem lookup_walk (parts : List Str) (current : Str) (s : LdpStore) (k : Str) :
  (walk parts current s).lookup k = (s.lookup k).or
    (if k ∈ walkedKeys parts current then some Entry.autoContainer else none)
  := by
  induction parts generalizing current s with
  | nil => simp [walk, walkedKeys]
  | cons part parts ih =>
      rw [walk, ih, lookup_orInsert, walkedKeys, Option.or_assoc]
      congr 1
      by_cases hk : k = squash (pushPart current part)
      · simp [hk]
      · simp [hk]

/-- The walk adds empty containers and keeps what there is. -/
@[simp]
theorem lookup_ensureAncestors (s : LdpStore) (key k : Str) :
  (s.ensureAncestors key).lookup k = (s.lookup k).or
    (if k ∈ ancestorKeys key then some Entry.autoContainer else none)
  := lookup_walk _ _ s k

/-- Outside the ancestors the walk does nothing. -/
theorem lookup_ensureAncestors_of_not_mem {s : LdpStore} {key k : Str}
    (h : k ∉ ancestorKeys key) :
  (s.ensureAncestors key).lookup k = s.lookup k
  := by
  rw [lookup_ensureAncestors, if_neg h, Option.or_none]

theorem mem_ensureAncestors_iff {s : LdpStore} {key k : Str} :
  k ∈ s.ensureAncestors key ↔ k ∈ s ∨ k ∈ ancestorKeys key
  := by
  rw [← isSome_lookup_iff, lookup_ensureAncestors, Option.isSome_or, Bool.or_eq_true,
    isSome_lookup_iff]
  split <;> simp [*]

/-- Every key the walk goes through ends with a slash. -/
theorem endsWith_ancestor {key a : Str} (ha : a ∈ ancestorKeys key) :
  endsWith a '/' = true
  := by
  have push : ∀ current part, endsWith (squash (pushPart current part)) '/' = true := by
    intro current part
    have h : endsWith (pushPart current part) '/' = true := by
      rw [pushPart]
      split <;> rw [endsWith_concat, beq_self_eq_true]
    rw [squash]
    split
    · rfl
    · apply h
  have key : ∀ parts current, a ∈ walkedKeys parts current → endsWith a '/' = true := by
    intro parts
    induction parts with
    | nil =>
        intro current h
        cases h
    | cons part parts ih =>
        intro current h
        rcases List.mem_cons.mp h with rfl | h
        · apply push
        · apply ih _ h
  apply key _ _ ha

/-- The walk leaves keys that do not end with a slash alone. -/
theorem lookup_ensureAncestors_document (s : LdpStore) (key : Str) {k : Str}
    (hk : endsWith k '/' = false) :
  (s.ensureAncestors key).lookup k = s.lookup k
  := by
  apply lookup_ensureAncestors_of_not_mem
  intro hmem
  rw [endsWith_ancestor hmem] at hk
  cases hk

/-! ### The walk in terms of parts -/

/-- A part extends the text of a container by itself and a slash. -/
theorem pushPart_closed {l : List Str} (hl : l ≠ []) (part : Str) :
  pushPart (closed '/' l) part = closed '/' (l ++ [part])
  := by
  cases part with
  | nil => simp [pushPart]
  | cons c part => simp [pushPart, endsWith_closed hl]

theorem mem_walkedKeys_iff {parts l : List Str} (hl : l ≠ []) {k : Str} :
  k ∈ walkedKeys parts (closed '/' l)
    ↔ ∃ l', l' ≠ [] ∧ l' <+: parts ∧ k = squash (closed '/' (l ++ l'))
  := by
  induction parts generalizing l with
  | nil =>
      constructor
      · intro h
        cases h
      · rintro ⟨l', hne, hpre, -⟩
        apply absurd (List.prefix_nil.mp hpre) hne
  | cons part parts ih =>
      rw [walkedKeys, List.mem_cons, pushPart_closed hl, ih (List.concat_ne_nil part l)]
      constructor
      · rintro (rfl | ⟨l', -, hpre, rfl⟩)
        · use [part], List.cons_ne_nil _ _, List.cons_prefix_cons.mpr ⟨rfl, List.nil_prefix⟩
        · use part :: l', List.cons_ne_nil _ _, List.cons_prefix_cons.mpr ⟨rfl, hpre⟩
          rw [List.append_assoc, List.singleton_append]
      · rintro ⟨l', hne, hpre, rfl⟩
        obtain ⟨q, l', rfl⟩ := List.exists_cons_of_ne_nil hne
        obtain ⟨rfl, hpre'⟩ := List.cons_prefix_cons.mp hpre
        by_cases hl' : l' = []
        · left
          rw [hl']
        · right
          use l', hl', hpre'
          rw [List.append_assoc, List.singleton_append]

/-- The ancestors of a key whose first part is empty. -/
theorem mem_ancestorKeys_iff {key : Str} {parts : List Str}
    (h : ancestorParts key = [] :: parts) {a : Str} :
  a ∈ ancestorKeys key ↔ ∃ l, l <+: parts ∧ a = squash ('/' :: closed '/' l)
  := by
  have hroot : pushPart [] [] = closed '/' [[]] := rfl
  rw [ancestorKeys, h, walkedKeys, hroot, List.mem_cons,
    mem_walkedKeys_iff (List.cons_ne_nil _ _)]
  constructor
  · rintro (rfl | ⟨l, -, hl, rfl⟩)
    · use [], List.nil_prefix
      rfl
    · use l, hl
      rfl
  · rintro ⟨l, hl, rfl⟩
    by_cases hne : l = []
    · left
      rw [hne]
      rfl
    · right
      use l, hne, hl
      rfl

/-! ### The ancestors of any key -/

/-- The parts of a key that begins with `/`: at most 98 after the first one. -/
theorem ancestorParts_cons {key t : Str} (h : trimEndMatches key '/' = '/' :: t) :
  ancestorParts key = [] :: (t.splitOn '/').dropLast.take 98
  := by
  have hne := List.splitOn_ne_nil '/' t
  have hlen : 1 < (splitn 100 ('/' :: t) '/').length := by
    rw [one_lt_length_splitn (n := 98), splitOn_cons_self]
    simp [List.length_pos_iff, hne]
  simp only [ancestorParts, h]
  rw [if_pos hlen, dropLast_splitn 99, splitOn_cons_self, List.dropLast_cons_of_ne_nil hne,
    List.take_succ_cons]

/-- The parts of a key that begins with `/`, after the first: their text is a proper initial
part of the key, unless there are none. -/
theorem ancestorParts_eq {key : Str} (hkey : startsWith key '/' = true) :
  ∃ parts, ancestorParts key = [] :: parts ∧ (∀ p ∈ parts, '/' ∉ p) ∧
    (parts = [] ∧ (∀ c ∈ key, c = '/')
      ∨ ∃ p, p ≠ [] ∧ '/' :: closed '/' parts ++ p <+: key)
  := by
  have trim := trimEndMatches_prefix key '/'
  have last := endsWith_trimEndMatches key '/'
  by_cases hs : trimEndMatches key '/' = []
  · use []
    constructor
    · simp [ancestorParts, hs, splitn]
    · use fun p hp => absurd hp List.not_mem_nil
      left
      use rfl
      apply trimEndMatches_eq_nil_iff.mp hs
  · obtain ⟨t, ht⟩ : ∃ t, trimEndMatches key '/' = '/' :: t := by
      obtain ⟨u, rfl⟩ := startsWith_iff.mp hkey
      obtain ⟨c, t, hct⟩ := List.exists_cons_of_ne_nil hs
      rw [hct] at trim
      use t
      rw [hct, (List.cons_prefix_cons.mp trim).1]
    obtain ⟨p, hp⟩ := closed_dropLast_splitOn t '/'
    use (t.splitOn '/').dropLast.take 98, ancestorParts_cons ht
    · use fun q hq =>
        not_mem_of_mem_splitOn (List.mem_of_mem_dropLast (List.mem_of_mem_take hq))
      right
      rw [ht, hp] at last
      obtain ⟨q, hq⟩ : ∃ q, closed '/' (t.splitOn '/').dropLast
          = closed '/' ((t.splitOn '/').dropLast.take 98) ++ q := by
        use closed '/' ((t.splitOn '/').dropLast.drop 98)
        rw [← closed_append, List.take_append_drop]
      use q ++ p
      constructor
      · intro hqp
        obtain ⟨rfl, rfl⟩ := List.append_eq_nil_iff.mp hqp
        have closed : endsWith (closed '/' ([] :: (t.splitOn '/').dropLast)) '/' = true :=
          endsWith_closed (List.cons_ne_nil _ _)
        rw [List.append_nil] at last
        rw [closed_cons, List.nil_append, last] at closed
        cases closed
      · rw [ht, hp, hq] at trim
        simpa using trim

/-- An ancestor of a key is a container and an initial part of the key, and the key itself
only if that is the root. -/
theorem ancestor_spec {key a : Str} (hkey : startsWith key '/' = true)
    (ha : a ∈ ancestorKeys key) :
  a <+: key ∧ startsWith a '/' = true ∧ endsWith a '/' = true ∧ (a = key → key = ['/'])
  := by
  obtain ⟨parts, hparts, -, hkind⟩ := ancestorParts_eq hkey
  obtain ⟨l, hl, rfl⟩ := (mem_ancestorKeys_iff hparts).mp ha
  have text : squash ('/' :: closed '/' l) <+: '/' :: closed '/' l := by
    rw [squash]
    split
    · rename_i h
      rw [h]
      use ['/']
      rfl
    · apply List.prefix_rfl
  have starts : startsWith (squash ('/' :: closed '/' l)) '/' = true := by
    rw [squash]
    split <;> rfl
  have ends := endsWith_ancestor ha
  rcases hkind with ⟨rfl, hall⟩ | ⟨p, hp, hpre⟩
  · obtain rfl := List.prefix_nil.mp hl
    obtain ⟨t, rfl⟩ := startsWith_iff.mp hkey
    have hsq : squash ('/' :: closed '/' []) = ['/'] := rfl
    rw [hsq]
    use List.cons_prefix_cons.mpr ⟨rfl, List.nil_prefix⟩, rfl, rfl
    intro h
    apply h.symm
  · have hlen : '/' :: closed '/' l <+: '/' :: closed '/' parts := by
      obtain ⟨m, rfl⟩ := hl
      use closed '/' m
      simp
    have hlt : (squash ('/' :: closed '/' l)).length < key.length := by
      have h₁ := text.length_le
      have h₂ := hlen.length_le
      have h₃ := hpre.length_le
      have h₄ := List.length_pos_iff.mpr hp
      rw [List.length_append] at h₃
      omega
    constructor
    · apply text.trans (hlen.trans _)
      apply (List.prefix_append _ p).trans hpre
    · use starts, ends
      rintro heq
      rw [heq] at hlt
      omega

/-- The containers above a key: its initial parts, before the slashes at its end, that begin and
end with a slash.  Two slashes at the beginning stand for the root. -/
structure ContainerAbove (key a : Str) : Prop where
  initial : a <+: trimEndMatches key '/'
  starts : startsWith a '/' = true
  ends : endsWith a '/' = true
  ne : a ≠ ['/', '/']

/-- The containers above a key are among its ancestors, to a depth of 98 segments. -/
theorem ContainerAbove.mem_ancestorKeys {key a : Str} (h : ContainerAbove key a)
    (shallow : a.count '/' ≤ 99) :
  a ∈ ancestorKeys key
  := by
  obtain ⟨b, rfl⟩ := startsWith_iff.mp h.starts
  obtain ⟨r, hr⟩ := h.initial
  have trimmed : trimEndMatches key '/' = '/' :: (b ++ r) := hr.symm
  rw [mem_ancestorKeys_iff (ancestorParts_cons trimmed)]
  rcases List.eq_nil_or_concat b with rfl | ⟨c, d, rfl⟩
  · exact ⟨[], List.nil_prefix, rfl⟩
  · have ends := h.ends
    have ne := h.ne
    rw [List.concat_eq_append] at ends ne shallow ⊢
    obtain rfl : d = '/' := by
      rw [← List.cons_append, endsWith_concat] at ends
      apply beq_iff_eq.mp ends
    have closed : closed '/' (c.splitOn '/') = c ++ ['/'] := by
      have key : ['/'].intercalate ((c ++ ['/']).splitOn '/') = c ++ ['/'] :=
        List.intercalate_splitOn '/'
      rw [List.splitOn_append_cons_self, List.splitOn_nil, intercalate_concat,
        List.append_nil] at key
      apply key
    use c.splitOn '/'
    constructor
    · rw [List.append_assoc, List.singleton_append, List.splitOn_append_cons_self,
        List.dropLast_append_of_ne_nil (List.splitOn_ne_nil '/' r), List.prefix_take_iff]
      use List.prefix_append _ _
      rw [length_splitOn]
      simp only [List.count_cons_self, List.count_append, List.count_nil] at shallow
      omega
    · rw [closed, squash, if_neg ne]

/-! ### The ancestors of a path made of segments -/

theorem squash_containerPath (ss : List Segment) :
  squash (containerPath ss) = containerPath ss
  := by
  rw [squash, if_neg]
  intro h
  cases ss with
  | nil => cases h
  | cons s ss =>
      have hs := s.ne_nil
      have hfree := s.slash_free
      obtain ⟨c, t, ht⟩ := List.exists_cons_of_ne_nil hs
      simp only [containerPath, List.map_cons, closed_cons, ht, List.cons_append,
        List.cons.injEq] at h
      apply hfree
      simp [ht, h.2.1]

/-- With a container among the ancestors of a key its parent is one, too. -/
theorem parent_mem_ancestorKeys {key : Str} (hkey : startsWith key '/' = true)
    {ss : List Segment} {t : Segment} (h : containerPath (ss ++ [t]) ∈ ancestorKeys key) :
  containerPath ss ∈ ancestorKeys key
  := by
  obtain ⟨parts, hparts, hfree, -⟩ := ancestorParts_eq hkey
  rw [mem_ancestorKeys_iff hparts] at h ⊢
  obtain ⟨l, hl, hpath⟩ := h
  have text : containerPath (ss ++ [t]) = '/' :: closed '/' l := by
    rw [hpath, squash]
    split
    · rename_i hsq
      rw [squash, if_pos hsq] at hpath
      apply absurd (containerPath_injective (hpath.trans containerPath_nil.symm))
      simp
    · rfl
  have segments : (ss ++ [t]).map Segment.text = l := by
    apply closed_injective _ _ (List.cons.inj text).2
    · intro p hp
      obtain ⟨u, -, rfl⟩ := List.mem_map.mp hp
      apply u.slash_free
    · intro p hp
      apply hfree p (hl.subset hp)
  use ss.map Segment.text
  constructor
  · apply List.IsPrefix.trans _ hl
    rw [← segments, List.map_append]
    apply List.prefix_append
  · symm
    apply squash_containerPath

theorem ancestorParts_of_trim {key : Str} {ss : List Segment} {s : Segment}
    (h : trimEndMatches key '/' = documentPath ss s) :
  ancestorParts key = [] :: (ss.take 98).map Segment.text
  := by
  have hlen : 1 < (splitn 100 (documentPath ss s) '/').length := by
    rw [one_lt_length_splitn (n := 98), splitOn_documentPath]
    simp
  simp only [ancestorParts, h]
  rw [if_pos hlen, dropLast_splitn 99, splitOn_documentPath,
    List.dropLast_cons_of_ne_nil (List.concat_ne_nil _ _), List.dropLast_concat,
    List.take_succ_cons, List.map_take]

theorem mem_ancestorKeys_of_trim {key : Str} {ss : List Segment} {s : Segment}
    (h : trimEndMatches key '/' = documentPath ss s) {a : Str} :
  a ∈ ancestorKeys key ↔ ∃ l, l <+: ss.take 98 ∧ a = containerPath l
  := by
  rw [mem_ancestorKeys_iff (ancestorParts_of_trim h)]
  constructor
  · rintro ⟨l, hl, rfl⟩
    obtain ⟨m, hm, rfl⟩ := List.prefix_map_iff.mp hl
    use m, hm
    apply squash_containerPath
  · rintro ⟨l, hl, rfl⟩
    use l.map Segment.text, hl.map _
    symm
    apply squash_containerPath

/-- The ancestors of a document are the containers above it. -/
theorem mem_ancestorKeys_documentPath {ss : List Segment} {s : Segment} {a : Str} :
  a ∈ ancestorKeys (documentPath ss s) ↔ ∃ l, l <+: ss.take 98 ∧ a = containerPath l
  := mem_ancestorKeys_of_trim (trimEndMatches_documentPath ss s)

/-- The ancestors of a container are the containers above it. -/
theorem mem_ancestorKeys_containerPath {ss : List Segment} {s : Segment} {a : Str} :
  a ∈ ancestorKeys (containerPath (ss ++ [s])) ↔ ∃ l, l <+: ss.take 98 ∧ a = containerPath l
  := mem_ancestorKeys_of_trim (trimEndMatches_containerPath ss s)

end ServerCore.LdpStore
