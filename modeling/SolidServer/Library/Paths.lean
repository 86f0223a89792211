import SolidServer.Library.Text

/-!
# Slash-separated paths

A `Segment` is a nonempty string without slashes.  A path made of segments names either a
container, `/s₁/…/sₙ/`, or a document in one, `/s₁/…/sₙ/s`.

The `depth` of any string is the number of segments that follow a slash in it.
-/

namespace Text

/-- A segment of a path. -/
structure Segment where
  text : Str
  ne_nil : text ≠ []
  slash_free : '/' ∉ text
deriving DecidableEq

namespace Segment

@[ext]
theorem ext {s t : Segment} (h : s.text = t.text) :
  s = t
  := by
  cases s
  congr

end Segment

/-- The path of a container. -/
def containerPath (ss : List Segment) : Str :=
  '/' :: closed '/' (ss.map Segment.text)

/-- The path of a document in a container. -/
def documentPath (ss : List Segment) (s : Segment) : Str :=
  containerPath ss ++ s.text

@[simp]
theorem containerPath_nil :
  containerPath [] = ['/']
  := rfl

theorem containerPath_concat (ss : List Segment) (s : Segment) :
  containerPath (ss ++ [s]) = documentPath ss s ++ ['/']
  := by
  simp [containerPath, documentPath]

@[simp]
theorem endsWith_containerPath (ss : List Segment) :
  endsWith (containerPath ss) '/' = true
  := by
  rcases List.eq_nil_or_concat ss with rfl | ⟨ss, s, rfl⟩
  · rfl
  · rw [List.concat_eq_append, containerPath_concat, endsWith_concat, beq_self_eq_true]

@[simp]
theorem endsWith_documentPath (ss : List Segment) (s : Segment) :
  endsWith (documentPath ss s) '/' = false
  := by
  rw [documentPath, endsWith_append s.ne_nil]
  apply endsWith_eq_false s.slash_free

theorem containerPath_injective :
  Function.Injective containerPath
  := by
  intro ss ts h
  have free : ∀ us : List Segment, ∀ p ∈ us.map Segment.text, '/' ∉ p := by
    intro us p hp
    obtain ⟨u, -, rfl⟩ := List.mem_map.mp hp
    apply u.slash_free
  have key := closed_injective (free ss) (free ts) (List.cons.inj h).2
  apply List.map_injective_iff.mpr _ key
  intro s t hst
  apply Segment.ext hst

/-- A document's path is not that of a container. -/
theorem documentPath_ne_containerPath (ss ts : List Segment) (s : Segment) :
  documentPath ss s ≠ containerPath ts
  := by
  intro h
  have := endsWith_documentPath ss s
  rw [h, endsWith_containerPath] at this
  cases this

/-- The pieces of a document's path are its segments, after an empty piece. -/
theorem splitOn_documentPath (ss : List Segment) (s : Segment) :
  (documentPath ss s).splitOn '/' = [] :: (ss.map Segment.text ++ [s.text])
  := by
  have h : documentPath ss s = ['/'].intercalate ([] :: (ss.map Segment.text ++ [s.text])) := by
    rw [← List.cons_append, intercalate_concat, closed_cons]
    rfl
  rw [h, List.splitOn_intercalate]
  · intro p hp
    rcases List.mem_cons.mp hp with rfl | hp
    · apply List.not_mem_nil
    · rcases List.mem_append.mp hp with hp | hp
      · obtain ⟨t, -, rfl⟩ := List.mem_map.mp hp
        apply t.slash_free
      · obtain rfl := List.mem_singleton.mp hp
        apply s.slash_free
  · apply List.cons_ne_nil

@[simp]
theorem trimEndMatches_documentPath (ss : List Segment) (s : Segment) :
  trimEndMatches (documentPath ss s) '/' = documentPath ss s
  := trimEndMatches_eq_self (endsWith_documentPath ss s)

@[simp]
theorem trimEndMatches_containerPath (ss : List Segment) (s : Segment) :
  trimEndMatches (containerPath (ss ++ [s])) '/' = documentPath ss s
  := by
  rw [containerPath_concat, trimEndMatches_concat, trimEndMatches_documentPath]

/-! ### Depth -/

/-- The number of segments behind slashes. -/
def depth (s : Str) : ℕ :=
  (s.splitOn '/').tail.countP (!·.isEmpty)

/-- The piece behind a slash counts unless it is empty. -/
theorem depth_append_cons (s : Str) {t : Str} (h : '/' ∉ t) :
  depth (s ++ '/' :: t) = depth s + if t.isEmpty then 0 else 1
  := by
  rw [depth, List.splitOn_append_cons_self, List.splitOn_eq_singleton h,
    List.tail_append_of_ne_nil (List.splitOn_ne_nil _ _), List.countP_append, ← depth]
  cases t <;> rfl

theorem depth_append_segment (s : Str) (p : Segment) :
  depth (s ++ '/' :: p.text) = depth s + 1
  := by
  rw [depth_append_cons s p.slash_free, List.isEmpty_eq_false_iff.mpr p.ne_nil]
  rfl

@[simp]
theorem depth_concat_slash (s : Str) :
  depth (s ++ ['/']) = depth s
  := depth_append_cons s List.not_mem_nil

/-- Slashes at the end do not count. -/
theorem depth_trimEndMatches (s : Str) :
  depth (trimEndMatches s '/') = depth s
  := by
  obtain ⟨n, hn⟩ := exists_trimEndMatches_append s '/'
  conv_rhs => rw [hn, append_replicate_eq depth_concat_slash]

theorem depth_eq_zero {s : Str} (h : '/' ∉ s) :
  depth s = 0
  := by
  rw [depth, List.splitOn_eq_singleton h]
  rfl

/-- There are no more segments than slashes. -/
theorem depth_le_count (s : Str) :
  depth s ≤ s.count '/'
  := by
  apply List.countP_le_length.trans
  rw [List.length_tail, length_splitOn, Nat.add_sub_cancel]

/-- What is trimmed of slashes ends with a segment if it still has a slash. -/
theorem exists_segment_of_mem {s : Str} (h : '/' ∈ trimEndMatches s '/') :
  ∃ (t : Str) (p : Segment), trimEndMatches s '/' = t ++ '/' :: p.text
  := by
  obtain ⟨u, t, hreverse, hfree⟩ := List.eq_append_cons_of_mem (List.mem_reverse.mpr h)
  have hsplit : trimEndMatches s '/' = t.reverse ++ '/' :: u.reverse := by
    rw [← List.reverse_reverse (trimEndMatches s '/'), hreverse]
    simp
  have hne : u.reverse ≠ [] := by
    intro hnil
    have hends := endsWith_trimEndMatches s '/'
    rw [hsplit, hnil, endsWith_concat] at hends
    cases hends
  use t.reverse, ⟨u.reverse, hne, fun hmem => hfree (List.mem_reverse.mp hmem)⟩

end Text
