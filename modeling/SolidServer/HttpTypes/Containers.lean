import Mathlib.Data.Set.Function
import SolidServer.Library.Chains
import SolidServer.HttpTypes.Identifier

/-!
# Containers and documents

An identifier that ends with a slash is that of a container.  `asContainer` puts a slash behind
the others, and `asDocument` takes all slashes from the end.  The two are inverse to each other
between documents and the containers whose identifiers end with one slash only
(`invOn_asDocument`); containers that differ in the number of slashes at the end have the same
document.

Going from an identifier to its parent, and on to the parent of that, ends: every step loses one
segment (`ranked_parent`).
-/

open Text

namespace HttpTypes

namespace ResourceIdentifier

@[ext]
theorem ext {id id' : ResourceIdentifier} (h : id.path = id'.path) :
  id = id'
  := by
  cases id
  congr

/-- The identifier is that of a container. -/
def isContainer (id : ResourceIdentifier) : Bool :=
  endsWith id.path '/'

/-- The identifier of the container, with a slash at the end. -/
def asContainer (id : ResourceIdentifier) : ResourceIdentifier :=
  if id.isContainer then id else ⟨id.path ++ ['/']⟩

/-- The identifier of the document, without slashes at the end. -/
def asDocument (id : ResourceIdentifier) : ResourceIdentifier :=
  ⟨trimEndMatches id.path '/'⟩

/-! ### Forms -/

/-- The identifiers of documents. -/
def documents : Set ResourceIdentifier :=
  {d | d.isContainer = false}

/-- The identifiers of containers, with one slash at the end. -/
def plainContainers : Set ResourceIdentifier :=
  {c | c.isContainer = true ∧ ¬ "//".toList <:+ c.path}

@[simp]
theorem isContainer_asDocument (id : ResourceIdentifier) :
  id.asDocument.isContainer = false
  := endsWith_trimEndMatches id.path '/'

theorem asContainer_of_document {d : ResourceIdentifier} (h : d.isContainer = false) :
  d.asContainer = ⟨d.path ++ ['/']⟩
  := by
  rw [asContainer, h]
  rfl

/-- The container of a document has the document. -/
theorem asDocument_asContainer {d : ResourceIdentifier} (h : d.isContainer = false) :
  d.asContainer.asDocument = d
  := by
  rw [asContainer_of_document h, asDocument, trimEndMatches_concat, trimEndMatches_eq_self h]

example :
    (asContainer ⟨"http://test.com/foo".toList⟩).asDocument = ⟨"http://test.com/foo".toList⟩ := by
  decide

/-- A container is that of its document exactly if it has one slash at the end. -/
theorem asContainer_asDocument_iff {c : ResourceIdentifier} (h : c.isContainer = true) :
  c.asDocument.asContainer = c ↔ ¬ "//".toList <:+ c.path
  := by
  obtain ⟨path⟩ := c
  obtain ⟨t, rfl⟩ := endsWith_iff.mp h
  have twice : "//".toList <:+ t ++ ['/'] ↔ endsWith t '/' = true := pair_suffix_concat_iff
  rw [asContainer_of_document (isContainer_asDocument _), asDocument, trimEndMatches_concat, twice,
    Bool.not_eq_true, ← trimEndMatches_eq_self_iff, mk.injEq, List.append_left_inj]

theorem isContainer_of_suffix {id : ResourceIdentifier} (h : "//".toList <:+ id.path) :
  id.isContainer = true
  := by
  obtain ⟨t, ht⟩ := h
  rw [isContainer, ← ht, endsWith_append (by decide)]
  rfl

theorem isContainer_asContainer (id : ResourceIdentifier) :
  id.asContainer.isContainer = true
  := by
  by_cases h : id.isContainer = true
  · rw [asContainer, if_pos h, h]
  · rw [asContainer, if_neg h, isContainer, endsWith_concat, beq_self_eq_true]

/-- Between documents and containers with one slash at the end the two ways are inverse. -/
theorem invOn_asDocument :
  Set.InvOn asDocument asContainer documents plainContainers
  := by
  constructor
  · intro d hd
    exact asDocument_asContainer hd
  · rintro c ⟨hcontainer, hplain⟩
    exact (asContainer_asDocument_iff hcontainer).mpr hplain

/-- Documents correspond to the containers with one slash at the end. -/
theorem bijOn_asContainer :
  Set.BijOn asContainer documents plainContainers
  := by
  apply invOn_asDocument.bijOn
  · intro d hd
    have hcontainer := isContainer_asContainer d
    use hcontainer
    rw [← asContainer_asDocument_iff hcontainer, asDocument_asContainer hd]
  · intro c _
    exact isContainer_asDocument c

/-! ### Containers with the same document -/

/-- The identifier is the other one with more slashes at the end. -/
def Longer (id id' : ResourceIdentifier) : Prop :=
  ∃ n, 0 < n ∧ id.path = id'.path ++ List.replicate n '/'

theorem Longer.asDocument_eq {c c' : ResourceIdentifier} (h : Longer c c') :
  c.asDocument = c'.asDocument
  := by
  obtain ⟨n, -, hn⟩ := h
  rw [asDocument, hn, trimEndMatches_append_replicate]
  rfl

theorem Longer.ne {c c' : ResourceIdentifier} (h : Longer c c') :
  c ≠ c'
  := by
  rintro rfl
  obtain ⟨n, hpos, hn⟩ := h
  have hlength := congrArg List.length hn
  rw [List.length_append, List.length_replicate] at hlength
  omega

/-- Different identifiers with the same document differ in the slashes at the end. -/
theorem asDocument_eq_iff {c c' : ResourceIdentifier} :
  c.asDocument = c'.asDocument ↔ c = c' ∨ Longer c c' ∨ Longer c' c
  := by
  constructor
  · intro h
    have htrim : trimEndMatches c.path '/' = trimEndMatches c'.path '/' := congrArg path h
    obtain ⟨m, hm⟩ := exists_trimEndMatches_append c.path '/'
    obtain ⟨n, hn⟩ := exists_trimEndMatches_append c'.path '/'
    -- the identifier with more slashes has the difference behind the other one
    have longer : ∀ {a b : ResourceIdentifier} {t : Str} {k l : ℕ},
        a.path = t ++ List.replicate k '/' → b.path = t ++ List.replicate l '/' → k < l →
          Longer b a := by
      intro a b t k l ha hb hkl
      use l - k, Nat.sub_pos_of_lt hkl
      rw [ha, hb, List.append_assoc, ← List.replicate_add, Nat.add_sub_cancel' hkl.le]
    rw [htrim] at hm
    rcases Nat.lt_trichotomy m n with hlt | rfl | hlt
    · exact .inr (.inr (longer hm hn hlt))
    · exact .inl (ext (hm.trans hn.symm))
    · exact .inr (.inl (longer hn hm hlt))
  · rintro (rfl | h | h)
    · rfl
    · exact h.asDocument_eq
    · exact h.asDocument_eq.symm

/-- The ways between documents and containers are inverse for an identifier exactly if it does not
end with two slashes, and a container has a document of its own exactly but for the containers
that have more or less slashes at the end. -/
theorem forms_inverse_iff (id : ResourceIdentifier) :
  (((id.isContainer = false → id.asContainer.asDocument = id) ∧
        (id.isContainer = true → id.asDocument.asContainer = id)) ↔
      ¬ "//".toList <:+ id.path) ∧
    ∀ c : ResourceIdentifier, id.isContainer = true → c.isContainer = true →
      ((id.asDocument = c.asDocument → id = c) ↔ ¬ Longer id c ∧ ¬ Longer c id)
  := by
  constructor
  · constructor
    · rintro ⟨-, hback⟩ htwice
      have hcontainer := isContainer_of_suffix htwice
      exact (asContainer_asDocument_iff hcontainer).mp (hback hcontainer) htwice
    · intro hplain
      exact ⟨asDocument_asContainer, fun h => (asContainer_asDocument_iff h).mpr hplain⟩
  · intro c _ _
    rw [asDocument_eq_iff]
    constructor
    · intro h
      constructor
      · intro hlonger
        exact hlonger.ne (h (.inr (.inl hlonger)))
      · intro hlonger
        exact hlonger.ne (h (.inr (.inr hlonger))).symm
    · rintro ⟨h, h'⟩ (heq | hlonger | hlonger)
      · exact heq
      · exact absurd hlonger h
      · exact absurd hlonger h'

/-- The identifiers of a container with one and with two slashes have the same document, whose
container has one. -/
theorem forms_not_inverse :
  ¬ ((∀ d : ResourceIdentifier, d.isContainer = false → d.asContainer.asDocument = d) ∧
    (∀ c : ResourceIdentifier, c.isContainer = true → c.asDocument.asContainer = c) ∧
    ∀ c c' : ResourceIdentifier, c.isContainer = true → c'.isContainer = true →
      c.asDocument = c'.asDocument → c = c')
  := by
  rintro ⟨-, hback, -⟩
  have := hback ⟨"http://test.com/foo//".toList⟩ (by decide)
  revert this
  decide

/-! ### Chains of parents -/

/-- A parent has one segment less, and there is none if there are no segments. -/
theorem parent_spec (id : ResourceIdentifier) :
  (id.parent = none ∧ depth id.path = 0) ∨
    ∃ p, id.parent = some p ∧ depth id.path = depth p.path + 1
  := by
  rw [← depth_trimEndMatches id.path]
  by_cases h : '/' ∈ trimEndMatches id.path '/'
  · right
    obtain ⟨t, s, htrim⟩ := exists_segment_of_mem h
    use ⟨t ++ ['/'] ++ ['/']⟩, Origin.parent_of_trimEndMatches htrim
    rw [htrim, depth_append_segment, depth_concat_slash, depth_concat_slash]
  · left
    constructor
    · rw [parent, rfind_eq_none h]
      rfl
    · exact depth_eq_zero h

theorem ranked_parent :
  Chains.Ranked parent fun id => depth id.path
  := by
  constructor
  · intro id
    rcases parent_spec id with ⟨hnone, hdepth⟩ | ⟨p, hsome, hdepth⟩
    · exact iff_of_true hnone hdepth
    · apply iff_of_false
      · rw [hsome]
        exact Option.some_ne_none p
      · rw [hdepth]
        exact Nat.succ_ne_zero _
  · intro id p hp
    rcases parent_spec id with ⟨hnone, -⟩ | ⟨p', hsome, hdepth⟩
    · rw [hnone] at hp
      cases hp
    · obtain rfl : p' = p := Option.some.inj (hsome.symm.trans hp)
      exact hdepth

/-- The chain of the parents ends behind as many steps as there are segments, which are no more
than the slashes. -/
theorem parents_end (id : ResourceIdentifier) :
  ∃ n ≤ id.path.count '/' + 1, ∀ m, Chains.after parent m id = none ↔ n ≤ m
  := by
  use depth id.path + 1, Nat.succ_le_succ (depth_le_count id.path)
  intro m
  exact ranked_parent.after_eq_none_iff

end ResourceIdentifier

end HttpTypes
