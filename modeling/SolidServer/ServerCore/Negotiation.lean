import SolidServer.HttpTypes.Operation
import SolidServer.ServerCore.Handlers

/-!
# Two readings of the Accept header

The handlers match a stored content type against the elements of an `Accept` header one by
one, and `ContentPreferences` lists the media ranges of the header.  For headers without
parameters they agree, but for two things: an empty element satisfies the handlers and is not
a media range, and media ranges are in lower case.
-/

open Text HttpTypes ContentPreferences StableSort

namespace ServerCore

/-- The media range matches the type when case is ignored.  A subtype wildcard matches the types
that begin with its major type and a slash. -/
def Matches (range : MediaRange) (type : Str) : Prop :=
  range.isWildcard = true ∨
    (range.isSubtypeWildcard = true ∧
      toAsciiLowercase range.mediaType.dropLast <+: toAsciiLowercase type) ∨
    toAsciiLowercase range.mediaType = toAsciiLowercase type

instance (range : MediaRange) (type : Str) : Decidable (Matches range type) :=
  inferInstanceAs (Decidable (_ ∨ (_ ∧ _) ∨ _))

/-- An element of the header is empty. -/
def HasEmptyElement (header : Str) : Prop :=
  ∃ part ∈ header.splitOn ',', trim part = []

/-! ### Elements without parameters -/

theorem noParameters_of_mem_splitOn {header part : Str} (h : ';' ∉ header)
    (hpart : part ∈ header.splitOn ',') :
  ';' ∉ part
  := fun hmem => h ((infix_of_mem_splitOn hpart).mem hmem)

theorem withoutParameters_eq_trim {part : Str} (h : ';' ∉ part) :
  withoutParameters part = trim part
  := by
  rw [withoutParameters, List.splitOn_eq_singleton h]
  rfl

/-- The media range of an element without parameters has quality 1. -/
theorem parseRange_eq {part : Str} (h : ';' ∉ part) :
  parseRange part =
    if trim part = [] then none
    else some (.new (toAsciiLowercase (trim part)) (.ofRat 1))
  := by
  have pieces : splitn 2 part ';' = [part] := by
    simp [splitn, List.splitOn_eq_singleton h]
  rw [parseRange, pieces]
  simp [toAsciiLowercase]

theorem mem_parseRanges_iff {header : Str} (h : ';' ∉ header) {range : MediaRange} :
  range ∈ parseRanges header ↔ ∃ part ∈ header.splitOn ',', trim part ≠ [] ∧
    range = .new (toAsciiLowercase (trim part)) (.ofRat 1)
  := by
  rw [parseRanges, List.mem_filterMap]
  apply exists_congr
  intro part
  apply and_congr_right
  intro hpart
  rw [parseRange_eq (noParameters_of_mem_splitOn h hpart)]
  split
  · simp [*]
  · rw [Option.some.injEq, eq_comm, and_iff_right ‹_›]

/-- The ranges of a header without parameters are sorted without a panic. -/
theorem exists_preferences (sort : SliceSort) {header : Str} (h : ';' ∉ header) :
  ∃ preferences, fromAcceptHeader sort header = some preferences ∧
    ∀ range, range ∈ preferences.typePreferences ↔ range ∈ parseRanges header
  := by
  have quality : ∀ range ∈ parseRanges header, range.q = (MediaRange.new [] (.ofRat 1)).q := by
    intro range hrange
    obtain ⟨part, -, -, rfl⟩ := (mem_parseRanges_iff h).mp hrange
    rfl
  have comparable : Comparable (parseRanges header) := by
    intro a _ _ b hb c hc
    rw [quality b hb, quality c hc]
    apply F32.not_lt_self
  obtain ⟨preferences, hsome, hsorted⟩ := exists_sorted sort comparable
  use preferences, hsome
  intro range
  apply hsorted.perm.mem_iff

/-! ### Tokens -/

/-- What satisfies the handlers: nothing, a wildcard, the major type and a wildcard, or the
type. -/
theorem tokenSatisfied_iff {type token : Str} :
  tokenSatisfied type token = true ↔
    token = [] ∨ token = "*/*".toList ∨
      (∃ major, token = major ++ "/*".toList ∧ major ++ ['/'] <+: type) ∨ type = token
  := by
  rw [tokenSatisfied]
  split
  · rename_i hfree
    rw [Bool.or_eq_true, decide_eq_true_eq, List.isEmpty_iff] at hfree
    rcases hfree with rfl | rfl
    · simp
    · simp
  · rename_i hfree
    rw [Bool.or_eq_true, decide_eq_true_eq, List.isEmpty_iff, not_or] at hfree
    rw [or_iff_right hfree.2, or_iff_right hfree.1]
    cases hstrip : stripSuffix "/*".toList token with
    | none =>
        have other : ¬ ∃ major, token = major ++ "/*".toList ∧ major ++ ['/'] <+: type := by
          rintro ⟨major, hmajor, -⟩
          rw [stripSuffix_eq_some_iff.mpr hmajor] at hstrip
          cases hstrip
        rw [or_iff_right other]
        apply beq_iff_eq
    | some major =>
        obtain rfl := stripSuffix_eq_some_iff.mp hstrip
        dsimp only
        rw [List.isPrefixOf_iff_prefix]
        constructor
        · intro h
          exact .inl ⟨major, rfl, h⟩
        · rintro (⟨major', h, hprefix⟩ | rfl)
          · rwa [List.append_cancel_right h]
          · use ['*']
            simp

/-- A token that satisfies the handlers is empty, or its range matches. -/
theorem matches_of_tokenSatisfied {type token : Str} (h : tokenSatisfied type token = true)
    (q : F32) :
  token = [] ∨ Matches (.new (toAsciiLowercase token) q) type
  := by
  rcases tokenSatisfied_iff.mp h with rfl | rfl | ⟨major, rfl, hmajor⟩ | rfl
  · exact .inl rfl
  · exact .inr (.inl rfl)
  · right
    have split : toAsciiLowercase (major ++ "/*".toList)
        = toAsciiLowercase (major ++ ['/']) ++ ['*'] := by
      simp [toAsciiLowercase]
    by_cases hwild : toAsciiLowercase (major ++ "/*".toList) = "*/*".toList
    · exact .inl (beq_iff_eq.mpr hwild)
    · refine .inr (.inl ⟨?_, ?_⟩)
      · rw [MediaRange.isSubtypeWildcard, Bool.and_eq_true, bne_iff_ne]
        refine ⟨List.isSuffixOf_iff_suffix.mpr ?_, hwild⟩
        use toAsciiLowercase major
        simp [MediaRange.new, toAsciiLowercase]
      · rw [MediaRange.new, split, List.dropLast_concat, toAsciiLowercase_toAsciiLowercase]
        apply hmajor.map
  · exact .inr (.inr (.inr (toAsciiLowercase_toAsciiLowercase _)))

/-- In lower case, a token whose range matches satisfies the handlers. -/
theorem tokenSatisfied_of_matches {type token : Str} {q : F32} (htype : LowerCase type)
    (htoken : LowerCase token) (h : Matches (.new (toAsciiLowercase token) q) type) :
  tokenSatisfied type token = true
  := by
  rw [Matches, htoken.toAsciiLowercase_eq, htype.toAsciiLowercase_eq] at h
  rw [tokenSatisfied_iff]
  rcases h with hwild | ⟨hsubtype, hmajor⟩ | hexact
  · exact .inr (.inl (eq_of_beq hwild))
  · rw [MediaRange.isSubtypeWildcard, Bool.and_eq_true, List.isSuffixOf_iff_suffix] at hsubtype
    obtain ⟨⟨major, hsuffix⟩, -⟩ := hsubtype
    change major ++ "/*".toList = token at hsuffix
    have front : token.dropLast = major ++ ['/'] := by
      rw [← hsuffix]
      simp
    have lower : LowerCase token.dropLast :=
      fun c hc => htoken c (List.mem_of_mem_dropLast hc)
    refine .inr (.inr (.inl ⟨major, hsuffix.symm, ?_⟩))
    rw [← front, ← lower.toAsciiLowercase_eq]
    exact hmajor
  · rw [MediaRange.new, htoken.toAsciiLowercase_eq] at hexact
    exact .inr (.inr (.inr hexact.symm))

/-! ### Agreement -/

/-- For a header without parameters, a content type that satisfies the handlers matches a media
range unless an element is empty, and conversely in lower case. -/
theorem accept_satisfied_agrees (sort : SliceSort) {header : Str} (h : ';' ∉ header)
    (contentType : Str) :
  ∃ preferences, fromAcceptHeader sort header = some preferences ∧
    let accepted := HasEmptyElement header ∨
      ∃ range ∈ preferences.typePreferences, Matches range (withoutParameters contentType)
    (acceptSatisfied header contentType = true → accepted) ∧
      (LowerCase header → LowerCase (withoutParameters contentType) → accepted →
        acceptSatisfied header contentType = true)
  := by
  obtain ⟨preferences, hsome, hmem⟩ := exists_preferences sort h
  have token : ∀ part ∈ header.splitOn ',', withoutParameters part = trim part := by
    intro part hpart
    apply withoutParameters_eq_trim (noParameters_of_mem_splitOn h hpart)
  refine ⟨preferences, hsome, ?_, ?_⟩
  · intro hsatisfied
    obtain ⟨part, hpart, htoken⟩ := List.any_eq_true.mp hsatisfied
    rw [token part hpart] at htoken
    by_cases hempty : trim part = []
    · exact .inl ⟨part, hpart, hempty⟩
    · right
      use .new (toAsciiLowercase (trim part)) (.ofRat 1)
      rw [hmem, mem_parseRanges_iff h]
      use ⟨part, hpart, hempty, rfl⟩
      apply (matches_of_tokenSatisfied htoken _).resolve_left hempty
  · intro hheader htype haccepted
    apply List.any_eq_true.mpr
    rcases haccepted with ⟨part, hpart, hempty⟩ | ⟨range, hrange, hmatches⟩
    · use part, hpart
      rw [token part hpart, hempty]
      rfl
    · rw [hmem, mem_parseRanges_iff h] at hrange
      obtain ⟨part, hpart, -, rfl⟩ := hrange
      use part, hpart
      rw [token part hpart]
      have lower : LowerCase (trim part) := fun c hc =>
        hheader c ((infix_of_mem_splitOn hpart).mem (mem_of_mem_trim hc))
      apply tokenSatisfied_of_matches htype lower hmatches

/-- Every content type satisfies the handlers if the media ranges accept anything. -/
theorem acceptSatisfied_of_acceptsAny (sort : SliceSort) {header : Str} (h : ';' ∉ header)
    {preferences : ContentPreferences} (hsome : fromAcceptHeader sort header = some preferences)
    (hany : preferences.acceptsAny = true) (contentType : Str) :
  acceptSatisfied header contentType = true
  := by
  obtain ⟨preferences', hsome', hmem⟩ := exists_preferences sort h
  rw [hsome] at hsome'
  obtain rfl := Option.some.inj hsome'
  have wild : ∀ range ∈ preferences.typePreferences, range.isWildcard = true := by
    rw [acceptsAny, Bool.or_eq_true, List.isEmpty_iff, List.all_eq_true] at hany
    rcases hany with hnil | hall
    · simp [hnil]
    · exact hall
  -- the first element is empty or a wildcard
  obtain ⟨part, parts, hparts⟩ := List.exists_cons_of_ne_nil (List.splitOn_ne_nil ',' header)
  have hpart : part ∈ header.splitOn ',' := by
    rw [hparts]
    apply List.mem_cons_self
  apply List.any_eq_true.mpr
  use part, hpart
  rw [withoutParameters_eq_trim (noParameters_of_mem_splitOn h hpart), tokenSatisfied_iff]
  by_cases hempty : trim part = []
  · exact .inl hempty
  · right
    left
    have hrange := wild (.new (toAsciiLowercase (trim part)) (.ofRat 1))
      ((hmem _).mpr ((mem_parseRanges_iff h).mpr ⟨part, hpart, hempty, rfl⟩))
    apply eq_of_toAsciiLowercase_eq rfl (eq_of_beq hrange)

/-- `text/*` and `text/turtle` -/
theorem accept_satisfied_agrees_turtle :
  ∃ preferences, fromAcceptHeader mergeSort "text/*".toList = some preferences ∧
    let accepted := HasEmptyElement "text/*".toList ∨
      ∃ range ∈ preferences.typePreferences,
        Matches range (withoutParameters "text/turtle".toList)
    (acceptSatisfied "text/*".toList "text/turtle".toList = true → accepted) ∧
      (LowerCase "text/*".toList → LowerCase (withoutParameters "text/turtle".toList) →
        accepted → acceptSatisfied "text/*".toList "text/turtle".toList = true)
  := accept_satisfied_agrees mergeSort (by decide) "text/turtle".toList

/-- The empty element of `text/html,` satisfies the handlers. -/
theorem not_accept_satisfied_agrees :
  ¬ ∀ (sort : SliceSort) (header contentType : Str), ';' ∉ header →
    ∃ preferences, fromAcceptHeader sort header = some preferences ∧
      (acceptSatisfied header contentType = true ↔ preferences.typePreferences = [] ∨
        ∃ range ∈ preferences.typePreferences, Matches range (withoutParameters contentType))
  := by
  intro h
  have noParameters : ';' ∉ "text/html,".toList := by decide
  obtain ⟨preferences, hsome, hmem⟩ := exists_preferences mergeSort noParameters
  obtain ⟨preferences', hsome', hiff⟩ :=
    h mergeSort "text/html,".toList "text/turtle".toList noParameters
  rw [hsome] at hsome'
  obtain rfl := Option.some.inj hsome'
  have satisfied : acceptSatisfied "text/html,".toList "text/turtle".toList = true := by decide
  have unmatched : parseRanges "text/html,".toList ≠ [] ∧
      ∀ range ∈ parseRanges "text/html,".toList,
        ¬ Matches range (withoutParameters "text/turtle".toList) := by
    decide +kernel
  rcases hiff.mp satisfied with hnil | ⟨range, hrange, hmatches⟩
  · apply unmatched.1
    apply List.eq_nil_iff_forall_not_mem.mpr
    intro range hrange
    rw [← hmem, hnil] at hrange
    cases hrange
  · apply unmatched.2 range ((hmem range).mp hrange) hmatches

end ServerCore
