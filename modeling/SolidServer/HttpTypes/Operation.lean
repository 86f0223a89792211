import SolidServer.Library.Float32
import SolidServer.Library.StableSort

/-!
# Content preferences

The media ranges of an `Accept` header, with their qualities, sorted from the most to the
least preferred.  The quality of a range may be read as something that is not a number, which
the comparator takes to be equal to every quality.  It is a total preorder exactly if that
makes no two different qualities equal, and then the ranges come out sorted.
-/

open Text StableSort

namespace HttpTypes

/-- A media range of an `Accept` header, with its quality. -/
structure MediaRange where
  mediaType : Str
  q : F32
deriving DecidableEq

namespace MediaRange

/-- The media range with a quality restricted to the unit interval. -/
def new (mediaType : Str) (q : F32) : MediaRange where
  mediaType := mediaType
  q := q.clamp (.ofRat 0) (.ofRat 1)

/-- The range matches any media type. -/
def isWildcard (range : MediaRange) : Bool :=
  range.mediaType == "*/*".toList

/-- The range is a subtype wildcard. -/
def isSubtypeWildcard (range : MediaRange) : Bool :=
  "/*".toList.isSuffixOf range.mediaType && range.mediaType != "*/*".toList

end MediaRange

/-- Content negotiation preferences, sorted by descending quality. -/
structure ContentPreferences where
  typePreferences : List MediaRange
deriving DecidableEq

namespace ContentPreferences

/-- The quality among the parameters of a media range. -/
def quality (params : Str) : Option F32 :=
  ((params.splitOn ';').findSome? fun p => stripPrefix "q=".toList (trim p)).bind F32.fromStr

/-- The media range an element of the header stands for, unless it is empty. -/
def parseRange (part : Str) : Option MediaRange :=
  let iter := splitn 2 part ';'
  iter.head?.bind fun first =>
    let mediaType := toAsciiLowercase (trim first)
    let q := (iter[1]?.bind quality).getD (.ofRat 1)
    if mediaType.isEmpty then none else some (.new mediaType q)

/-- The media ranges of an `Accept` header, in header order. -/
def parseRanges (value : Str) : List MediaRange :=
  (value.splitOn ',').filterMap parseRange

/-- Compare two media ranges by descending quality. -/
def byQuality (a b : MediaRange) : Ordering :=
  (b.q.partialCmp a.q).getD .eq

/-- The preferences of an `Accept` header, unless sorting them panics. -/
def fromAcceptHeader (sort : SliceSort) (value : Str) : Option ContentPreferences :=
  (sort.sortBy byQuality (parseRanges value)).map fun ranges => ⟨ranges⟩

/-- The client accepts anything. -/
def acceptsAny (preferences : ContentPreferences) : Bool :=
  preferences.typePreferences.isEmpty || preferences.typePreferences.all (·.isWildcard)

/-- The most preferred media type. -/
def mostPreferred (preferences : ContentPreferences) : Option Str :=
  preferences.typePreferences.head?.map (·.mediaType)

/-! ### The comparator -/

/-- A range does not come after another one unless its quality is exceeded. -/
theorem isLE_byQuality_iff (a b : MediaRange) :
  (byQuality a b).isLE = true ↔ ¬ a.q < b.q
  := by
  change _ ↔ ¬ a.q.partialCmp b.q = some .lt
  rw [byQuality, F32.partialCmp_swap a.q b.q]
  cases a.q.partialCmp b.q with
  | none => simp
  | some o => cases o <;> simp

theorem byQuality_of_eq {a b : MediaRange} (h : a.q = b.q) :
  byQuality a b = .eq
  := by
  rw [byQuality, h]
  cases b.q with
  | nan => rfl
  | number x =>
      change (some (compare x x)).getD .eq = .eq
      simp

theorem byQuality_swap (a b : MediaRange) :
  byQuality b a = (byQuality a b).swap
  := by
  rw [byQuality, byQuality, F32.partialCmp_swap b.q a.q]
  cases b.q.partialCmp a.q <;> rfl

/-- If some quality is not a number, all others are equal. -/
def Comparable (ranges : List MediaRange) : Prop :=
  ∀ a ∈ ranges, a.q = .nan → ∀ b ∈ ranges, ∀ c ∈ ranges, ¬ b.q < c.q

instance : DecidablePred Comparable :=
  fun ranges => inferInstanceAs (Decidable (∀ a ∈ ranges, _))

theorem totalPreorderOn_byQuality_iff (ranges : List MediaRange) :
  TotalPreorderOn byQuality ranges ↔ Comparable ranges
  := by
  constructor
  · intro h a ha hnan b hb c hc
    rw [← isLE_byQuality_iff]
    apply h.trans b hb a ha c hc
    · rw [isLE_byQuality_iff, hnan]
      apply F32.not_lt_nan
    · rw [isLE_byQuality_iff, hnan]
      apply F32.not_nan_lt
  · intro h
    constructor
    case swap =>
      intro a _ b _
      apply byQuality_swap
    case trans =>
      intro a ha b hb c hc hab hbc
      rw [isLE_byQuality_iff] at *
      by_cases hnan : b.q = .nan
      · apply h b hb hnan a ha c hc
      · apply F32.not_lt_trans hnan hbc hab

/-! ### The preferences -/

/-- The preferences are the ranges, sorted. -/
structure Sorted (ranges : List MediaRange) (preferences : ContentPreferences) : Prop where
  perm : preferences.typePreferences.Perm ranges
  descending : preferences.typePreferences.Pairwise fun a b => ¬ a.q < b.q
  stable : ∀ q, preferences.typePreferences.filter (·.q = q) = ranges.filter (·.q = q)
  preferred : ∀ mediaType, preferences.mostPreferred = some mediaType →
    ∃ a ∈ ranges, a.mediaType = mediaType ∧ ∀ b ∈ ranges, ¬ a.q < b.q

theorem sorted_of_stablySorted {ranges : List MediaRange} {preferences : ContentPreferences}
    (h : StablySorted byQuality ranges preferences.typePreferences) :
  Sorted ranges preferences
  := by
  have descending : preferences.typePreferences.Pairwise fun a b => ¬ a.q < b.q :=
    h.sorted.imp fun {a b} => (isLE_byQuality_iff a b).mp
  constructor
  case perm => exact h.perm
  case descending => exact descending
  case stable =>
    intro q
    by_cases hq : ∃ a ∈ ranges, a.q = q
    · obtain ⟨a, ha, rfl⟩ := hq
      have refined : (fun b : MediaRange => decide (b.q = a.q)) =
          fun b => decide (b.q = a.q) && byQuality a b == .eq := by
        funext b
        by_cases hb : b.q = a.q
        · simp [hb, byQuality_of_eq hb.symm]
        · simp [hb]
      rw [refined, ← List.filter_filter, ← List.filter_filter, h.stable a ha]
    · have none : ranges.filter (·.q = q) = [] := by
        simpa [List.filter_eq_nil_iff] using hq
      rw [none, ← List.perm_nil, ← none]
      apply h.perm.filter
  case preferred =>
    intro mediaType hfirst
    obtain ⟨a, ha, rfl⟩ := Option.map_eq_some_iff.mp hfirst
    obtain ⟨rest, hrest⟩ := List.head?_eq_some_iff.mp ha
    have perm := h.perm
    rw [hrest] at perm descending
    use a, perm.mem_iff.mp List.mem_cons_self, rfl
    intro b hb
    rcases List.mem_cons.mp (perm.mem_iff.mpr hb) with rfl | hb
    · apply F32.not_lt_self
    · apply List.rel_of_pairwise_cons descending hb

/-- Comparable ranges are sorted without a panic. -/
theorem exists_sorted (sort : SliceSort) {value : Str} (h : Comparable (parseRanges value)) :
  ∃ preferences, fromAcceptHeader sort value = some preferences ∧
    Sorted (parseRanges value) preferences
  := by
  obtain ⟨ranges, hsort, hsorted⟩ :=
    sort.sorts byQuality (parseRanges value) ((totalPreorderOn_byQuality_iff _).mpr h)
  refine ⟨⟨ranges⟩, ?_, sorted_of_stablySorted hsorted⟩
  rw [fromAcceptHeader, hsort]
  rfl

/-- The comparator is a total preorder on the ranges of a header, and they come out sorted,
exactly if all qualities that are numbers are equal when one is not. -/
theorem preferences_sorted_iff (sort : SliceSort) (value : Str) :
  (TotalPreorderOn byQuality (parseRanges value) ∧
      ∃ preferences, fromAcceptHeader sort value = some preferences ∧
        Sorted (parseRanges value) preferences)
    ↔ Comparable (parseRanges value)
  := by
  rw [totalPreorderOn_byQuality_iff, and_iff_left_iff_imp]
  apply exists_sorted sort

/-- The ranges `b` and `c` have different qualities, and both compare equal to `a`. -/
theorem not_preferences_sorted :
  ¬ ∀ (sort : SliceSort) (value : Str),
    TotalPreorderOn byQuality (parseRanges value) ∧
      ∃ preferences, fromAcceptHeader sort value = some preferences ∧
        Sorted (parseRanges value) preferences
  := by
  intro h
  have comparable := (totalPreorderOn_byQuality_iff _).mp
    (h mergeSort "b;q=0.5, a;q=NaN, c".toList).1
  revert comparable
  decide +kernel

end ContentPreferences

end HttpTypes
