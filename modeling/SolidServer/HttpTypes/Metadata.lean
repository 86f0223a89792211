import SolidServer.Library.Serde
import SolidServer.HttpTypes

/-!
# Representation metadata

The metadata of a representation as it is kept in a file: the code that `serde` derives writes
it as a JSON object, and the crate `serde_json` writes that as a text.  The parameters of a
link, the conditional headers and the extra metadata are left out where their predicates hold,
which is where they are equal to their defaults, so whatever is written is read back
(`RepresentationMetadata.survives`).
-/

open Text Serde

namespace HttpTypes

/-- The functions of the crate `serde_json` between JSON values and texts. -/
structure JsonCrate where
  toString : Json → Option Str
  fromStr : Str → Option Json

/-- A value whose arrays and objects are nested less than 128 deep is written, and what was
written is parsed to the value. -/
def JsonCrate.Lawful (J : JsonCrate) : Prop :=
  ∀ j, j.depth < 128 → ∃ s, J.toString j = some s ∧ J.fromStr s = some j

/-- The crate for values without fractions, signs and large numbers, with texts in a layout. -/
def JsonCrate.laidOut (l : Json.Layout) : JsonCrate where
  toString j := some (j.print l 0)
  fromStr := Json.fromText

/-- The texts of all values are parsed to them, and so those of the values that are not deep. -/
theorem JsonCrate.laidOut_lawful (l : Json.Layout) :
  (laidOut l).Lawful
  := fun j _ => ⟨j.print l 0, rfl, j.fromText_print l⟩

/-- A typed `Link` header entry. -/
structure LinkHeader where
  target : Str
  rel : Str
  params : List Str

namespace LinkHeader

/-- The field of the target URI. -/
def targetField : RecordField Str :=
  .required "target" .string

/-- The field of the link relation. -/
def relField : RecordField Str :=
  .required "rel" .string

/-- The field of the additional params, which is left out without any. -/
def paramsField : RecordField (List Str) :=
  .skipped "params" (.vec .string) List.isEmpty []

/-- What is written of a link. -/
def written (l : LinkHeader) : List (Str × Option Json) := [
  targetField.write l.target,
  relField.write l.rel,
  paramsField.write l.params]

/-- The derived serialization of links. -/
def serde : Serde LinkHeader where
  serialize l := record l.written
  deserialize j := do
    let ms ← members j
    return {
      target := ← targetField.read ms
      rel := ← relField.read ms
      params := ← paramsField.read ms }

end LinkHeader

/-- Conditional request headers that guard write operations. -/
structure ConditionalHeaders where
  ifMatch : Option (List Str)
  ifNoneMatch : Option (List Str)
  ifModifiedSince : Option Str
  ifUnmodifiedSince : Option Str

namespace ConditionalHeaders

/-- The headers when none of them was in the request. -/
def default : ConditionalHeaders where
  ifMatch := none
  ifNoneMatch := none
  ifModifiedSince := none
  ifUnmodifiedSince := none

/-- Whether none of the headers was in the request. -/
def isEmpty (c : ConditionalHeaders) : Bool :=
  c.ifMatch.isNone && c.ifNoneMatch.isNone && c.ifModifiedSince.isNone
    && c.ifUnmodifiedSince.isNone

/-- The field of `If-Match`. -/
def ifMatchField : RecordField (Option (List Str)) :=
  .optional "if_match" (.vec .string)

/-- The field of `If-None-Match`. -/
def ifNoneMatchField : RecordField (Option (List Str)) :=
  .optional "if_none_match" (.vec .string)

/-- The field of `If-Modified-Since`. -/
def ifModifiedSinceField : RecordField (Option Str) :=
  .optional "if_modified_since" .string

/-- The field of `If-Unmodified-Since`. -/
def ifUnmodifiedSinceField : RecordField (Option Str) :=
  .optional "if_unmodified_since" .string

/-- What is written of the headers. -/
def written (c : ConditionalHeaders) : List (Str × Option Json) := [
  ifMatchField.write c.ifMatch,
  ifNoneMatchField.write c.ifNoneMatch,
  ifModifiedSinceField.write c.ifModifiedSince,
  ifUnmodifiedSinceField.write c.ifUnmodifiedSince]

/-- The derived serialization of conditional headers. -/
def serde : Serde ConditionalHeaders where
  serialize c := record c.written
  deserialize j := do
    let ms ← members j
    return {
      ifMatch := ← ifMatchField.read ms
      ifNoneMatch := ← ifNoneMatchField.read ms
      ifModifiedSince := ← ifModifiedSinceField.read ms
      ifUnmodifiedSince := ← ifUnmodifiedSinceField.read ms }

end ConditionalHeaders

/-- All metadata associated with a resource representation. -/
structure RepresentationMetadata where
  contentType : Option Str
  contentLength : Option UInt64
  contentLanguage : Option Str
  etag : Option Str
  lastModified : Option Str
  linkHeaders : List LinkHeader
  conditionals : ConditionalHeaders
  extra : HashMap Str Str

namespace RepresentationMetadata

/-- The field of the `Content-Type` header. -/
def contentTypeField : RecordField (Option Str) :=
  .optional "content_type" .string

/-- The field of the `Content-Length` in bytes. -/
def contentLengthField : RecordField (Option UInt64) :=
  .optional "content_length" .u64

/-- The field of the `Content-Language` header. -/
def contentLanguageField : RecordField (Option Str) :=
  .optional "content_language" .string

/-- The field of the `ETag` header. -/
def etagField : RecordField (Option Str) :=
  .optional "etag" .string

/-- The field of the `Last-Modified` date. -/
def lastModifiedField : RecordField (Option Str) :=
  .optional "last_modified" .string

/-- The field of the links, which has to be there. -/
def linkHeadersField : RecordField (List LinkHeader) :=
  .required "link_headers" (.vec LinkHeader.serde)

/-- The field of the conditional headers, which is left out without any. -/
def conditionalsField : RecordField ConditionalHeaders :=
  .skipped "conditionals" ConditionalHeaders.serde ConditionalHeaders.isEmpty .default

/-- The field of the extra metadata, which is left out without any. -/
def extraField (order : IterationOrder (Str × Str)) : RecordField (HashMap Str Str) :=
  .skipped "extra" (.map order .string) HashMap.isEmpty ∅

/-- What is written of the metadata, with the extra metadata visited in the order. -/
def written (order : IterationOrder (Str × Str)) (m : RepresentationMetadata) :
    List (Str × Option Json) := [
  contentTypeField.write m.contentType,
  contentLengthField.write m.contentLength,
  contentLanguageField.write m.contentLanguage,
  etagField.write m.etag,
  lastModifiedField.write m.lastModified,
  linkHeadersField.write m.linkHeaders,
  conditionalsField.write m.conditionals,
  (extraField order).write m.extra]

/-- The derived serialization of metadata. -/
def serde (order : IterationOrder (Str × Str)) : Serde RepresentationMetadata where
  serialize m := record (m.written order)
  deserialize j := do
    let ms ← members j
    return {
      contentType := ← contentTypeField.read ms
      contentLength := ← contentLengthField.read ms
      contentLanguage := ← contentLanguageField.read ms
      etag := ← etagField.read ms
      lastModified := ← lastModifiedField.read ms
      linkHeaders := ← linkHeadersField.read ms
      conditionals := ← conditionalsField.read ms
      extra := ← (extraField order).read ms }

/-- The text of the metadata. -/
def toJson (J : JsonCrate) (order : IterationOrder (Str × Str)) (m : RepresentationMetadata) :
    Option Str :=
  J.toString ((serde order).serialize m)

/-- The metadata with the given text. -/
def fromJson (J : JsonCrate) (order : IterationOrder (Str × Str)) (s : Str) :
    Option RepresentationMetadata :=
  (J.fromStr s).bind (serde order).deserialize

/-- The fields are equal, and the maps of extra metadata have the same entries. -/
structure Same (m back : RepresentationMetadata) : Prop where
  contentType : back.contentType = m.contentType
  contentLength : back.contentLength = m.contentLength
  contentLanguage : back.contentLanguage = m.contentLanguage
  etag : back.etag = m.etag
  lastModified : back.lastModified = m.lastModified
  linkHeaders : back.linkHeaders = m.linkHeaders
  conditionals : back.conditionals = m.conditionals
  extra : ∀ k, back.extra.lookup k = m.extra.lookup k

end RepresentationMetadata

/-! ### Links -/

namespace LinkHeader

/-- Only an empty list of params is left out. -/
theorem paramsField_exact :
  paramsField.Exact
  := RecordField.skipped_exact _ (vec_exact string_exact) fun _ => List.isEmpty_iff.mp

/-- A link is read back. -/
theorem serde_exact :
  serde.Exact
  := by
  intro l
  have names : (l.written.map Prod.fst).Nodup := by
    change [targetField.name, relField.name, paramsField.name].Nodup
    decide
  have target : targetField.read (present l.written) = some l.target :=
    (RecordField.required_exact _ string_exact).read_present names (by simp [written, targetField])
  have rel : relField.read (present l.written) = some l.rel :=
    (RecordField.required_exact _ string_exact).read_present names (by simp [written, relField])
  have params : paramsField.read (present l.written) = some l.params :=
    paramsField_exact.read_present names (by simp [written])
  simp only [serde, members_record, Option.bind_eq_bind, Option.bind_some, target, rel, params]
  rfl

/-- A link is an object with an array in it. -/
theorem serde_within :
  serde.Within 2
  := by
  intro l
  apply depth_record
  rw [written]
  simp only [List.forall_mem_cons]
  have string_within' : Serde.string.Within 1 := string_within.mono (Nat.zero_le 1)
  refine ⟨?target, ?rel, ?params, List.forall_mem_nil _⟩
  case target => exact RecordField.write_within string_within' _
  case rel => exact RecordField.write_within string_within' _
  case params => exact RecordField.write_within string_within.vec _

end LinkHeader

/-! ### Conditional headers -/

namespace ConditionalHeaders

/-- Only the default headers are skipped: a list without tags is not. -/
theorem isEmpty_iff {c : ConditionalHeaders} :
  c.isEmpty = true ↔ c = .default
  := by
  constructor
  · intro h
    simp only [isEmpty, Bool.and_eq_true, Option.isNone_iff_eq_none] at h
    obtain ⟨⟨⟨hmatch, hnoneMatch⟩, hmodified⟩, hunmodified⟩ := h
    obtain ⟨ifMatch, ifNoneMatch, ifModifiedSince, ifUnmodifiedSince⟩ := c
    simp only at hmatch hnoneMatch hmodified hunmodified
    rw [hmatch, hnoneMatch, hmodified, hunmodified]
    rfl
  · rintro rfl
    rfl

/-- A list of tags that may be missing is read back, an empty one too. -/
theorem tags_exact (name : String) :
  (RecordField.optional name (.vec .string)).Exact
  := by
  apply RecordField.optional_exact name (vec_exact string_exact)
  rintro tags ⟨⟩

/-- Conditional headers are read back. -/
theorem serde_exact :
  serde.Exact
  := by
  intro c
  have names : (c.written.map Prod.fst).Nodup := by
    change [ifMatchField.name, ifNoneMatchField.name, ifModifiedSinceField.name,
      ifUnmodifiedSinceField.name].Nodup
    decide
  have ifMatch : ifMatchField.read (present c.written) = some c.ifMatch :=
    (tags_exact _).read_present names (by simp [written, ifMatchField])
  have ifNoneMatch : ifNoneMatchField.read (present c.written) = some c.ifNoneMatch :=
    (tags_exact _).read_present names (by simp [written, ifNoneMatchField])
  have ifModifiedSince : ifModifiedSinceField.read (present c.written) = some c.ifModifiedSince :=
    (RecordField.string_exact _).read_present names (by simp [written, ifModifiedSinceField])
  have ifUnmodifiedSince :
      ifUnmodifiedSinceField.read (present c.written) = some c.ifUnmodifiedSince :=
    (RecordField.string_exact _).read_present names (by simp [written, ifUnmodifiedSinceField])
  simp only [serde, members_record, Option.bind_eq_bind, Option.bind_some, ifMatch, ifNoneMatch,
    ifModifiedSince, ifUnmodifiedSince]
  rfl

/-- Conditional headers are an object with arrays in it. -/
theorem serde_within :
  serde.Within 2
  := by
  intro c
  apply depth_record
  rw [written]
  simp only [List.forall_mem_cons]
  have dates := (string_within.mono (Nat.zero_le 1)).option
  have tags := string_within.vec.option
  refine ⟨?ifMatch, ?ifNoneMatch, ?ifModifiedSince, ?ifUnmodifiedSince, List.forall_mem_nil _⟩
  case ifMatch => exact RecordField.write_within tags _
  case ifNoneMatch => exact RecordField.write_within tags _
  case ifModifiedSince => exact RecordField.write_within dates _
  case ifUnmodifiedSince => exact RecordField.write_within dates _

end ConditionalHeaders

/-! ### Metadata -/

namespace RepresentationMetadata

variable (order : IterationOrder (Str × Str)) (m : RepresentationMetadata)

/-- A length that may be missing is read back. -/
theorem contentLengthField_exact :
  contentLengthField.Exact
  := by
  apply RecordField.optional_exact _ u64_exact
  rintro n ⟨⟩

theorem linkHeadersField_exact :
  linkHeadersField.Exact
  := RecordField.required_exact _ (vec_exact LinkHeader.serde_exact)

/-- Only the default headers are left out. -/
theorem conditionalsField_exact :
  conditionalsField.Exact
  := RecordField.skipped_exact _ ConditionalHeaders.serde_exact
      fun _ => ConditionalHeaders.isEmpty_iff.mp

/-- The fields are read back from the members they were written to. -/
theorem deserialize_serialize :
  ∃ back, (serde order).deserialize ((serde order).serialize m) = some back ∧ Same m back
  := by
  have names : ((m.written order).map Prod.fst).Nodup := by
    change [contentTypeField.name, contentLengthField.name, contentLanguageField.name,
      etagField.name, lastModifiedField.name, linkHeadersField.name, conditionalsField.name,
      "extra".toList].Nodup
    decide
  have contentType : contentTypeField.read (present (m.written order)) = some m.contentType :=
    (RecordField.string_exact _).read_present names (by simp [written, contentTypeField])
  have contentLength :
      contentLengthField.read (present (m.written order)) = some m.contentLength :=
    contentLengthField_exact.read_present names (by simp [written])
  have contentLanguage :
      contentLanguageField.read (present (m.written order)) = some m.contentLanguage :=
    (RecordField.string_exact _).read_present names (by simp [written, contentLanguageField])
  have etag : etagField.read (present (m.written order)) = some m.etag :=
    (RecordField.string_exact _).read_present names (by simp [written, etagField])
  have lastModified : lastModifiedField.read (present (m.written order)) = some m.lastModified :=
    (RecordField.string_exact _).read_present names (by simp [written, lastModifiedField])
  have linkHeaders : linkHeadersField.read (present (m.written order)) = some m.linkHeaders :=
    linkHeadersField_exact.read_present names (by simp [written])
  have conditionals : conditionalsField.read (present (m.written order)) = some m.conditionals :=
    conditionalsField_exact.read_present names (by simp [written])
  have extra : (extraField order).read (present (m.written order))
      = (extraField order).restored m.extra :=
    RecordField.read_present names (by simp [written])
  obtain ⟨back, hback, hsame⟩ :=
    RecordField.skipped_map_restores "extra" string_exact order m.extra
  refine ⟨{ m with extra := back }, ?_, ⟨rfl, rfl, rfl, rfl, rfl, rfl, rfl, hsame⟩⟩
  simp only [serde, members_record, Option.bind_eq_bind, Option.bind_some, contentType,
    contentLength, contentLanguage, etag, lastModified, linkHeaders, conditionals, extra]
  rw [extraField, hback]
  rfl

/-- Metadata is an object with an array of links in it. -/
theorem serde_within :
  (serde order).Within 4
  := by
  intro m
  apply depth_record
  rw [written]
  simp only [List.forall_mem_cons]
  have strings := (string_within.mono (Nat.zero_le 3)).option
  refine ⟨?contentType, ?contentLength, ?contentLanguage, ?etag, ?lastModified, ?linkHeaders,
    ?conditionals, ?extra, List.forall_mem_nil _⟩
  case contentType => exact RecordField.write_within strings _
  case contentLength => exact RecordField.write_within (u64_within.mono (Nat.zero_le 3)).option _
  case contentLanguage => exact RecordField.write_within strings _
  case etag => exact RecordField.write_within strings _
  case lastModified => exact RecordField.write_within strings _
  case linkHeaders => exact RecordField.write_within LinkHeader.serde_within.vec _
  case conditionals =>
    exact RecordField.write_within (ConditionalHeaders.serde_within.mono (by decide)) _
  case extra =>
    exact RecordField.write_within ((string_within.map order).mono (by decide)) _

/-- Metadata is read back from its text, whatever fields are present. -/
theorem survives {J : JsonCrate} (laws : J.Lawful) (order order' : IterationOrder (Str × Str))
    (m : RepresentationMetadata) :
  ∃ s back, m.toJson J order = some s ∧ fromJson J order' s = some back ∧ Same m back
  := by
  have hdepth : ((serde order).serialize m).depth < 128 :=
    lt_of_le_of_lt (serde_within order m) (by decide)
  obtain ⟨s, hs, hparse⟩ := laws _ hdepth
  obtain ⟨back, hback, hsame⟩ := deserialize_serialize order m
  refine ⟨s, back, hs, ?_, hsame⟩
  rw [fromJson, hparse, Option.bind_some]
  exact hback

/-- A list without tags survives, and so does a link without parameters. -/
theorem survives_noTags :
  ∃ s back, toJson (.laidOut .compact) (.listed _)
      { contentType := some "text/turtle".toList
        contentLength := some 42
        contentLanguage := none
        etag := some "\"xyz\"".toList
        lastModified := none
        linkHeaders := [
          { target := "/.acl".toList, rel := "acl".toList, params := [] },
          { target := "/".toList, rel := "type".toList, params := ["anchor".toList] }]
        conditionals := { ConditionalHeaders.default with ifMatch := some [] }
        extra := AList.insert "k".toList "v".toList ∅ } = some s
    ∧ fromJson (.laidOut .compact) (.reversed _) s = some back
    ∧ back.conditionals.ifMatch = some []
    ∧ back.linkHeaders.map LinkHeader.params = [[], ["anchor".toList]]
  := by
  obtain ⟨s, back, hs, hback, hsame⟩ :=
    survives (JsonCrate.laidOut_lawful .compact) (.listed _) (.reversed _) _
  refine ⟨s, back, hs, hback, ?_, ?_⟩
  · rw [hsame.conditionals]
  · rw [hsame.linkHeaders]
    rfl

end RepresentationMetadata

end HttpTypes
