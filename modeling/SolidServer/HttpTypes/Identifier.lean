import SolidServer.Library.Paths
import SolidServer.Library.Search
import SolidServer.HttpTypes

/-!
# Resource identifiers

A `ResourceIdentifier` is the text of a URL: the scheme and the authority, which are the
`Origin` of a resource, and a path.  Parsing URLs is left to a library, `UrlCrate`.

`parent` puts a slash behind the one that it has found, so it never gives the container that a
resource is in, and the root of an origin has a parent unless the authority is empty.
`pathOnly` looks for the text of the path in the whole identifier, and finds an earlier place
if the authority begins like the path.
-/

open Text

namespace HttpTypes

/-- Parsing a URL, and the path of a URL. -/
structure UrlCrate where
  parse : Str → Option Url
  path : Url → Str

namespace ResourceIdentifier

/-- The path of the URL, or the whole text if it is no URL. -/
def pathOnly (U : UrlCrate) (id : ResourceIdentifier) : Str :=
  if startsWith id.path '/' then id.path
  else
    match U.parse id.path with
    | none => id.path
    | some url =>
        match find (U.path url) id.path with
        | some pos => id.path.drop pos
        | none => id.path

/-- The parent container, or nothing if there is no slash to be found. -/
def parent (id : ResourceIdentifier) : Option ResourceIdentifier :=
  let trimmed := trimEndMatches id.path '/'
  (rfind trimmed '/').map fun pos => ⟨trimmed.take (pos + 1) ++ ['/']⟩

/-- The identifier followed by a segment. -/
def join (id : ResourceIdentifier) (segment : Str) : ResourceIdentifier :=
  let base := trimEndMatches id.path '/'
  let seg := trimStartMatches segment '/'
  ⟨base ++ '/' :: seg⟩

example : parent ⟨"http://test.com/a/b".toList⟩ = some ⟨"http://test.com/a//".toList⟩ := by
  decide

end ResourceIdentifier

/-- A scheme and an authority. -/
structure Origin where
  scheme : Str
  authority : Str
  scheme_free : ':' ∉ scheme ∧ '/' ∉ scheme
  authority_free : '/' ∉ authority ∧ '?' ∉ authority ∧ '#' ∉ authority

namespace Origin

/-- What the identifiers of the resources of an origin begin with. -/
def text (o : Origin) : Str :=
  o.scheme ++ ':' :: '/' :: '/' :: o.authority

/-- The identifier of a container. -/
def container (o : Origin) (ss : List Segment) : ResourceIdentifier :=
  ⟨o.text ++ containerPath ss⟩

/-- The identifier of a document in a container. -/
def document (o : Origin) (ss : List Segment) (s : Segment) : ResourceIdentifier :=
  ⟨o.text ++ documentPath ss s⟩

/-! ### Parents -/

theorem trimEndMatches_document (o : Origin) (ss : List Segment) (s : Segment) :
  trimEndMatches (o.document ss s).path '/' = (o.document ss s).path
  := by
  apply trimEndMatches_eq_self
  rw [document, documentPath, ← List.append_assoc, endsWith_append s.ne_nil]
  apply endsWith_eq_false s.slash_free

theorem path_container_concat (o : Origin) (ss : List Segment) (s : Segment) :
  (o.container (ss ++ [s])).path = (o.document ss s).path ++ ['/']
  := by
  rw [container, document, containerPath_concat, List.append_assoc]

/-- A document and the container with its name have the same trimming. -/
theorem trimEndMatches_container_concat (o : Origin) (ss : List Segment) (s : Segment) :
  trimEndMatches (o.container (ss ++ [s])).path '/' = (o.document ss s).path
  := by
  rw [path_container_concat, trimEndMatches_concat, trimEndMatches_document]

/-- A container's text ends with a slash. -/
theorem exists_path_container (o : Origin) (ss : List Segment) :
  ∃ t, (o.container ss).path = t ++ ['/']
  := by
  obtain ⟨t, ht⟩ := endsWith_iff.mp (endsWith_containerPath ss)
  use o.text ++ t
  rw [container, ht, List.append_assoc]

/-- The slash before the last segment is found, and gets another one. -/
theorem parent_of_trimEndMatches {id : ResourceIdentifier} {t : Str} {s : Segment}
    (h : trimEndMatches id.path '/' = t ++ '/' :: s.text) :
  id.parent = some ⟨t ++ ['/'] ++ ['/']⟩
  := by
  rw [ResourceIdentifier.parent, h, rfind_append_cons t s.slash_free, Option.map_some,
    List.take_length_add_append]
  rfl

/-- The parent of a document is its container's identifier with a slash more. -/
theorem parent_document (o : Origin) (ss : List Segment) (s : Segment) :
  (o.document ss s).parent = some ⟨(o.container ss).path ++ ['/']⟩
  := by
  obtain ⟨t, ht⟩ := exists_path_container o ss
  have path : (o.document ss s).path = (o.container ss).path ++ s.text :=
    (List.append_assoc _ _ _).symm
  rw [ht]
  apply parent_of_trimEndMatches
  rw [trimEndMatches_document, path, ht, List.append_assoc, List.singleton_append]

/-- The parent of a container has a slash more, too. -/
theorem parent_container_concat (o : Origin) (ss : List Segment) (s : Segment) :
  (o.container (ss ++ [s])).parent = some ⟨(o.container ss).path ++ ['/']⟩
  := by
  rw [← parent_document o ss s, ResourceIdentifier.parent, ResourceIdentifier.parent,
    trimEndMatches_container_concat, trimEndMatches_document]

/-- A container's identifier is not one with a slash more. -/
theorem path_append_slash_ne (id : ResourceIdentifier) :
  some (⟨id.path ++ ['/']⟩ : ResourceIdentifier) ≠ some id
  := by
  intro h
  have lengths := congrArg (fun id => id.path.length) (Option.some.inj h)
  simp at lengths

/-- The text of the root is trimmed to the origin, if the authority is not empty. -/
theorem trimEndMatches_root {o : Origin} (h : o.authority ≠ []) :
  trimEndMatches (o.container []).path '/' = o.text
  := by
  have apart : o.text = o.scheme ++ [':', '/', '/'] ++ o.authority := by simp [text]
  rw [container, containerPath_nil, trimEndMatches_concat]
  apply trimEndMatches_eq_self
  rw [apart, endsWith_append h]
  apply endsWith_eq_false o.authority_free.1

theorem trimEndMatches_root_of_nil {o : Origin} (h : o.authority = []) :
  trimEndMatches (o.container []).path '/' = o.scheme ++ [':']
  := by
  have path : (o.container []).path = o.scheme ++ [':'] ++ ['/'] ++ ['/'] ++ ['/'] := by
    simp [container, text, h]
  rw [path, trimEndMatches_concat, trimEndMatches_concat, trimEndMatches_concat]
  apply trimEndMatches_eq_self
  rw [endsWith_concat]
  rfl

/-- The root has no parent exactly if the authority is empty. -/
theorem parent_root_eq_none_iff (o : Origin) :
  (o.container []).parent = none ↔ o.authority = []
  := by
  rw [ResourceIdentifier.parent, Option.map_eq_none_iff]
  constructor
  · intro hnone
    by_contra hauthority
    have found : rfind o.text '/' = some (o.scheme ++ [':', '/']).length := by
      rw [← rfind_append_cons _ o.authority_free.1, text, List.append_assoc]
      rfl
    rw [trimEndMatches_root hauthority, found] at hnone
    cases hnone
  · intro hauthority
    rw [trimEndMatches_root_of_nil hauthority]
    apply rfind_eq_none
    simpa using o.scheme_free.2

/-- Joining a container and a segment gives the document in the container, unless the container
is the root of an origin with an empty authority. -/
theorem join_container {o : Origin} {ss : List Segment} (h : ss ≠ [] ∨ o.authority ≠ [])
    (s : Segment) :
  (o.container ss).join s.text = o.document ss s
  := by
  have trimmed : trimEndMatches (o.container ss).path '/' ++ ['/'] = (o.container ss).path := by
    rcases List.eq_nil_or_concat ss with rfl | ⟨ss, t, rfl⟩
    · rw [trimEndMatches_root (h.resolve_left fun hne => hne rfl)]
      rfl
    · rw [List.concat_eq_append, trimEndMatches_container_concat, path_container_concat]
  rw [ResourceIdentifier.join, trimStartMatches_eq_self s.slash_free, ← List.singleton_append,
    ← List.append_assoc, trimmed, container, List.append_assoc]
  rfl

/-- What is joined to a container does not have it as its parent. -/
theorem parent_join_ne (o : Origin) (ss : List Segment) (s : Segment) :
  ((o.container ss).join s.text).parent ≠ some (o.container ss)
  := by
  by_cases h : ss ≠ [] ∨ o.authority ≠ []
  · rw [join_container h, parent_document]
    apply path_append_slash_ne
  · rw [not_or, not_not, not_not] at h
    obtain ⟨rfl, hauthority⟩ := h
    have joined : (o.container []).join s.text = ⟨o.scheme ++ [':'] ++ '/' :: s.text⟩ := by
      rw [ResourceIdentifier.join, trimEndMatches_root_of_nil hauthority,
        trimStartMatches_eq_self s.slash_free]
    have trimmed : trimEndMatches (o.scheme ++ [':'] ++ '/' :: s.text) '/'
        = o.scheme ++ [':'] ++ '/' :: s.text := by
      apply trimEndMatches_eq_self
      rw [List.append_cons _ '/' s.text, endsWith_append s.ne_nil]
      apply endsWith_eq_false s.slash_free
    rw [joined, parent_of_trimEndMatches trimmed]
    intro hparent
    have lengths := congrArg (fun id => id.path.length) (Option.some.inj hparent)
    simp [container, text, hauthority] at lengths

/-- `parent` gives neither the container of a document nor that of a container, and `join` does
not go back; and the root has no parent exactly if the authority is empty. -/
theorem parent_not_inverse (o : Origin) (ss : List Segment) (s : Segment) :
  (o.document ss s).parent ≠ some (o.container ss) ∧
    (o.container (ss ++ [s])).parent ≠ some (o.container ss) ∧
    ((o.container []).parent = none ↔ o.authority = []) ∧
    ((o.container ss).join s.text).parent ≠ some (o.container ss)
  := by
  refine ⟨?_, ?_, parent_root_eq_none_iff o, parent_join_ne o ss s⟩
  · rw [parent_document]
    apply path_append_slash_ne
  · rw [parent_container_concat]
    apply path_append_slash_ne

/-- The origin `http://test.com`. -/
def testCom : Origin where
  scheme := "http".toList
  authority := "test.com".toList
  scheme_free := by decide
  authority_free := by decide

/-- The parent of `http://test.com/a` is not the root. -/
theorem not_parent_inverse :
  ¬ ∀ (o : Origin) (ss : List Segment) (s : Segment),
    (o.document ss s).parent = some (o.container ss) ∧
      (o.container (ss ++ [s])).parent = some (o.container ss) ∧
      (o.container []).parent = none ∧
      ((o.container ss).join s.text).parent = some (o.container ss)
  := by
  intro h
  obtain ⟨hdocument, -⟩ := h testCom [] ⟨"a".toList, by decide, by decide⟩
  revert hdocument
  decide

end Origin

/-! ### Paths -/

/-- The path of a URL without query and fragment. -/
structure UrlPath where
  text : Str
  rooted : startsWith text '/' = true
  plain : '?' ∉ text ∧ '#' ∉ text

/-- The identifier is parsed as a URL with the same text. -/
def UrlCrate.Normal (U : UrlCrate) (id : ResourceIdentifier) : Prop :=
  U.parse id.path = some ⟨id.path⟩

/-- The path of a URL is what follows the authority. -/
structure UrlCrate.Lawful (U : UrlCrate) : Prop where
  path_eq : ∀ (o : Origin) (p : UrlPath), U.Normal ⟨o.text ++ p.text⟩ →
    U.path ⟨o.text ++ p.text⟩ = p.text

namespace Origin

/-- An identifier with an origin does not begin with a slash. -/
theorem startsWith_text (o : Origin) (t : Str) :
  startsWith (o.text ++ t) '/' = false
  := by
  apply Bool.eq_false_iff.mpr
  intro h
  obtain ⟨u, hu⟩ := startsWith_iff.mp h
  rw [text, List.append_assoc] at hu
  cases hscheme : o.scheme with
  | nil =>
      rw [hscheme] at hu
      cases hu
  | cons c cs =>
      rw [hscheme] at hu
      obtain rfl := (List.cons.inj hu).1
      apply o.scheme_free.2
      rw [hscheme]
      exact List.mem_cons_self

/-- The text of an origin has two slashes. -/
theorem slash_suffix_text {o : Origin} {v : Str} (h : '/' :: v <:+ o.text) :
  v = '/' :: o.authority ∨ v = o.authority
  := by
  obtain ⟨u, hu⟩ := h
  rw [text] at hu
  rcases List.append_eq_append_iff.mp hu with ⟨w, hscheme, hw⟩ | ⟨w, hu', hw⟩
  · cases w with
    | nil => cases hw
    | cons c w =>
        obtain rfl := (List.cons.inj hw).1
        exact absurd (hscheme ▸ List.mem_append_right u List.mem_cons_self) o.scheme_free.2
  · have hsuffix : '/' :: v <:+ ':' :: '/' :: '/' :: o.authority := ⟨w, hw.symm⟩
    rcases List.suffix_cons_iff.mp hsuffix with hcolon | hsuffix
    · cases hcolon
    · rcases List.suffix_cons_iff.mp hsuffix with hfirst | hsuffix
      · exact .inl (List.cons.inj hfirst).2
      · rcases List.suffix_cons_iff.mp hsuffix with hsecond | hsuffix
        · exact .inr (List.cons.inj hsecond).2
        · exact absurd (hsuffix.mem List.mem_cons_self) o.authority_free.1

end Origin

namespace UrlPath

theorem ne_nil (p : UrlPath) :
  p.text ≠ []
  := by
  intro h
  have rooted := p.rooted
  rw [h] at rooted
  cases rooted

/-- The path is found where it is exactly if it repeats neither of the texts that begin with a
slash before it. -/
theorem find_eq_some_iff (p : UrlPath) (o : Origin) :
  find p.text (o.text ++ p.text) = some o.text.length
    ↔ ¬ Repeats ('/' :: o.authority) p.text ∧ ¬ Repeats ('/' :: '/' :: o.authority) p.text
  := by
  rw [find_append_eq_some_iff, ← prefix_append_self_iff (List.cons_ne_nil _ _),
    ← prefix_append_self_iff (List.cons_ne_nil _ _)]
  constructor
  · intro h
    have last : '/' :: o.authority <:+ o.text := ⟨o.scheme ++ [':', '/'], by simp [Origin.text]⟩
    have both : '/' :: '/' :: o.authority <:+ o.text := ⟨o.scheme ++ [':'], by simp [Origin.text]⟩
    exact ⟨h _ last (List.cons_ne_nil _ _), h _ both (List.cons_ne_nil _ _)⟩
  · rintro ⟨hlast, hboth⟩ v hv hne hbegins
    obtain ⟨t, ht⟩ := startsWith_iff.mp p.rooted
    obtain ⟨c, w, rfl⟩ := List.exists_cons_of_ne_nil hne
    have hc : c = '/' := by
      rw [ht] at hbegins
      exact (List.cons_prefix_cons.mp hbegins).1.symm
    subst hc
    rcases Origin.slash_suffix_text hv with rfl | rfl
    · exact hboth hbegins
    · exact hlast hbegins

end UrlPath

/-- The path of an identifier in normal form is what follows the authority, exactly if it does
not repeat the authority with one or two slashes before it. -/
theorem pathOnly_eq_iff {U : UrlCrate} (laws : U.Lawful) (o : Origin) (p : UrlPath)
    (normal : U.Normal ⟨o.text ++ p.text⟩) :
  ResourceIdentifier.pathOnly U ⟨o.text ++ p.text⟩ = p.text
    ↔ ¬ Repeats ('/' :: o.authority) p.text ∧ ¬ Repeats ('/' :: '/' :: o.authority) p.text
  := by
  have origin : 0 < o.text.length := by
    rw [Origin.text, List.length_append, List.length_cons]
    omega
  have path := List.length_pos_iff.mpr p.ne_nil
  rw [← p.find_eq_some_iff, ResourceIdentifier.pathOnly, o.startsWith_text, normal,
    if_neg Bool.false_ne_true]
  simp only [laws.path_eq o p normal]
  cases hfind : find p.text (o.text ++ p.text) with
  | none =>
      constructor
      · intro h
        have lengths := congrArg List.length h
        rw [List.length_append] at lengths
        omega
      · intro h
        cases h
  | some pos =>
      dsimp only
      constructor
      · intro h
        have lengths := congrArg List.length h
        rw [List.length_drop, List.length_append] at lengths
        congr 1
        omega
      · intro h
        rw [Option.some.inj h, List.drop_left]

/-! ### An identifier whose path is not found -/

/-- A parser that accepts every text, and takes what stands behind `://` to be the authority up to
the next slash and the path from there to the query or fragment. -/
def splitting : UrlCrate where
  parse s := some ⟨s⟩
  path url :=
    (((url.serialization.dropWhile (· ≠ ':')).drop 3).dropWhile (· ≠ '/')).takeWhile
      fun c => c ≠ '?' ∧ c ≠ '#'

theorem lawful_splitting :
  splitting.Lawful
  := by
  constructor
  intro o p _
  have scheme : (o.text ++ p.text).dropWhile (· ≠ ':')
      = ':' :: '/' :: '/' :: (o.authority ++ p.text) := by
    rw [Origin.text, List.append_assoc, List.dropWhile_append_of_pos]
    · rfl
    · intro c hc
      simpa using ne_of_mem_of_not_mem hc o.scheme_free.1
  have authority : (o.authority ++ p.text).dropWhile (· ≠ '/') = p.text := by
    obtain ⟨t, ht⟩ := startsWith_iff.mp p.rooted
    rw [List.dropWhile_append_of_pos, ht]
    · rfl
    · intro c hc
      simpa using ne_of_mem_of_not_mem hc o.authority_free.1
  change (((o.text ++ p.text).dropWhile (· ≠ ':')).drop 3 |>.dropWhile (· ≠ '/')).takeWhile
    (fun c => c ≠ '?' ∧ c ≠ '#') = p.text
  rw [scheme, List.drop_succ_cons, List.drop_succ_cons, List.drop_succ_cons,
    List.drop_zero, authority, List.takeWhile_eq_self_iff]
  intro c hc
  simpa using ⟨ne_of_mem_of_not_mem hc p.plain.1, ne_of_mem_of_not_mem hc p.plain.2⟩

/-- The path `/some/path`. -/
def somePath : UrlPath where
  text := "/some/path".toList
  rooted := rfl
  plain := by decide

theorem pathOnly_somePath :
  ResourceIdentifier.pathOnly splitting ⟨Origin.testCom.text ++ somePath.text⟩ = somePath.text
  := by
  apply (pathOnly_eq_iff lawful_splitting .testCom somePath rfl).mpr
  constructor
  · rw [← prefix_append_self_iff (List.cons_ne_nil _ _)]
    decide
  · rw [← prefix_append_self_iff (List.cons_ne_nil _ _)]
    decide

/-- The path `/`. -/
def rootPath : UrlPath where
  text := "/".toList
  rooted := rfl
  plain := by decide

/-- The path `/` is found in the slashes before the authority. -/
theorem not_pathOnly_eq :
  ¬ ∀ (U : UrlCrate) (o : Origin) (p : UrlPath), U.Lawful → U.Normal ⟨o.text ++ p.text⟩ →
    ResourceIdentifier.pathOnly U ⟨o.text ++ p.text⟩ = p.text
  := by
  intro h
  have found := h splitting .testCom rootPath lawful_splitting rfl
  revert found
  decide

end HttpTypes
