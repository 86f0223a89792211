import SolidServer.StaticAssets.Handler
import Mathlib.Data.List.Nodup

/-!
# The choice of a static asset

The entry that is chosen for a URL has a longest prefix of it.  Two prefixes of one string with
the same number of octets are equal, so if the prefixes of the entries are different, the choice
does not depend on the order of the entries (`resolve_perm`).

A prefix is compared as text, and may end inside a segment of the URL: all URLs are matched by
whole segments exactly if the prefixes that can match end with a slash (`served_whole_iff`).
-/

open Text HttpTypes

namespace Text

/-- The octets of a prefix are a prefix of the octets. -/
theorem utf8_prefix_utf8 {p s : Str} (h : p <+: s) :
  utf8 p <+: utf8 s
  := by
  obtain ⟨t, rfl⟩ := h
  exact ⟨utf8 t, List.flatMap_append.symm⟩

/-- Prefixes of one string with the same number of octets are equal. -/
theorem eq_of_length_utf8_eq {p q s : Str} (hp : p <+: s) (hq : q <+: s)
    (h : (utf8 p).length = (utf8 q).length) :
  p = q
  := by
  apply utf8_injective
  have hpq := List.prefix_of_prefix_length_le (utf8_prefix_utf8 hp) (utf8_prefix_utf8 hq) h.le
  apply hpq.eq_of_length h

/-- A longer prefix has more octets. -/
theorem length_utf8_lt {p q : Str} (h : p <+: q) (hne : p ≠ q) :
  (utf8 p).length < (utf8 q).length
  := by
  apply lt_of_le_of_ne (utf8_prefix_utf8 h).length_le
  intro hlength
  apply hne (eq_of_length_utf8_eq h List.prefix_rfl hlength)

end Text

namespace StaticAssets

/-! ### The greatest key -/

section

variable {α : Type} {key : α → ℕ} {l l' : List α} {a : α}

theorem maxByKey_eq_none_iff :
  maxByKey key l = none ↔ l = []
  := by
  cases l <;> simp [maxByKey]

/-- No element has a greater key than the one that is chosen. -/
theorem le_of_maxByKey (h : maxByKey key l = some a) :
  ∀ b ∈ l, key b ≤ key a
  := by
  cases l with
  | nil => cases h
  | cons c l =>
      obtain rfl := Option.some.inj h
      induction l generalizing c with
      | nil =>
          intro b hb
          rw [List.mem_singleton.mp hb]
          apply le_rfl
      | cons d l ih =>
          intro b hb
          rw [List.foldl_cons]
          by_cases hdc : key d < key c
          · rw [if_pos hdc]
            have hc := ih c rfl c List.mem_cons_self
            rcases List.mem_cons.mp hb with rfl | hb
            · apply hc
            · rcases List.mem_cons.mp hb with rfl | hb
              · apply hdc.le.trans hc
              · apply ih c rfl b (List.mem_cons_of_mem _ hb)
          · rw [if_neg hdc]
            have hd := ih d rfl d List.mem_cons_self
            rcases List.mem_cons.mp hb with rfl | hb
            · apply (not_lt.mp hdc).trans hd
            · rcases List.mem_cons.mp hb with rfl | hb
              · apply hd
              · apply ih d rfl b (List.mem_cons_of_mem _ hb)

/-- If the keys are different, the order of the elements makes no difference. -/
theorem maxByKey_perm (h : l.Perm l') (inj : ∀ a ∈ l, ∀ b ∈ l, key a = key b → a = b) :
  maxByKey key l = maxByKey key l'
  := by
  cases ha : maxByKey key l with
  | none =>
      rw [maxByKey_eq_none_iff.mp ha] at h
      apply (maxByKey_eq_none_iff.mpr h.symm.eq_nil).symm
  | some a =>
      cases hb : maxByKey key l' with
      | none =>
          rw [maxByKey_eq_none_iff.mp hb] at h
          rw [maxByKey_eq_none_iff.mpr h.eq_nil] at ha
          cases ha
      | some b =>
          have hbl := h.mem_iff.mpr (mem_of_maxByKey hb)
          have hal := h.mem_iff.mp (mem_of_maxByKey ha)
          rw [inj a (mem_of_maxByKey ha) b hbl
            (le_antisymm (le_of_maxByKey hb a hal) (le_of_maxByKey ha b hbl))]

end

namespace StaticAssetHandler

variable {h : StaticAssetHandler} {url : Str} {e : StaticAssetEntry}

/-- The entries whose prefix matches. -/
theorem mem_filter_iff :
  e ∈ h.entries.filter (fun e => e.urlPath.isPrefixOf url) ↔ e ∈ h.entries ∧ e.urlPath <+: url
  := by
  rw [List.mem_filter, List.isPrefixOf_iff_prefix]

theorem mem_of_best (he : h.best url = some e) :
  e ∈ h.entries
  := (mem_filter_iff.mp (mem_of_maxByKey he)).1

/-- No matching prefix is longer than the one that is chosen. -/
theorem length_le_of_best (he : h.best url = some e) {e' : StaticAssetEntry}
    (he' : e' ∈ h.entries) (matches' : e'.urlPath <+: url) :
  (utf8 e'.urlPath).length ≤ (utf8 e.urlPath).length
  := le_of_maxByKey he e' (mem_filter_iff.mpr ⟨he', matches'⟩)

/-- Some entry is chosen if one matches. -/
theorem exists_best (he : e ∈ h.entries) (hstarts : e.urlPath <+: url) :
  ∃ e', h.best url = some e'
  := by
  cases hbest : h.best url with
  | some e' => exact ⟨e', rfl⟩
  | none =>
      have hmem := mem_filter_iff.mpr ⟨he, hstarts⟩
      rw [maxByKey_eq_none_iff.mp hbest] at hmem
      cases hmem

/-- A matching prefix that is not an initial part of a longer one is that of the chosen entry. -/
theorem urlPath_of_best {b : StaticAssetEntry} (hb : h.best url = some b) (he : e ∈ h.entries)
    (hstarts : e.urlPath <+: url)
    (longest : ∀ e' ∈ h.entries, e'.urlPath <+: url → e.urlPath <+: e'.urlPath →
      e.urlPath = e'.urlPath) :
  b.urlPath = e.urlPath
  := by
  have hbstarts := prefix_of_best hb
  rcases List.prefix_or_prefix_of_prefix hstarts hbstarts with hle | hle
  · apply (longest b (mem_of_best hb) hbstarts hle).symm
  · by_contra hne
    exact absurd (length_le_of_best hb he hstarts) (length_utf8_lt hle hne).not_ge

/-- The entry has a matching prefix, of which `suffix` is what follows, and none that matches is
longer. -/
structure Longest (entries : List StaticAssetEntry) (url : Str) (e : StaticAssetEntry)
    (suffix : Str) : Prop where
  mem : e ∈ entries
  matched : url = e.urlPath ++ suffix
  longest : ∀ e' ∈ entries, e'.urlPath <+: url → (utf8 e'.urlPath).length ≤ (utf8 e.urlPath).length

theorem Longest.of_best {suffix : Str} (he : h.best url = some e)
    (hsuffix : url = e.urlPath ++ suffix) :
  Longest h.entries url e suffix
  := by
  constructor
  case mem => exact mem_of_best he
  case matched => exact hsuffix
  case longest => exact fun e' he' hstarts => length_le_of_best he he' hstarts

/-- If the prefixes of the entries are different, an entry with a longest one is chosen. -/
theorem Longest.best_eq (distinct : (h.entries.map StaticAssetEntry.urlPath).Nodup) {suffix : Str}
    (longest : Longest h.entries url e suffix) :
  h.best url = some e
  := by
  have hstarts : e.urlPath <+: url := by
    rw [longest.matched]
    apply List.prefix_append _ _
  obtain ⟨b, hb⟩ := exists_best longest.mem hstarts
  have hlength := le_antisymm (longest.longest b (mem_of_best hb) (prefix_of_best hb))
    (length_le_of_best hb longest.mem hstarts)
  have hurl := eq_of_length_utf8_eq (prefix_of_best hb) hstarts hlength
  rw [hb, List.inj_on_of_nodup_map distinct (mem_of_best hb) longest.mem hurl]

/-- What is resolved is the path of an entry with a longest prefix, followed by the rest of the
URL. -/
theorem resolve_ok_iff (mimeGuess : Posix.Path → Str)
    (distinct : (h.entries.map StaticAssetEntry.urlPath).Nodup) {urlPath : Str} {p : Posix.Path}
    {mime : Str} :
  h.resolve mimeGuess urlPath = some (.ok (p, mime)) ↔
    ∃ e suffix, Longest h.entries (clean urlPath) e suffix ∧ ¬ "..".toList <:+: suffix ∧
      p = Posix.join e.fsPath (utf8 (trimStartMatches suffix '/')) ∧ mime = mimeGuess p
  := by
  constructor
  · intro hresolve
    cases he : h.best (clean urlPath) with
    | none =>
        rw [resolve, he] at hresolve
        cases hresolve
    | some e =>
        obtain ⟨suffix, hsuffix⟩ := prefix_of_best he
        rw [resolve_eq mimeGuess he hsuffix.symm] at hresolve
        split at hresolve
        · cases hresolve
        · obtain ⟨rfl, rfl⟩ := Prod.mk.inj (Except.ok.inj (Option.some.inj hresolve))
          exact ⟨e, suffix, .of_best he hsuffix.symm, ‹_›, rfl, rfl⟩
  · rintro ⟨e, suffix, longest, hdots, rfl, rfl⟩
    rw [resolve_eq mimeGuess (longest.best_eq distinct) longest.matched, if_neg hdots]

/-- If the prefixes of the entries are different, their order makes no difference, and no
matching prefix is longer than that of the chosen entry, which is the one whose path is
resolved. -/
theorem resolve_perm (mimeGuess : Posix.Path → Str) {entries entries' : List StaticAssetEntry}
    (perm : entries.Perm entries') (distinct : (entries.map StaticAssetEntry.urlPath).Nodup)
    (expires expires' : Option ℕ) (urlPath : Str) :
  resolve mimeGuess ⟨entries, expires⟩ urlPath = resolve mimeGuess ⟨entries', expires'⟩ urlPath ∧
    (∀ e, best ⟨entries, expires⟩ (clean urlPath) = some e →
      ∀ e' ∈ entries, e'.urlPath <+: clean urlPath →
        (utf8 e'.urlPath).length ≤ (utf8 e.urlPath).length) ∧
    ∀ p mime, resolve mimeGuess ⟨entries, expires⟩ urlPath = some (.ok (p, mime)) ↔
      ∃ e suffix, Longest entries (clean urlPath) e suffix ∧ ¬ "..".toList <:+: suffix ∧
        p = Posix.join e.fsPath (utf8 (trimStartMatches suffix '/')) ∧ mime = mimeGuess p
  := by
  have same : best ⟨entries, expires⟩ (clean urlPath)
      = best ⟨entries', expires'⟩ (clean urlPath) := by
    apply maxByKey_perm (perm.filter _)
    intro a ha b hb hlength
    rw [List.mem_filter, List.isPrefixOf_iff_prefix] at ha hb
    apply List.inj_on_of_nodup_map distinct ha.1 hb.1
    apply eq_of_length_utf8_eq ha.2 hb.2 hlength
  refine ⟨?_, ?_, fun p mime => resolve_ok_iff mimeGuess distinct⟩
  · rw [resolve, resolve, same]
  · intro e he e' he' hstarts
    apply length_le_of_best he he' hstarts

/-- The entries of two directories, one in the other. -/
def nested : List StaticAssetEntry :=
  [⟨"/a".toList, utf8 "/srv/a".toList⟩, ⟨"/a/b".toList, utf8 "/srv/b".toList⟩]

theorem resolve_perm_nested :
  resolve (fun _ => "text/css".toList) ⟨nested, none⟩ "/a/b/c".toList
      = resolve (fun _ => "text/css".toList) ⟨nested.reverse, none⟩ "/a/b/c".toList ∧
    resolve (fun _ => "text/css".toList) ⟨nested, none⟩ "/a/b/c".toList
      = some (.ok (utf8 "/srv/b/c".toList, "text/css".toList))
  := by
  obtain ⟨same, -, resolved⟩ := resolve_perm (fun _ => "text/css".toList) nested.reverse_perm.symm
    (by decide) none none "/a/b/c".toList
  use same
  rw [resolved]
  refine ⟨⟨"/a/b".toList, utf8 "/srv/b".toList⟩, "/c".toList, ⟨?_, ?_, ?_⟩, ?_, ?_, rfl⟩
  all_goals decide

/-! ### Whole segments -/

/-- The prefix matches whole segments of the URL. -/
def WholeSegments (p url : Str) : Prop :=
  url = p ∨ endsWith p '/' = true ∨ p ++ ['/'] <+: url

/-- A URL that is resolved is matched by whole segments. -/
def ServedWhole (mimeGuess : Posix.Path → Str) (h : StaticAssetHandler) (urlPath : Str) : Prop :=
  ∀ r e, h.resolve mimeGuess urlPath = some (.ok r) →
    h.best (clean urlPath) = some e →
      WholeSegments e.urlPath (clean urlPath)

/-- The prefix ends inside a segment of the URL. -/
def EndsInside (p url : Str) : Prop :=
  p <+: url ∧ ¬ WholeSegments p url

/-- A longer prefix matches, or the rest of the URL is refused. -/
def Overruled (h : StaticAssetHandler) (p url : Str) : Prop :=
  (∃ e ∈ h.entries, e.urlPath <+: url ∧ p <+: e.urlPath ∧ p ≠ e.urlPath) ∨
    "..".toList <:+: url.drop p.length

/-- A prefix that ends inside a segment is harmless exactly if it is overruled. -/
theorem servedWhole_iff (mimeGuess : Posix.Path → Str) (h : StaticAssetHandler) (urlPath : Str) :
  h.ServedWhole mimeGuess urlPath
    ↔ ∀ e ∈ h.entries, EndsInside e.urlPath (clean urlPath) →
      h.Overruled e.urlPath (clean urlPath)
  := by
  constructor
  · intro served e he hinside
    rw [Overruled, or_iff_not_imp_left]
    intro hlonger
    by_contra hdots
    obtain ⟨b, hb⟩ := exists_best he hinside.1
    have same : b.urlPath = e.urlPath := by
      apply urlPath_of_best hb he hinside.1
      intro e' he' hurl hle
      by_contra hne
      apply hlonger ⟨e', he', hurl, hle, hne⟩
    obtain ⟨suffix, hsuffix⟩ := prefix_of_best hb
    rw [← hsuffix, same, List.drop_left] at hdots
    have resolved := resolve_eq mimeGuess hb hsuffix.symm
    rw [if_neg hdots] at resolved
    apply hinside.2
    rw [← same]
    apply served _ b resolved hb
  · intro overruled r e hr he
    by_contra hwhole
    have hstarts := prefix_of_best he
    rcases overruled e (mem_of_best he) ⟨hstarts, hwhole⟩ with ⟨e', he', hurl, hle, hne⟩ | hdots
    · exact absurd (length_le_of_best he he' hurl) (length_utf8_lt hle hne).not_ge
    · obtain ⟨suffix, hsuffix⟩ := hstarts
      rw [resolve_eq mimeGuess he hsuffix.symm] at hr
      rw [← hsuffix, List.drop_left] at hdots
      rw [if_pos hdots] at hr
      cases hr

/-- A URL without query is clean. -/
theorem clean_eq_self {urlPath : Str} (h : '?' ∉ urlPath) :
  clean urlPath = urlPath
  := by
  have pieces := splitOn_append_of_notMem h []
  rw [List.append_nil, List.splitOn_nil] at pieces
  rw [clean, pieces]
  apply List.append_nil urlPath

theorem notMem_clean (urlPath : Str) :
  '?' ∉ clean urlPath
  := by
  obtain ⟨p, ps, hpieces⟩ := List.exists_cons_of_ne_nil (List.splitOn_ne_nil '?' urlPath)
  rw [clean, hpieces]
  apply not_mem_of_mem_splitOn (s := urlPath)
  rw [hpieces]
  apply List.mem_cons_self

/-- The prefix can match, and does not end with a slash. -/
def Open (p : Str) : Prop :=
  endsWith p '/' = false ∧ '?' ∉ p

instance : DecidablePred Open :=
  fun p => inferInstanceAs (Decidable (endsWith p '/' = false ∧ '?' ∉ p))

/-- An open prefix that is a longest one of all open prefixes ends inside of the URL that has one
character more. -/
theorem not_servedWhole_of_open (mimeGuess : Posix.Path → Str) {e : StaticAssetEntry}
    (he : e ∈ h.entries) (hopen : Open e.urlPath)
    (longest : ∀ e' ∈ h.entries, Open e'.urlPath → e'.urlPath.length ≤ e.urlPath.length) :
  ¬ h.ServedWhole mimeGuess (e.urlPath ++ ['x'])
  := by
  rw [servedWhole_iff, clean_eq_self (by simpa using hopen.2)]
  intro overruled
  have hinside : EndsInside e.urlPath (e.urlPath ++ ['x']) := by
    use List.prefix_append _ _
    rintro (hurl | hslash | hnext)
    · simp at hurl
    · rw [hopen.1] at hslash
      cases hslash
    · rw [List.prefix_append_right_inj] at hnext
      revert hnext
      decide
  rcases overruled e he hinside with ⟨e', he', hurl, ⟨t, ht⟩, hne⟩ | hdots
  · rw [← ht, List.prefix_append_right_inj, List.prefix_cons_iff] at hurl
    rcases hurl with rfl | ⟨t, rfl, hnil⟩
    · apply hne ((List.append_nil _).symm.trans ht)
    · rw [List.prefix_nil.mp hnil] at ht
      have hopen' : Open e'.urlPath := by
        rw [← ht]
        constructor
        · rw [endsWith_concat]
          rfl
        · simpa using hopen.2
      have hlength := longest e' he' hopen'
      rw [← ht, List.length_append, List.length_singleton] at hlength
      omega
  · rw [List.drop_left] at hdots
    revert hdots
    decide

/-- All URLs are matched by whole segments exactly if no entry has a prefix that can match and
does not end with a slash.  A single URL is, exactly if every prefix that ends inside a segment of
it is overruled. -/
theorem served_whole_iff (mimeGuess : Posix.Path → Str) (h : StaticAssetHandler) :
  ((∀ urlPath, h.ServedWhole mimeGuess urlPath) ↔ ∀ e ∈ h.entries, ¬ Open e.urlPath) ∧
    ∀ urlPath, h.ServedWhole mimeGuess urlPath
      ↔ ∀ e ∈ h.entries, EndsInside e.urlPath (clean urlPath) →
        h.Overruled e.urlPath (clean urlPath)
  := by
  constructor
  · constructor
    · intro served e he hopen
      cases hmax : maxByKey (fun e => e.urlPath.length) (h.entries.filter (Open ·.urlPath)) with
      | none =>
          have empty := List.filter_eq_nil_iff.mp (maxByKey_eq_none_iff.mp hmax)
          apply empty e he (decide_eq_true hopen)
      | some b =>
          obtain ⟨hb, hbopen⟩ := List.mem_filter.mp (mem_of_maxByKey hmax)
          apply not_servedWhole_of_open mimeGuess hb (of_decide_eq_true hbopen) _ (served _)
          intro e' he' hopen'
          apply le_of_maxByKey hmax e' (List.mem_filter.mpr ⟨he', decide_eq_true hopen'⟩)
    · intro hclosed urlPath r e _ he
      have hstarts := prefix_of_best he
      by_contra hwhole
      apply hclosed e (mem_of_best he)
      constructor
      · apply Bool.eq_false_iff.mpr
        exact fun hslash => hwhole (.inr (.inl hslash))
      · exact fun hmem => notMem_clean urlPath (hstarts.mem hmem)
  · apply servedWhole_iff mimeGuess h

/-- An entry without a slash at the end. -/
def assets : StaticAssetHandler where
  entries := [⟨"/assets".toList, utf8 "/srv".toList⟩]
  expires := none

/-- The URL `/assets2` is served from the directory of `/assets`. -/
theorem not_servedWhole :
  ¬ ∀ (mimeGuess : Posix.Path → Str) (h : StaticAssetHandler) (urlPath : Str),
    h.ServedWhole mimeGuess urlPath
  := by
  intro h
  have whole := h (fun _ => []) assets "/assets2".toList _ ⟨"/assets".toList, utf8 "/srv".toList⟩
    rfl rfl
  rcases whole with hurl | hslash | hnext
  · revert hurl
    decide
  · revert hslash
    decide
  · revert hnext
    decide

end StaticAssetHandler

end StaticAssets
