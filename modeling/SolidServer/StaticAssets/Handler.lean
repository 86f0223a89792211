import SolidServer.Library.PosixPath
import SolidServer.HttpTypes

/-!
# Static assets

A `StaticAssetHandler` maps a URL to a path in the file system: it strips the query, chooses an
entry with a longest prefix of the URL, and goes on from the path of the entry along what
follows the prefix.  Slicing a string where no character begins is a panic, which is `none`
here.  The MIME type is guessed from the path by a library, so the guess is a parameter.

The path never leads outside of the path of the chosen entry, and nothing panics.
-/

open Text HttpTypes

namespace Text

/-- What follows the first `n` octets of a string, if a character begins there or the string
ends. -/
def sliceFrom : Str → ℕ → Option Str
  | s, 0 => some s
  | [], _ + 1 => none
  | c :: s, n + 1 => if c.utf8Size ≤ n + 1 then sliceFrom s (n + 1 - c.utf8Size) else none

/-- A slice that begins behind a prefix exists. -/
theorem sliceFrom_append (p s : Str) :
  sliceFrom (p ++ s) (utf8 p).length = some s
  := by
  induction p with
  | nil => cases s <;> rfl
  | cons c p ih =>
      have length : (utf8 (c :: p)).length = c.utf8Size - 1 + (utf8 p).length + 1 := by
        have encoded : (utf8 (c :: p)).length = c.utf8Size + (utf8 p).length := by simp [utf8]
        have pos := c.utf8Size_pos
        omega
      have pos := c.utf8Size_pos
      rw [length, List.cons_append, sliceFrom, if_pos (by omega), ← ih]
      congr 1
      omega

end Text

namespace StaticAssets

/-- Maps a URL path prefix to a path in the file system. -/
structure StaticAssetEntry where
  urlPath : Str
  fsPath : Posix.Path
deriving DecidableEq

/-- The handler, with the time its assets may be cached. -/
structure StaticAssetHandler where
  entries : List StaticAssetEntry
  expires : Option ℕ

/-- The last of the elements with the greatest key. -/
def maxByKey {α : Type} (key : α → ℕ) : List α → Option α
  | [] => none
  | a :: as => some (as.foldl (fun best b => if key b < key best then best else b) a)

theorem mem_of_maxByKey {α : Type} {key : α → ℕ} {l : List α} {a : α}
    (h : maxByKey key l = some a) :
  a ∈ l
  := by
  cases l with
  | nil => cases h
  | cons b l =>
      obtain rfl := Option.some.inj h
      induction l generalizing b with
      | nil => exact List.mem_cons_self
      | cons c l ih =>
          rw [List.foldl_cons]
          split
          · rcases List.mem_cons.mp (ih b rfl) with hb | hl
            · rw [hb]
              exact List.mem_cons_self
            · exact List.mem_cons_of_mem _ (List.mem_cons_of_mem _ hl)
          · exact List.mem_cons_of_mem _ (ih c rfl)

namespace StaticAssetHandler

/-- The URL without its query. -/
def clean (urlPath : Str) : Str :=
  (urlPath.splitOn '?').headD urlPath

/-- The entry that is chosen for a URL without query. -/
def best (h : StaticAssetHandler) (clean : Str) : Option StaticAssetEntry :=
  maxByKey (fun e => (utf8 e.urlPath).length) (h.entries.filter fun e => e.urlPath.isPrefixOf clean)

/-- The error for a URL without asset. -/
def noAsset (urlPath : Str) : SolidError :=
  .notFound ("No static asset at ".toList ++ urlPath)

/-- The path and the MIME type of the asset at a URL. -/
def resolve (mimeGuess : Posix.Path → Str) (h : StaticAssetHandler) (urlPath : Str) :
    Option (Except SolidError (Posix.Path × Str)) :=
  match h.best (clean urlPath) with
  | none => some (.error (noAsset urlPath))
  | some best => do
      let suffix ← sliceFrom (clean urlPath) (utf8 best.urlPath).length
      if "..".toList <:+: suffix then
        return .error (noAsset urlPath)
      else
        let fsPath := Posix.join best.fsPath (utf8 (trimStartMatches suffix '/'))
        return .ok (fsPath, mimeGuess fsPath)

/-- The time assets may be cached. -/
def cacheMaxAge (h : StaticAssetHandler) : Option ℕ :=
  h.expires

variable {h : StaticAssetHandler} {urlPath : Str}

/-- The prefix of the entry that is chosen is a prefix of the URL. -/
theorem prefix_of_best {clean : Str} {e : StaticAssetEntry} (he : h.best clean = some e) :
  e.urlPath <+: clean
  := by
  have hmem := mem_of_maxByKey he
  exact List.isPrefixOf_iff_prefix.mp (List.mem_filter.mp hmem).2

theorem resolve_eq (mimeGuess : Posix.Path → Str) {e : StaticAssetEntry} {suffix : Str}
    (he : h.best (clean urlPath) = some e) (hsuffix : clean urlPath = e.urlPath ++ suffix) :
  h.resolve mimeGuess urlPath
    = some (if "..".toList <:+: suffix then .error (noAsset urlPath)
        else
          let fsPath := Posix.join e.fsPath (utf8 (trimStartMatches suffix '/'))
          .ok (fsPath, mimeGuess fsPath))
  := by
  rw [resolve, he]
  simp only [hsuffix, sliceFrom_append]
  by_cases hdots : "..".toList <:+: suffix
  · rw [if_pos hdots]
    exact if_pos hdots
  · rw [if_neg hdots]
    exact if_neg hdots

theorem isAbsolute_trimStartMatches (s : Str) :
  Posix.isAbsolute (utf8 (trimStartMatches s '/')) = false
  := by
  rw [Posix.isAbsolute, decide_eq_false_iff_not]
  intro hhead
  have first := List.head?_dropWhile_not (· == '/') s
  rw [trimStartMatches] at hhead
  cases htrimmed : s.dropWhile (· == '/') with
  | nil =>
      rw [htrimmed] at hhead
      cases hhead
  | cons c t =>
      rw [htrimmed] at hhead first
      have encoded : utf8 (c :: t) = String.utf8EncodeChar c ++ utf8 t := List.flatMap_cons
      rw [encoded, List.head?_append_of_ne_nil _ String.utf8EncodeChar_ne_nil] at hhead
      have hc : c = '/' := eq_of_mem_utf8EncodeChar rfl (List.mem_of_head? hhead)
      simp [hc] at first

/-- Text without `..` has no piece `..` when it is written as a path. -/
theorem dots_notMem_splitOn {s t : Str} (h : ¬ "..".toList <:+: s) (ht : t <:+ s) :
  [Posix.dot, Posix.dot] ∉ (utf8 t).splitOn Posix.slash
  := by
  have separator : String.utf8EncodeChar '/' = [Posix.slash] := rfl
  rw [splitOn_utf8 separator, List.mem_map]
  rintro ⟨piece, hpiece, hutf8⟩
  obtain rfl : piece = "..".toList := utf8_injective hutf8
  exact h ((infix_of_mem_splitOn hpiece).trans ht.isInfix)

/-- A path that is resolved is that of the chosen entry, followed by components that lead down,
and nothing panics. -/
theorem resolve_inside (mimeGuess : Posix.Path → Str) (h : StaticAssetHandler) (urlPath : Str) :
  h.resolve mimeGuess urlPath ≠ none ∧
    ∀ p mime, h.resolve mimeGuess urlPath = some (.ok (p, mime)) →
      ∃ e, h.best (clean urlPath) = some e ∧
        ∃ rest, Posix.components p = Posix.components e.fsPath ++ rest ∧
          ∀ c ∈ rest, c ≠ .parentDir ∧ c ≠ .rootDir
  := by
  cases he : h.best (clean urlPath) with
  | none =>
      have failed : h.resolve mimeGuess urlPath = some (.error (noAsset urlPath)) := by
        rw [resolve, he]
      rw [failed]
      constructor
      · simp
      · rintro p mime ⟨⟩
  | some e =>
      obtain ⟨suffix, hsuffix⟩ := prefix_of_best he
      rw [resolve_eq mimeGuess he hsuffix.symm]
      constructor
      · simp
      · intro p mime hp
        use e, rfl
        split at hp
        · cases hp
        · obtain ⟨rfl, -⟩ := Prod.mk.inj (Except.ok.inj (Option.some.inj hp))
          apply Posix.components_join_inside e.fsPath (isAbsolute_trimStartMatches suffix)
          exact dots_notMem_splitOn ‹_› (List.dropWhile_suffix _)

end StaticAssetHandler

end StaticAssets
