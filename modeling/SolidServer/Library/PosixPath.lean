import SolidServer.Library.Octets

/-!
# POSIX paths

A path is a list of octets.  `components p` are its components: the root directory if the path
is absolute, and what stands between the slashes, where nothing and `.` stand for no component
unless a relative path begins with `.`.  `join base p` is the path that leads to `base` and on
along `p`, or `p` alone if it is absolute.
-/

namespace Posix

open Text

/-- A path, as the octets it is written with. -/
abbrev Path := List UInt8

/-- The separator. -/
def slash : UInt8 := 0x2F

/-- The octet of `.` and `..`. -/
def dot : UInt8 := 0x2E

/-- A component of a path. -/
inductive Component where
  | rootDir
  | curDir
  | parentDir
  | normal (name : List UInt8)
deriving DecidableEq

/-- The component that a piece between separators stands for. -/
def component? (piece : List UInt8) : Option Component :=
  if piece = [] || piece = [dot] then none
  else if piece = [dot, dot] then some .parentDir
  else some (.normal piece)

/-- The components that the pieces between separators stand for. -/
def pieces (p : Path) : List Component :=
  (p.splitOn slash).filterMap component?

/-- The path begins at the root directory. -/
def isAbsolute (p : Path) : Bool :=
  p.head? = some slash

/-- The component that tells where a path begins, if there is one. -/
def lead (p : Path) : List Component :=
  if isAbsolute p then [.rootDir]
  else if (p.splitOn slash).head? = some [dot] then [.curDir]
  else []

/-- The components of a path. -/
def components (p : Path) : List Component :=
  lead p ++ pieces p

/-- The path along `p` from `base`. -/
def join (base p : Path) : Path :=
  if isAbsolute p then p
  else if base.getLast?.any fun b => b ≠ slash then base ++ slash :: p
  else base ++ p

example : components (utf8 "./a/../b//.".toList)
    = [.curDir, .normal (utf8 "a".toList), .parentDir, .normal (utf8 "b".toList)] := by
  decide

theorem isAbsolute_append {p : Path} (hp : p ≠ []) (q : Path) :
  isAbsolute (p ++ q) = isAbsolute p
  := by
  rw [isAbsolute, isAbsolute, List.head?_append_of_ne_nil p hp]

/-- What follows a separator does not change where a path begins. -/
theorem lead_append_slash {p : Path} (hp : p ≠ []) (q : Path) :
  lead (p ++ slash :: q) = lead p
  := by
  rw [lead, lead, isAbsolute_append hp, List.splitOn_append_cons_self,
    List.head?_append_of_ne_nil _ (List.splitOn_ne_nil slash p)]

theorem pieces_append_slash (p q : Path) :
  pieces (p ++ slash :: q) = pieces p ++ pieces q
  := by
  rw [pieces, List.splitOn_append_cons_self, List.filterMap_append]
  rfl

/-- The components of a joined path are those of the base and those of the pieces. -/
theorem components_join {base p : Path} (hbase : base ≠ []) (hp : isAbsolute p = false) :
  components (join base p) = components base ++ pieces p
  := by
  obtain ⟨b, last, rfl⟩ := (List.eq_nil_or_concat base).resolve_left hbase
  rw [List.concat_eq_append, join, hp, if_neg Bool.false_ne_true, List.getLast?_concat]
  by_cases hlast : last = slash
  · subst hlast
    have trailing : pieces (b ++ [slash]) = pieces b := by
      rw [pieces_append_slash]
      exact List.append_nil _
    have begin_eq : lead (b ++ slash :: p) = lead (b ++ [slash]) := by
      cases b with
      | nil => rfl
      | cons x b =>
          rw [lead_append_slash (List.cons_ne_nil x b), lead_append_slash (List.cons_ne_nil x b)]
    rw [if_neg (by simp), List.append_assoc, List.singleton_append, components, begin_eq,
      pieces_append_slash, components, trailing, List.append_assoc]
  · rw [if_pos (by simpa using hlast), components,
      lead_append_slash (List.append_ne_nil_of_right_ne_nil _ (List.cons_ne_nil _ _)),
      pieces_append_slash, components, List.append_assoc]

theorem join_nil {p : Path} (hp : isAbsolute p = false) :
  join [] p = p
  := by
  rw [join, hp]
  rfl

/-- Only a piece `..` stands for the parent directory. -/
theorem parentDir_mem_pieces {p : Path} :
  .parentDir ∈ pieces p ↔ [dot, dot] ∈ p.splitOn slash
  := by
  rw [pieces, List.mem_filterMap]
  constructor
  · rintro ⟨piece, hmem, hpiece⟩
    rw [component?] at hpiece
    split at hpiece
    · cases hpiece
    · split at hpiece
      · subst_vars
        exact hmem
      · cases hpiece
  · exact fun hmem => ⟨[dot, dot], hmem, rfl⟩

theorem rootDir_notMem_pieces (p : Path) :
  .rootDir ∉ pieces p
  := by
  rw [pieces, List.mem_filterMap]
  rintro ⟨piece, -, hpiece⟩
  rw [component?] at hpiece
  split at hpiece
  · cases hpiece
  · split at hpiece <;> cases hpiece

/-- A relative path without `..` leads from every directory to what is inside of it. -/
theorem components_join_inside (base : Path) {p : Path} (hp : isAbsolute p = false)
    (hparent : [dot, dot] ∉ p.splitOn slash) :
  ∃ rest, components (join base p) = components base ++ rest ∧
    ∀ c ∈ rest, c ≠ .parentDir ∧ c ≠ .rootDir
  := by
  have inside : ∀ c ∈ pieces p, c ≠ .parentDir ∧ c ≠ .rootDir := by
    intro c hc
    constructor
    · rintro rfl
      exact hparent (parentDir_mem_pieces.mp hc)
    · rintro rfl
      exact rootDir_notMem_pieces p hc
  by_cases hbase : base = []
  · subst hbase
    use components p
    rw [join_nil hp]
    constructor
    · rfl
    · intro c hc
      rcases List.mem_append.mp hc with hc | hc
      · rw [lead, hp, if_neg Bool.false_ne_true] at hc
        split at hc
        · obtain rfl := List.mem_singleton.mp hc
          exact ⟨by decide, by decide⟩
        · cases hc
      · exact inside c hc
  · exact ⟨pieces p, components_join hbase hp, inside⟩

end Posix
