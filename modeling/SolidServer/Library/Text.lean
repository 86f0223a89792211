import Mathlib.Data.List.DropRight
import Mathlib.Data.List.Infix

/-!
# Strings as lists of characters

The string functions of the Rust standard library that the development uses, on `Str`, the
lists of characters: prefixes and suffixes, trimming, splitting.  A string is cut at a
separator `c` into `s.splitOn c`, whose pieces do not contain `c`; `closed c ps` is the text
of the pieces `ps` when every one of them is followed by `c`.
-/

namespace Text

/-- A string, as the list of its characters. -/
abbrev Str := List Char

/-- The string begins with the character `c`. -/
def startsWith (s : Str) (c : Char) : Bool :=
  s.head? == some c

/-- The string ends with the character `c`. -/
def endsWith (s : Str) (c : Char) : Bool :=
  s.getLast? == some c

/-- The string without the characters `c` at its end. -/
def trimEndMatches (s : Str) (c : Char) : Str :=
  s.rdropWhile (· == c)

/-- The string without the characters `c` at its beginning. -/
def trimStartMatches (s : Str) (c : Char) : Str :=
  s.dropWhile (· == c)

/-- What follows the prefix `p`, if the string begins with it. -/
def stripPrefix (p s : Str) : Option Str :=
  if p.isPrefixOf s then some (s.drop p.length) else none

/-- What precedes the suffix `p`, if the string ends with it. -/
def stripSuffix (p s : Str) : Option Str :=
  if p.isSuffixOf s then some (s.take (s.length - p.length)) else none

/-- The characters with the Unicode property `White_Space`. -/
def isWhitespace (c : Char) : Bool :=
  let n := c.toNat
  (0x09 ≤ n && n ≤ 0x0D) || n == 0x20 || n == 0x85 || n == 0xA0 || n == 0x1680
    || (0x2000 ≤ n && n ≤ 0x200A) || n == 0x2028 || n == 0x2029 || n == 0x202F
    || n == 0x205F || n == 0x3000

/-- The string without the white space at both ends. -/
def trim (s : Str) : Str :=
  (s.dropWhile isWhitespace).rdropWhile isWhitespace

/-- The string with its ASCII capital letters replaced by small ones. -/
def toAsciiLowercase (s : Str) : Str :=
  s.map Char.toLower

/-- The string has no ASCII capital letters. -/
def LowerCase (s : Str) : Prop :=
  ∀ c ∈ s, c.toLower = c

/-- The pieces of the string between separators `c`, at most `n` of them: the last of `n`
pieces is the rest of the string. -/
def splitn (n : ℕ) (s : Str) (c : Char) : List Str :=
  let ps := s.splitOn c
  if ps.length ≤ n then ps else (ps.take (n - 1)).concat ([c].intercalate (ps.drop (n - 1)))

/-- The pieces `ps`, each followed by `c`. -/
def closed (c : Char) (ps : List Str) : Str :=
  ps.flatMap fun p => p ++ [c]

/-! ### Case -/

theorem isLower_iff {c : Char} :
  c.isLower = true ↔ 'a'.val ≤ c.val ∧ c.val ≤ 'z'.val
  := by
  change (decide ('a'.val ≤ c.val) && decide (c.val ≤ 'z'.val)) = true ↔ _
  rw [Bool.and_eq_true, decide_eq_true_eq, decide_eq_true_eq]

/-- A character that is replaced is replaced by a small letter. -/
theorem toLower_cases (c : Char) :
  c.toLower = c ∨ c.toLower.isLower = true
  := by
  by_cases h : c.val ≥ 'A'.val ∧ c.val ≤ 'Z'.val
  · right
    have hc : c.toLower.val = c.val + ('a'.val - 'A'.val) := congrArg Char.val (dif_pos h)
    obtain ⟨h₁, h₂⟩ := h
    rw [isLower_iff, hc]
    simp only [ge_iff_le, UInt32.le_iff_toNat_le, UInt32.toNat_add] at h₁ h₂ ⊢
    simp at h₁ h₂ ⊢
    omega
  · exact .inl (dif_neg h)

theorem toLower_toLower (c : Char) :
  c.toLower.toLower = c.toLower
  := by
  rcases toLower_cases c with h | h
  · rw [h, h]
  · apply dif_neg
    rintro ⟨-, hle⟩
    apply absurd (UInt32.le_trans (isLower_iff.mp h).1 hle)
    decide

/-- A string whose small-letter form has no letters is that form. -/
theorem eq_of_toAsciiLowercase_eq {s t : Str} (ht : t.any Char.isLower = false)
    (h : toAsciiLowercase s = t) :
  s = t
  := by
  subst h
  symm
  apply (List.map_congr_left _).trans (List.map_id s)
  intro c hc
  apply (toLower_cases c).resolve_right
  intro hlower
  have := List.any_eq_false.mp ht c.toLower (List.mem_map_of_mem hc)
  contradiction

@[simp]
theorem toAsciiLowercase_toAsciiLowercase (s : Str) :
  toAsciiLowercase (toAsciiLowercase s) = toAsciiLowercase s
  := by
  rw [toAsciiLowercase, toAsciiLowercase, List.map_map]
  apply List.map_congr_left
  intro c _
  apply toLower_toLower

theorem LowerCase.toAsciiLowercase_eq {s : Str} (h : LowerCase s) :
  toAsciiLowercase s = s
  := (List.map_congr_left h).trans (List.map_id s)

/-! ### Ends of strings -/

theorem startsWith_iff {s : Str} {c : Char} :
  startsWith s c = true ↔ ∃ t, s = c :: t
  := by
  cases s <;> simp [startsWith]

theorem endsWith_iff {s : Str} {c : Char} :
  endsWith s c = true ↔ ∃ t, s = t ++ [c]
  := by
  rw [endsWith, beq_iff_eq, List.getLast?_eq_some_iff]

/-- The string ends with the character twice. -/
theorem pair_suffix_concat_iff {s : Str} {c : Char} :
  [c, c] <:+ s ++ [c] ↔ endsWith s c = true
  := by
  rw [endsWith_iff]
  constructor
  · rintro ⟨t, ht⟩
    have hcancel : s ++ [c] = t ++ [c] ++ [c] := by
      rw [← ht, List.append_assoc]
      rfl
    use t, List.append_cancel_right hcancel
  · rintro ⟨t, rfl⟩
    use t
    rw [List.append_assoc]
    rfl

theorem startsWith_eq_false {s : Str} {c : Char} (h : c ∉ s) :
  startsWith s c = false
  := by
  apply Bool.eq_false_iff.mpr
  intro hs
  obtain ⟨t, rfl⟩ := startsWith_iff.mp hs
  apply h List.mem_cons_self

theorem endsWith_eq_false {s : Str} {c : Char} (h : c ∉ s) :
  endsWith s c = false
  := by
  apply Bool.eq_false_iff.mpr
  intro hs
  obtain ⟨t, rfl⟩ := endsWith_iff.mp hs
  apply h (List.mem_append_right t List.mem_cons_self)

@[simp]
theorem endsWith_concat (s : Str) (c d : Char) :
  endsWith (s ++ [d]) c = (d == c)
  := by
  simp [endsWith]

@[simp]
theorem endsWith_cons_cons (s : Str) (c d e : Char) :
  endsWith (d :: e :: s) c = endsWith (e :: s) c
  := by
  simp [endsWith]

theorem endsWith_append {s t : Str} {c : Char} (ht : t ≠ []) :
  endsWith (s ++ t) c = endsWith t c
  := by
  simp [endsWith, List.getLast?_append_of_ne_nil s ht]

theorem stripSuffix_eq_some_iff {p s t : Str} :
  stripSuffix p s = some t ↔ s = t ++ p
  := by
  rw [stripSuffix, Option.ite_none_right_eq_some, List.isSuffixOf_iff_suffix]
  constructor
  · rintro ⟨⟨u, rfl⟩, h⟩
    simpa using h
  · rintro rfl
    simp

/-- Trimming keeps no other characters than those of the string. -/
theorem mem_of_mem_trim {s : Str} {c : Char} (h : c ∈ trim s) :
  c ∈ s
  := (List.dropWhile_suffix _).mem ((List.rdropWhile_prefix _ _).mem h)

theorem trimEndMatches_prefix (s : Str) (c : Char) :
  trimEndMatches s c <+: s
  := List.rdropWhile_prefix _ s

/-- A trimmed string does not end with the trimmed character. -/
theorem endsWith_trimEndMatches (s : Str) (c : Char) :
  endsWith (trimEndMatches s c) c = false
  := by
  apply Bool.eq_false_iff.mpr
  intro h
  obtain ⟨t, ht⟩ := endsWith_iff.mp h
  have hne : s.rdropWhile (· == c) ≠ [] := by
    intro hnil
    rw [trimEndMatches, hnil] at ht
    simp at ht
  have hlast := List.rdropWhile_last_not _ _ hne
  apply hlast
  simp only [trimEndMatches] at ht
  simp [ht]

/-- A string that does not end with `c` is its own trimming. -/
theorem trimEndMatches_eq_self {s : Str} {c : Char} (h : endsWith s c = false) :
  trimEndMatches s c = s
  := by
  apply List.rdropWhile_eq_self_iff.mpr
  intro hne
  simpa [endsWith, List.getLast?_eq_some_getLast hne] using h

theorem trimEndMatches_eq_self_iff {s : Str} {c : Char} :
  trimEndMatches s c = s ↔ endsWith s c = false
  := by
  constructor
  · intro h
    rw [← h]
    exact endsWith_trimEndMatches s c
  · exact trimEndMatches_eq_self

@[simp]
theorem trimEndMatches_concat (s : Str) (c : Char) :
  trimEndMatches (s ++ [c]) c = trimEndMatches s c
  := List.rdropWhile_concat_pos _ _ _ (by simp)

/-- What one `c` at the end does not change, no number of them changes. -/
theorem append_replicate_eq {β : Type} {f : Str → β} {c : Char} (h : ∀ s, f (s ++ [c]) = f s)
    (s : Str) (n : ℕ) :
  f (s ++ List.replicate n c) = f s
  := by
  induction n with
  | zero => rw [List.replicate_zero, List.append_nil]
  | succ n ih => rw [List.replicate_succ', ← List.append_assoc, h, ih]

@[simp]
theorem trimEndMatches_append_replicate (s : Str) (c : Char) (n : ℕ) :
  trimEndMatches (s ++ List.replicate n c) c = trimEndMatches s c
  := append_replicate_eq (f := fun s => trimEndMatches s c) (fun s => trimEndMatches_concat s c) s n

/-- Trimming leaves nothing exactly of the strings made of the trimmed character. -/
theorem trimEndMatches_eq_nil_iff {s : Str} {c : Char} :
  trimEndMatches s c = [] ↔ ∀ d ∈ s, d = c
  := by
  simp [trimEndMatches, List.rdropWhile_eq_nil_iff]

/-- A string without `c` is its own trimming. -/
theorem trimStartMatches_eq_self {s : Str} {c : Char} (h : c ∉ s) :
  trimStartMatches s c = s
  := by
  cases s with
  | nil => rfl
  | cons d s =>
      apply List.dropWhile_cons_of_neg
      simpa using Ne.symm (List.ne_of_not_mem_cons h)

/-- A string is its trimming and the trimmed characters. -/
theorem exists_trimEndMatches_append (s : Str) (c : Char) :
  ∃ n, s = trimEndMatches s c ++ List.replicate n c
  := by
  use (s.rtakeWhile (· == c)).length
  have key : s.rtakeWhile (· == c) = List.replicate (s.rtakeWhile (· == c)).length c := by
    apply List.eq_replicate_of_mem
    intro d hd
    simpa using List.mem_rtakeWhile_imp hd
  rw [← key]
  symm
  apply List.rdropWhile_append_rtakeWhile

/-! ### Pieces -/

@[simp]
theorem closed_nil (c : Char) :
  closed c [] = []
  := rfl

@[simp]
theorem closed_cons (c : Char) (p : Str) (ps : List Str) :
  closed c (p :: ps) = p ++ c :: closed c ps
  := by
  simp [closed]

@[simp]
theorem closed_append (c : Char) (ps qs : List Str) :
  closed c (ps ++ qs) = closed c ps ++ closed c qs
  := by
  simp [closed]

theorem closed_eq_nil_iff {c : Char} {ps : List Str} :
  closed c ps = [] ↔ ps = []
  := by
  cases ps <;> simp

/-- Closed pieces end with the separator. -/
theorem endsWith_closed {c : Char} {ps : List Str} (h : ps ≠ []) :
  endsWith (closed c ps) c = true
  := by
  obtain ⟨qs, q, rfl⟩ := List.eq_nil_or_concat ps |>.resolve_left h
  apply endsWith_iff.mpr
  use closed c qs ++ q
  simp

/-- Pieces without the separator are determined by their text. -/
theorem closed_injective {c : Char} {ps qs : List Str} (hp : ∀ p ∈ ps, c ∉ p)
    (hq : ∀ q ∈ qs, c ∉ q) (h : closed c ps = closed c qs) :
  ps = qs
  := by
  induction ps generalizing qs with
  | nil => exact (closed_eq_nil_iff.mp h.symm).symm
  | cons p ps ih =>
      cases qs with
      | nil => exact closed_eq_nil_iff.mp h
      | cons q qs =>
          simp only [closed_cons] at h
          have hcp := hp p List.mem_cons_self
          have hcq := hq q List.mem_cons_self
          have split : ∀ r t : Str, c ∉ r → (r ++ c :: t).splitOn c = r :: t.splitOn c :=
            fun r t hr => List.splitOn_append_cons_self_of_not_mem hr t
          have hpq : p = q := by
            have := congrArg (List.splitOn c) h
            rw [split p _ hcp, split q _ hcq] at this
            apply (List.cons.inj this).1
          subst hpq
          rw [ih (fun r hr => hp r (List.mem_cons_of_mem _ hr))
            (fun r hr => hq r (List.mem_cons_of_mem _ hr)) (by simpa using h)]

theorem intercalate_concat (c : Char) (ps : List Str) (p : Str) :
  [c].intercalate (ps ++ [p]) = closed c ps ++ p
  := by
  induction ps with
  | nil => simp [List.intercalate]
  | cons q ps ih =>
      obtain ⟨r, rs, hr⟩ := List.exists_cons_of_ne_nil
        (List.append_ne_nil_of_right_ne_nil ps (List.cons_ne_nil p []))
      rw [List.cons_append, hr, List.intercalate_cons_cons, ← hr, ih]
      simp

/-- The pieces of a string do not contain the separator. -/
theorem not_mem_of_mem_splitOn {s p : Str} {c : Char} (hp : p ∈ s.splitOn c) :
  c ∉ p
  := by
  induction s generalizing p with
  | nil =>
      rw [List.splitOn_nil] at hp
      obtain rfl := List.mem_singleton.mp hp
      apply List.not_mem_nil
  | cons d s ih =>
      rw [List.splitOn_cons_eq_if_modifyHead] at hp
      obtain ⟨q, qs, hqs⟩ := List.exists_cons_of_ne_nil (List.splitOn_ne_nil c s)
      rw [hqs] at hp ih
      split at hp
      · rcases List.mem_cons.mp hp with rfl | hp
        · apply List.not_mem_nil
        · apply ih hp
      · rename_i hdc
        rcases List.mem_cons.mp hp with rfl | hp
        · intro hc
          rcases List.mem_cons.mp hc with rfl | hc
          · simp at hdc
          · apply ih List.mem_cons_self hc
        · apply ih (List.mem_cons_of_mem _ hp)

/-- There is one piece more than there are separators. -/
theorem length_splitOn (s : Str) (c : Char) :
  (s.splitOn c).length = s.count c + 1
  := by
  induction s with
  | nil => rfl
  | cons d s ih =>
      rw [List.splitOn_cons_eq_if_modifyHead, List.count_cons]
      split
      · rw [List.length_cons, ih]
      · rw [List.length_modifyHead, ih, Nat.add_zero]

theorem infix_intercalate {ps : List Str} {p : Str} (hp : p ∈ ps) (c : Char) :
  p <:+: [c].intercalate ps
  := by
  induction ps with
  | nil => cases hp
  | cons q ps ih =>
      cases ps with
      | nil =>
          obtain rfl := List.mem_singleton.mp hp
          rw [List.intercalate_singleton]
      | cons r ps =>
          rw [List.intercalate_cons_cons]
          rcases List.mem_cons.mp hp with rfl | hp
          · rw [List.append_assoc]
            exact (List.prefix_append _ _).isInfix
          · exact (ih hp).trans (List.suffix_append _ _).isInfix

/-- The pieces of a string are parts of it. -/
theorem infix_of_mem_splitOn {s p : Str} {c : Char} (hp : p ∈ s.splitOn c) :
  p <:+: s
  := by
  have key : [c].intercalate (s.splitOn c) = s := List.intercalate_splitOn c
  have part := infix_intercalate hp c
  rwa [key] at part

/-- The pieces of a string that begins with the separator begin with the empty one. -/
theorem splitOn_cons_self (s : Str) (c : Char) :
  (c :: s).splitOn c = [] :: s.splitOn c
  := by
  rw [List.splitOn_cons_eq_if_modifyHead, if_pos (beq_self_eq_true c)]

/-- All pieces but the last, closed, are an initial part of the string. -/
theorem closed_dropLast_splitOn (s : Str) (c : Char) :
  ∃ p, s = closed c (s.splitOn c).dropLast ++ p
  := by
  obtain ⟨ps, p, h⟩ := List.eq_nil_or_concat (s.splitOn c)
    |>.resolve_left (List.splitOn_ne_nil c s)
  use p
  have key : [c].intercalate (s.splitOn c) = s := List.intercalate_splitOn c
  rw [h, List.concat_eq_append, intercalate_concat] at key
  rw [h, List.concat_eq_append, List.dropLast_concat, key]

/-- Limiting the number of pieces leaves the first ones as they are. -/
theorem dropLast_splitn (n : ℕ) (s : Str) (c : Char) :
  (splitn (n + 1) s c).dropLast = (s.splitOn c).dropLast.take n
  := by
  simp only [splitn]
  split
  · symm
    apply List.take_of_length_le
    rw [List.length_dropLast]
    omega
  · rw [List.concat_eq_append, List.dropLast_concat, List.dropLast_eq_take, List.take_take,
      Nat.min_eq_left (by omega)]
    rfl

theorem one_lt_length_splitn {n : ℕ} {s : Str} {c : Char} :
  1 < (splitn (n + 2) s c).length ↔ 1 < (s.splitOn c).length
  := by
  simp only [splitn]
  split
  · rfl
  · simp only [List.concat_eq_append, List.length_append, List.length_take,
      List.length_singleton]
    omega

end Text
