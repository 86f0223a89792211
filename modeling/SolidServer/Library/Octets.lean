import SolidServer.Library.Text

/-!
# Octets

UTF-8 and percent encoding.  `utf8 s` is the UTF-8 encoding of the string `s` and `fromUtf8`
its inverse, undefined on octets that encode no string.  The pieces of an encoding between
octets that encode a character are the encodings of the pieces between these characters.
`percentDecode s` replaces every escape `%XX` in the encoding of `s` by the octet it stands
for, and reads the result as UTF-8.  `percentEncode s` writes every octet of the encoding of
`s` as an escape, and is decoded to `s`.
-/

namespace Text

/-- The UTF-8 encoding of a string. -/
def utf8 (s : Str) : List UInt8 :=
  s.flatMap String.utf8EncodeChar

/-- The string with the given UTF-8 encoding, if there is one. -/
def fromUtf8 (bs : List UInt8) : Option Str :=
  bs.toByteArray.utf8Decode?.map Array.toList

@[simp]
theorem fromUtf8_utf8 (s : Str) :
  fromUtf8 (utf8 s) = some s
  := by
  have h : (utf8 s).toByteArray = s.utf8Encode := rfl
  rw [fromUtf8, h, List.utf8Decode?_utf8Encode]
  rfl

/-- Octets read as a string are the encoding of that string. -/
theorem utf8_of_fromUtf8 {bs : List UInt8} {s : Str} (h : fromUtf8 bs = some s) :
  utf8 s = bs
  := by
  obtain ⟨a, ha, rfl⟩ := Option.map_eq_some_iff.mp h
  have hsome := Option.isSome_of_eq_some ha
  have key := ByteArray.utf8Encode_get_utf8Decode? (h := hsome)
  rw [Option.get_of_eq_some hsome ha] at key
  apply List.toByteArray_inj.mp key

theorem utf8_injective :
  Function.Injective utf8
  := by
  intro s t h
  have hs := fromUtf8_utf8 s
  rw [h, fromUtf8_utf8] at hs
  apply (Option.some.inj hs).symm

/-- A string whose encoding is an initial part of that of `s` is an initial part of `s`. -/
theorem prefix_of_utf8_prefix {s t : Str} (h : utf8 t <+: utf8 s) :
  t <+: s
  := by
  obtain ⟨rest, hrest⟩ := h
  apply List.isPrefix_of_utf8Encode_append_eq_utf8Encode rest.toByteArray
  apply Eq.trans List.toByteArray_append.symm
  apply congrArg List.toByteArray hrest

/-! ### Splitting encodings -/

/-- An octet that encodes a character by itself occurs in the encoding of no other one. -/
theorem eq_of_mem_utf8EncodeChar {c d : Char} {b : UInt8} (hd : String.utf8EncodeChar d = [b])
    (hb : b ∈ String.utf8EncodeChar c) :
  c = d
  := by
  obtain ⟨i, hi, hib⟩ := List.getElem_of_mem hb
  have first : b.IsUTF8FirstByte := by
    have pos : 0 < (String.utf8EncodeChar d).length := by simp [hd]
    have key : (String.utf8EncodeChar d)[0].IsUTF8FirstByte :=
      UInt8.isUTF8FirstByte_getElem_zero_utf8EncodeChar
    simpa only [hd, List.getElem_cons_zero] using key
  obtain rfl : i = 0 := by
    rw [← hib] at first
    exact UInt8.isUTF8FirstByte_getElem_utf8EncodeChar.mp first
  have hprefix : utf8 [d] <+: utf8 [c] := by
    rw [utf8, utf8, List.flatMap_singleton, List.flatMap_singleton, hd, ← hib]
    use (String.utf8EncodeChar c).tail
    rw [List.singleton_append, List.getElem_zero, List.cons_head_tail]
  obtain ⟨t, ht⟩ := prefix_of_utf8_prefix hprefix
  exact (List.cons.inj ht).1.symm

theorem splitOn_append_of_notMem {α : Type} [BEq α] [LawfulBEq α] {a : α} {xs : List α}
    (h : a ∉ xs) (ys : List α) :
  (xs ++ ys).splitOn a = (ys.splitOn a).modifyHead (xs ++ ·)
  := by
  induction xs with
  | nil =>
      rw [List.nil_append]
      cases ys.splitOn a <;> rfl
  | cons x xs ih =>
      have hx : (x == a) = false := by
        rw [beq_eq_false_iff_ne]
        rintro rfl
        exact h List.mem_cons_self
      rw [List.cons_append, List.splitOn_cons_eq_if_modifyHead, hx,
        ih fun hmem => h (List.mem_cons_of_mem _ hmem)]
      cases ys.splitOn a <;> rfl

/-- Splitting at a character that one octet encodes is splitting at this octet. -/
theorem splitOn_utf8 {d : Char} {b : UInt8} (hd : String.utf8EncodeChar d = [b]) (s : Str) :
  (utf8 s).splitOn b = (s.splitOn d).map utf8
  := by
  induction s with
  | nil => rfl
  | cons c s ih =>
      have encoded : utf8 (c :: s) = String.utf8EncodeChar c ++ utf8 s := List.flatMap_cons
      rw [encoded, List.splitOn_cons_eq_if_modifyHead]
      by_cases hc : c = d
      · subst hc
        rw [hd, List.singleton_append, List.splitOn_cons_eq_if_modifyHead,
          if_pos (beq_self_eq_true b), if_pos (beq_self_eq_true c), List.map_cons, ih]
        rfl
      · have notMem : b ∉ String.utf8EncodeChar c :=
          fun hb => hc (eq_of_mem_utf8EncodeChar hd hb)
        rw [splitOn_append_of_notMem notMem, ih, if_neg (by simpa using hc)]
        cases s.splitOn d with
        | nil => rfl
        | cons p ps => rfl

/-- An octet that encodes a character by itself divides an encoding where the character divides
the string. -/
theorem exists_of_utf8_eq_append {d : Char} {b : UInt8} (hd : String.utf8EncodeChar d = [b])
    {s : Str} {as bs : List UInt8} (h : utf8 s = as ++ b :: bs) :
  ∃ t u, s = t ++ d :: u ∧ utf8 t = as ∧ utf8 u = bs
  := by
  induction s generalizing as with
  | nil => simp [utf8] at h
  | cons c s ih =>
      have encoded : utf8 (c :: s) = String.utf8EncodeChar c ++ utf8 s := List.flatMap_cons
      rw [encoded] at h
      -- the octet comes after the encoding of the first character, or it is that encoding
      have later : ∀ {as'}, as = String.utf8EncodeChar c ++ as' → utf8 s = as' ++ b :: bs →
          ∃ t u, c :: s = t ++ d :: u ∧ utf8 t = as ∧ utf8 u = bs := by
        rintro as' rfl hs
        obtain ⟨t, u, rfl, rfl, hu⟩ := ih hs
        exact ⟨c :: t, u, rfl, List.flatMap_cons, hu⟩
      rcases List.append_eq_append_iff.mp h with ⟨as', has, hs⟩ | ⟨as', hc, hs⟩
      · apply later has hs
      · cases as' with
        | nil =>
            have here : as = String.utf8EncodeChar c ++ [] := by
              rw [hc, List.append_nil, List.append_nil]
            apply later here hs.symm
        | cons b' as' =>
            obtain ⟨rfl, rfl⟩ := List.cons.inj hs
            have hcd : c = d := by
              apply eq_of_mem_utf8EncodeChar hd
              rw [hc]
              apply List.mem_append_right _ List.mem_cons_self
            subst hcd
            rw [hd] at hc
            obtain ⟨rfl, hnil⟩ : as = [] ∧ as' = [] := by
              cases as with
              | nil => simpa using hc
              | cons a as => simp at hc
            subst hnil
            exact ⟨[], s, rfl, rfl, rfl⟩

/-! ### Percent encoding -/

/-- The value of a hexadecimal digit. -/
def hexDigit (b : UInt8) : Option UInt8 :=
  if 0x30 ≤ b ∧ b ≤ 0x39 then some (b - 0x30)
  else if 0x41 ≤ b ∧ b ≤ 0x46 then some (b - 0x37)
  else if 0x61 ≤ b ∧ b ≤ 0x66 then some (b - 0x57)
  else none

/-- The octet which the first three octets escape, if they are `%` and two digits. -/
def escape : List UInt8 → Option UInt8
  | p :: h :: l :: _ =>
      if p = 0x25 then
        match hexDigit h, hexDigit l with
        | some h, some l => some (h * 16 + l)
        | _, _ => none
      else none
  | _ => none

/-- Every escape replaced by its octet. -/
def unescape : List UInt8 → List UInt8
  | p :: h :: l :: rest =>
      match escape (p :: h :: l :: rest) with
      | some b => b :: unescape rest
      | none => p :: unescape (h :: l :: rest)
  | p :: rest => p :: unescape rest
  | [] => []

/-- The octets contain an escape. -/
def hasEscape : List UInt8 → Bool
  | [] => false
  | p :: rest => (escape (p :: rest)).isSome || hasEscape rest

/-- The string with its escapes replaced, if the result is valid UTF-8. -/
def percentDecode (s : Str) : Option Str :=
  fromUtf8 (unescape (utf8 s))

/-- An escape begins with `%`. -/
theorem hasEscape_eq_false {bs : List UInt8} (h : ∀ b ∈ bs, b ≠ 0x25) :
  hasEscape bs = false
  := by
  induction bs with
  | nil => rfl
  | cons p rest ih =>
      have hp : escape (p :: rest) = none := by
        unfold escape
        split
        · rename_i heq
          obtain ⟨rfl, rfl⟩ := List.cons.inj heq
          apply if_neg (h _ List.mem_cons_self)
        · rfl
      rw [hasEscape, hp, ih fun b hb => h b (List.mem_cons_of_mem _ hb)]
      rfl

/-- Without escapes there is nothing to replace. -/
theorem unescape_eq_self {bs : List UInt8} (h : hasEscape bs = false) :
  unescape bs = bs
  := by
  fun_induction unescape bs with
  | case1 p a b rest c hc ih =>
      rw [hasEscape, hc] at h
      cases h
  | case2 p a b rest hc ih =>
      rw [hasEscape, hc] at h
      rw [ih h]
  | case3 p rest hrest ih =>
      rw [hasEscape] at h
      rw [ih (Bool.or_eq_false_iff.mp h).2]
  | case4 => rfl

theorem length_unescape_le (bs : List UInt8) :
  (unescape bs).length ≤ bs.length
  := by
  fun_induction unescape bs with
  | case1 p a b rest c hc ih => simp only [List.length_cons]; omega
  | case2 p a b rest hc ih => simpa using ih
  | case3 p rest hrest ih => simpa using ih
  | case4 => simp

/-- Replacing an escape leaves fewer octets. -/
theorem length_unescape_lt {bs : List UInt8} (h : hasEscape bs = true) :
  (unescape bs).length < bs.length
  := by
  fun_induction unescape bs with
  | case1 p a b rest c hc ih =>
      have := length_unescape_le rest
      simp only [List.length_cons]
      omega
  | case2 p a b rest hc ih =>
      rw [hasEscape, hc] at h
      simpa using ih h
  | case3 p rest hrest ih =>
      have key : escape (p :: rest) = none := by
        unfold escape
        split
        · rename_i heq
          obtain ⟨rfl, rfl⟩ := List.cons.inj heq
          apply absurd rfl (hrest _ _ _)
        · rfl
      rw [hasEscape, key] at h
      simpa using ih h
  | case4 => cases h

/-- Decoding gives back exactly the strings without escapes. -/
theorem percentDecode_eq_some_self_iff {s : Str} :
  percentDecode s = some s ↔ hasEscape (utf8 s) = false
  := by
  constructor
  · intro h
    apply Bool.eq_false_iff.mpr
    intro hs
    have hlt := length_unescape_lt hs
    have heq := congrArg List.length (utf8_of_fromUtf8 h)
    omega
  · intro h
    rw [percentDecode, unescape_eq_self h, fromUtf8_utf8]

example : percentDecode "a%2Fb%zz".toList = some "a/b%zz".toList := by decide

example : percentDecode "%FF".toList = none := by decide

/-- A decoded string is no longer, in octets, than the string it was decoded from. -/
theorem length_utf8_percentDecode_le {s t : Str} (h : percentDecode s = some t) :
  (utf8 t).length ≤ (utf8 s).length
  := by
  rw [utf8_of_fromUtf8 h]
  apply length_unescape_le

/-! ### Separators

No escape reaches across an octet that is neither `%` nor a hexadecimal digit.
-/

/-- Decoding proceeds by one octet, or past the escape at the front. -/
theorem unescape_cons (p : UInt8) (bs : List UInt8) :
  unescape (p :: bs) =
    (escape (p :: bs)).elim (p :: unescape bs) fun b => b :: unescape (bs.drop 2)
  := by
  cases bs with
  | nil => rfl
  | cons h bs =>
      cases bs with
      | nil => rfl
      | cons l bs =>
          rw [unescape]
          cases escape (p :: h :: l :: bs) <;> rfl

/-- An escape has three octets. -/
theorem length_of_escape {bs : List UInt8} {b : UInt8} (h : escape bs = some b) :
  3 ≤ bs.length
  := by
  unfold escape at h
  split at h
  · simp
  · cases h

section

variable {d : UInt8} (hd : d ≠ 0x25) (hhex : hexDigit d = none)

include hd hhex

theorem escape_append (as bs : List UInt8) :
  escape (as ++ d :: bs) = escape as
  := by
  cases as with
  | nil =>
      cases bs with
      | nil => rfl
      | cons b bs =>
          cases bs with
          | nil => rfl
          | cons b' bs => apply if_neg hd
  | cons p as =>
      cases as with
      | nil =>
          cases bs with
          | nil => rfl
          | cons b bs => simp [escape, hhex]
      | cons h as =>
          cases as with
          | nil => simp [escape, hhex]
          | cons l as => rfl

theorem hasEscape_append (as bs : List UInt8) :
  hasEscape (as ++ d :: bs) = (hasEscape as || hasEscape bs)
  := by
  induction as with
  | nil =>
      have alone : escape (d :: bs) = none := escape_append hd hhex [] bs
      change ((escape (d :: bs)).isSome || hasEscape bs) = hasEscape bs
      rw [alone]
      rfl
  | cons p as ih =>
      rw [List.cons_append, hasEscape, hasEscape, ih, ← List.cons_append,
        escape_append hd hhex, Bool.or_assoc]

theorem unescape_append (as bs : List UInt8) :
  unescape (as ++ d :: bs) = unescape as ++ d :: unescape bs
  := by
  induction h : as.length using Nat.strongRecOn generalizing as with
  | ind n ih =>
      cases as with
      | nil =>
          have alone : escape (d :: bs) = none := escape_append hd hhex [] bs
          rw [List.nil_append, unescape_cons, alone]
          rfl
      | cons p as =>
          have same : escape (p :: (as ++ d :: bs)) = escape (p :: as) :=
            escape_append hd hhex (p :: as) bs
          rw [List.cons_append, unescape_cons, unescape_cons p as, same]
          cases hescape : escape (p :: as) with
          | none =>
              have shorter : as.length < n := by
                rw [← h, List.length_cons]
                omega
              dsimp only [Option.elim]
              rw [ih as.length shorter as rfl]
              rfl
          | some b =>
              have long := length_of_escape hescape
              rw [List.length_cons] at long
              have shorter : (as.drop 2).length < n := by
                rw [← h, List.length_drop, List.length_cons]
                omega
              dsimp only [Option.elim]
              rw [List.drop_append_of_le_length (by omega), ih (as.drop 2).length shorter _ rfl]
              rfl

end

/-! ### Encoding -/

/-- The hexadecimal digit with the given value. -/
def hexChar (b : UInt8) : Char :=
  "0123456789ABCDEF".toList.getD b.toNat '0'

/-- An octet written as an escape. -/
def escaped (b : UInt8) : Str :=
  ['%', hexChar (b / 16), hexChar (b % 16)]

/-- The octets of a string, each written as an escape. -/
def percentEncode (s : Str) : Str :=
  (utf8 s).flatMap escaped

example : percentEncode "/a b".toList = "%2F%61%20%62".toList := by decide

/-- The digits of an escape are hexadecimal, and give back its octet. -/
theorem utf8_escaped (b : UInt8) :
  ∃ h l h' l', utf8 (escaped b) = [0x25, h, l] ∧
    hexDigit h = some h' ∧ hexDigit l = some l' ∧ h' * 16 + l' = b
  := by
  have digit : ∀ n < 16, ∃ h, String.utf8EncodeChar (hexChar (UInt8.ofNat n)) = [h] ∧
      hexDigit h = some (UInt8.ofNat n) := by
    intro n hn
    use UInt8.ofNat (hexChar (UInt8.ofNat n)).toNat
    revert n
    decide
  have hb := b.toNat_lt
  obtain ⟨h, hh, hh'⟩ := digit (b / 16).toNat (by simp; omega)
  obtain ⟨l, hl, hl'⟩ := digit (b % 16).toNat (by simp; omega)
  rw [UInt8.ofNat_toNat] at hh hh' hl hl'
  refine ⟨h, l, b / 16, b % 16, ?_, hh', hl', ?_⟩
  · rw [utf8, escaped, List.flatMap_cons, List.flatMap_cons, List.flatMap_cons, hh, hl]
    rfl
  · apply UInt8.toNat_inj.mp
    simp
    omega

theorem unescape_utf8_escaped (bs : List UInt8) :
  unescape (utf8 (bs.flatMap escaped)) = bs
  := by
  induction bs with
  | nil => rfl
  | cons b bs ih =>
      obtain ⟨h, l, h', l', henc, hh, hl, hb⟩ := utf8_escaped b
      have encoded : utf8 ((b :: bs).flatMap escaped)
          = 0x25 :: h :: l :: utf8 (bs.flatMap escaped) := by
        rw [List.flatMap_cons, utf8, List.flatMap_append, ← utf8, ← utf8, henc]
        rfl
      have hescape : escape (0x25 :: h :: l :: utf8 (bs.flatMap escaped)) = some b := by
        rw [escape, if_pos rfl, hh, hl, ← hb]
      rw [encoded, unescape, hescape]
      exact congrArg (b :: ·) ih

/-- Every string is the decoding of its encoding. -/
@[simp]
theorem percentDecode_percentEncode (s : Str) :
  percentDecode (percentEncode s) = some s
  := by
  rw [percentDecode, percentEncode, unescape_utf8_escaped, fromUtf8_utf8]

end Text
