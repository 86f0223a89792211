import SolidServer.Library.Text

/-!
# JSON

JSON values, their texts, and a parser for JSON texts.  The numbers are natural numbers of 64
bits, and escapes of characters by two surrogates are not read.  A text may be compact or have
every item on a line of its own, or be laid out in any other way with white space between the
tokens.  A text is read with as much fuel as it has characters, which is enough: parsing a text of
a value gives the value, whatever the layout (`fromText_print`).
-/

open Text

/-- A JSON value. -/
inductive Json where
  | null
  | bool (b : Bool)
  | number (n : UInt64)
  | string (s : Str)
  | array (items : List Json)
  | object (members : List (Str × Json))

namespace Json

/-! ### Texts -/

/-- A character in a string. -/
def escaped (c : Char) : Str :=
  if c = '"' then ['\\', '"']
  else if c = '\\' then ['\\', '\\']
  else if c = '\x08' then ['\\', 'b']
  else if c = '\x0C' then ['\\', 'f']
  else if c = '\n' then ['\\', 'n']
  else if c = '\r' then ['\\', 'r']
  else if c = '\t' then ['\\', 't']
  else if c.toNat < 0x20 then
    ['\\', 'u', '0', '0', (c.toNat / 16).digitChar, (c.toNat % 16).digitChar]
  else [c]

/-- A string in quotes. -/
def quoted (s : Str) : Str :=
  '"' :: (s.flatMap escaped ++ ['"'])

/-- White space between tokens. -/
def isSpace (c : Char) : Bool :=
  c == ' ' || c == '\n' || c == '\r' || c == '\t'

/-- The white space before items and closing brackets at a depth, and behind colons. -/
structure Layout where
  line : ℕ → Str
  colon : Str
  line_space : ∀ n, ∀ c ∈ line n, isSpace c = true
  colon_space : ∀ c ∈ colon, isSpace c = true

/-- No white space. -/
def Layout.compact : Layout where
  line _ := []
  colon := []
  line_space _ := List.forall_mem_nil _
  colon_space := List.forall_mem_nil _

/-- Every item on a line of its own, indented by two spaces for every level. -/
def Layout.pretty : Layout where
  line n := '\n' :: List.replicate (2 * n) ' '
  colon := [' ']
  line_space n := by
    rw [List.forall_mem_cons]
    use rfl
    intro c hc
    rw [List.eq_of_mem_replicate hc]
    rfl
  colon_space := List.forall_mem_singleton.mpr rfl

mutual

/-- The text of a value at a depth. -/
def print (l : Layout) : ℕ → Json → Str
  | _, null => "null".toList
  | _, bool b => if b then "true".toList else "false".toList
  | _, number n => Nat.toDigits 10 n.toNat
  | _, string s => quoted s
  | _, array [] => ['[', ']']
  | d, array (j :: js) => '[' :: (l.line (d + 1) ++ (print l (d + 1) j ++ printItems l d js))
  | _, object [] => ['{', '}']
  | d, object ((k, j) :: ms) =>
      '{' :: (l.line (d + 1) ++ (quoted k ++
        ':' :: (l.colon ++ (print l (d + 1) j ++ printMembers l d ms))))
termination_by structural _ j => j

/-- The text of the items after the first. -/
def printItems (l : Layout) : ℕ → List Json → Str
  | d, [] => l.line d ++ [']']
  | d, j :: js => ',' :: (l.line (d + 1) ++ (print l (d + 1) j ++ printItems l d js))
termination_by structural _ js => js

/-- The text of the members after the first. -/
def printMembers (l : Layout) : ℕ → List (Str × Json) → Str
  | d, [] => l.line d ++ ['}']
  | d, (k, j) :: ms =>
      ',' :: (l.line (d + 1) ++ (quoted k ++
        ':' :: (l.colon ++ (print l (d + 1) j ++ printMembers l d ms))))
termination_by structural _ ms => ms

end

mutual

/-- How deep arrays and objects are nested. -/
def depth : Json → ℕ
  | array items => depthItems items + 1
  | object members => depthMembers members + 1
  | _ => 0
termination_by structural j => j

/-- The depth of the deepest item. -/
def depthItems : List Json → ℕ
  | [] => 0
  | j :: js => max (depth j) (depthItems js)
termination_by structural js => js

/-- The depth of the deepest member. -/
def depthMembers : List (Str × Json) → ℕ
  | [] => 0
  | (_, j) :: ms => max (depth j) (depthMembers ms)
termination_by structural ms => ms

end

/-! ### The parser -/

/-- What follows white space. -/
def skipSpace (s : Str) : Str :=
  s.dropWhile isSpace

/-- What follows a character, where white space may come before it. -/
def expect (c : Char) (s : Str) : Option Str :=
  match skipSpace s with
  | [] => none
  | d :: r => if d = c then some r else none

/-- The value of a hexadecimal digit. -/
def hexDigit (c : Char) : Option ℕ :=
  if '0' ≤ c ∧ c ≤ '9' then some (c.toNat - '0'.toNat)
  else if 'a' ≤ c ∧ c ≤ 'f' then some (c.toNat - 'a'.toNat + 10)
  else if 'A' ≤ c ∧ c ≤ 'F' then some (c.toNat - 'A'.toNat + 10)
  else none

/-- The character with a code of four hexadecimal digits. -/
def fromCode (a b c d : Char) : Option Char := do
  let n := 4096 * (← hexDigit a) + 256 * (← hexDigit b) + 16 * (← hexDigit c) + (← hexDigit d)
  if n.isValidChar then some (Char.ofNat n) else none

/-- The character that stands behind a backslash for another one. -/
def unescape (c : Char) : Option Char :=
  if c = '"' ∨ c = '\\' ∨ c = '/' then some c
  else if c = 'b' then some '\x08'
  else if c = 'f' then some '\x0C'
  else if c = 'n' then some '\n'
  else if c = 'r' then some '\r'
  else if c = 't' then some '\t'
  else none

/-- A string up to its closing quote, and what follows. -/
def readString : Str → Option (Str × Str)
  | [] => none
  | '"' :: s => some ([], s)
  | '\\' :: 'u' :: a :: b :: c :: d :: s =>
      (fromCode a b c d).bind fun x => (readString s).map fun e => (x :: e.1, e.2)
  | '\\' :: c :: s => (unescape c).bind fun x => (readString s).map fun e => (x :: e.1, e.2)
  | c :: s =>
      if c = '\\' ∨ c.toNat < 0x20 then none
      else (readString s).map fun e => (c :: e.1, e.2)

/-- A natural number of 64 bits, and what follows. -/
def readNumber (s : Str) : Option (UInt64 × Str) :=
  let digits := s.takeWhile Char.isDigit
  let rest := s.dropWhile Char.isDigit
  let n := Nat.ofDigitChars 10 digits 0
  if digits.length ≠ 1 ∧ digits.head? = some '0' then none
  else if rest.head?.any fun c => c = '.' || c = 'e' || c = 'E' then none
  else if n < UInt64.size then some (UInt64.ofNat n, rest)
  else none

/-- A word for a value. -/
def readWord (s : Str) : Option (Json × Str) :=
  if "null".toList.isPrefixOf s then some (null, s.drop 4)
  else if "true".toList.isPrefixOf s then some (bool true, s.drop 4)
  else if "false".toList.isPrefixOf s then some (bool false, s.drop 5)
  else none

mutual

/-- A value, and what follows. -/
def read : ℕ → Str → Option (Json × Str)
  | 0, _ => none
  | n + 1, s =>
      match skipSpace s with
      | [] => none
      | c :: r =>
          if c = '"' then (readString r).map fun e => (string e.1, e.2)
          else if c = '[' then
            match expect ']' r with
            | some r => some (array [], r)
            | none => readItems n [] r
          else if c = '{' then
            match expect '}' r with
            | some r => some (object [], r)
            | none => readMembers n [] r
          else if c.isDigit then (readNumber (c :: r)).map fun e => (number e.1, e.2)
          else readWord (c :: r)

/-- An array from one of its items on. -/
def readItems : ℕ → List Json → Str → Option (Json × Str)
  | 0, _, _ => none
  | n + 1, items, s =>
      match read n s with
      | none => none
      | some (j, r) =>
          match expect ',' r with
          | some r => readItems n (items ++ [j]) r
          | none => (expect ']' r).map fun r => (array (items ++ [j]), r)

/-- An object from one of its members on. -/
def readMembers : ℕ → List (Str × Json) → Str → Option (Json × Str)
  | 0, _, _ => none
  | n + 1, members, s =>
      match (expect '"' s).bind readString with
      | none => none
      | some (k, r) =>
          match (expect ':' r).bind (read n) with
          | none => none
          | some (j, r) =>
              match expect ',' r with
              | some r => readMembers n (members ++ [(k, j)]) r
              | none => (expect '}' r).map fun r => (object (members ++ [(k, j)]), r)

end

/-- The value with the given text. -/
def fromText (s : Str) : Option Json :=
  match read (s.length + 1) s with
  | some (j, r) => if skipSpace r = [] then some j else none
  | none => none

example : (fromText "\x7b \"a\" : [1, null], \"b\\u0001\": \x7b\x7d \x7d".toList).map
      (print .compact 0)
    = some "\x7b\"a\":[1,null],\"b\\u0001\":\x7b\x7d\x7d".toList := by
  decide +kernel

example : print .pretty 0
      (.object [("a".toList, .array [.number 1, .null]), ("b".toList, .object [])])
    = "\x7b\n  \"a\": [\n    1,\n    null\n  ],\n  \"b\": \x7b\x7d\n\x7d".toList := by
  decide +kernel

/-! ### Tokens -/

theorem skipSpace_append {w : Str} (h : ∀ c ∈ w, isSpace c = true) (s : Str) :
  skipSpace (w ++ s) = skipSpace s
  := List.dropWhile_append_of_pos h

theorem expect_append {w : Str} (h : ∀ c ∈ w, isSpace c = true) (d : Char) (s : Str) :
  expect d (w ++ s) = expect d s
  := by
  rw [expect, expect, skipSpace_append h]

theorem read_append {w : Str} (h : ∀ c ∈ w, isSpace c = true) (n : ℕ) (s : Str) :
  read n (w ++ s) = read n s
  := by
  cases n with
  | zero => rfl
  | succ n => rw [read, read, skipSpace_append h]

theorem readItems_append {w : Str} (h : ∀ c ∈ w, isSpace c = true) (n : ℕ) (items : List Json)
    (s : Str) :
  readItems n items (w ++ s) = readItems n items s
  := by
  cases n with
  | zero => rfl
  | succ n => rw [readItems, readItems, read_append h]

theorem readMembers_append {w : Str} (h : ∀ c ∈ w, isSpace c = true) (n : ℕ)
    (members : List (Str × Json)) (s : Str) :
  readMembers n members (w ++ s) = readMembers n members s
  := by
  cases n with
  | zero => rfl
  | succ n => rw [readMembers, readMembers, expect_append h]

theorem expect_cons {c : Char} (h : isSpace c = false) (d : Char) (s : Str) :
  expect d (c :: s) = if c = d then some s else none
  := by
  rw [expect, skipSpace, List.dropWhile_cons_of_neg (by rw [h]; exact Bool.false_ne_true)]

/-- A character is read as it was written. -/
theorem readString_escaped (c : Char) (r : Str) :
  readString (escaped c ++ r) = (readString r).map fun e => (c :: e.1, e.2)
  := by
  rw [escaped]
  split_ifs with h₁ h₂ h₃ h₄ h₅ h₆ h₇ h₈
  case pos =>
    subst h₁
    rfl
  case pos =>
    subst h₂
    rfl
  case pos =>
    subst h₃
    rfl
  case pos =>
    subst h₄
    rfl
  case pos =>
    subst h₅
    rfl
  case pos =>
    subst h₆
    rfl
  case pos =>
    subst h₇
    rfl
  case pos =>
    have code : fromCode '0' '0' (c.toNat / 16).digitChar (c.toNat % 16).digitChar = some c := by
      have all : ∀ n < 0x20, fromCode '0' '0' (n / 16).digitChar (n % 16).digitChar
          = some (Char.ofNat n) := by decide
      rw [all c.toNat h₈, Char.ofNat_toNat]
    change (fromCode '0' '0' (c.toNat / 16).digitChar (c.toNat % 16).digitChar).bind _ = _
    rw [code]
    rfl
  case neg =>
    rw [List.singleton_append, readString.eq_5 c r h₁ (fun _ _ _ _ _ h => absurd h h₂)
      (fun _ _ h => absurd h h₂), if_neg (not_or.mpr ⟨h₂, h₈⟩)]

/-- A string is read up to its closing quote. -/
theorem readString_quoted (s r : Str) :
  readString (s.flatMap escaped ++ '"' :: r) = some (s, r)
  := by
  induction s with
  | nil => rfl
  | cons c s ih =>
      rw [List.flatMap_cons, List.append_assoc, readString_escaped, ih]
      rfl

/-- The digits of a number other than zero do not begin with a zero. -/
theorem head?_toDigits {n : ℕ} (h : n ≠ 0) :
  (Nat.toDigits 10 n).head? ≠ some '0'
  := by
  induction n using Nat.strongRecOn with
  | ind n ih =>
      by_cases hn : n < 10
      · rw [Nat.toDigits_of_lt_base hn]
        have all : ∀ n < 10, n ≠ 0 → [n.digitChar].head? ≠ some '0' := by decide
        apply all n hn h
      · rw [Nat.toDigits_of_base_le (by decide) (not_lt.mp hn),
          List.head?_append_of_ne_nil _ Nat.toDigits_ne_nil]
        apply ih (n / 10) (by omega) (by omega)

theorem exists_toDigits_eq_cons (n : UInt64) :
  ∃ c s, Nat.toDigits 10 n.toNat = c :: s ∧ c.isDigit = true
  := by
  obtain ⟨c, s, hs⟩ := List.exists_cons_of_ne_nil (Nat.toDigits_ne_nil (n := n.toNat) (b := 10))
  refine ⟨c, s, hs, ?_⟩
  apply Nat.isDigit_of_mem_toDigits (b := 10) (n := n.toNat) (by decide) (by decide)
  rw [hs]
  apply List.mem_cons_self

/-- A character that stands behind a value, or behind the white space after it. -/
def isDelimiter (c : Char) : Bool :=
  c == ',' || c == ']' || c == '}'

/-- What follows a value. -/
def Delimited (s : Str) : Prop :=
  ∀ c, s.head? = some c → isDelimiter c = true ∨ isSpace c = true

theorem Delimited.cons {c : Char} (h : isDelimiter c = true) (s : Str) :
  Delimited (c :: s)
  := by
  rintro d ⟨⟩
  exact .inl h

/-- White space may follow a value. -/
theorem Delimited.append {w s : Str} (hw : ∀ c ∈ w, isSpace c = true) (hs : Delimited s) :
  Delimited (w ++ s)
  := by
  cases w with
  | nil => apply hs
  | cons c w =>
      rintro d ⟨⟩
      exact .inr (hw _ List.mem_cons_self)

theorem isDelimiter_iff {c : Char} :
  isDelimiter c = true ↔ c = ',' ∨ c = ']' ∨ c = '}'
  := by
  rw [isDelimiter, Bool.or_eq_true, Bool.or_eq_true, beq_iff_eq, beq_iff_eq, beq_iff_eq, or_assoc]

theorem isSpace_iff {c : Char} :
  isSpace c = true ↔ c = ' ' ∨ c = '\n' ∨ c = '\r' ∨ c = '\t'
  := by
  rw [isSpace, Bool.or_eq_true, Bool.or_eq_true, Bool.or_eq_true, beq_iff_eq, beq_iff_eq,
    beq_iff_eq, beq_iff_eq, or_assoc, or_assoc]

/-- Nothing that may follow a value goes on with a number. -/
theorem Delimited.head_ne {s : Str} (h : Delimited s) {p : Char → Bool}
    (hp : [',', ']', '}', ' ', '\n', '\r', '\t'].any p = false) :
  s.head?.any p = false
  := by
  cases hs : s.head? with
  | none => rfl
  | some c =>
      have follows : c ∈ [',', ']', '}', ' ', '\n', '\r', '\t'] := by
        rcases h c hs with hdelimiter | hspace
        · rcases isDelimiter_iff.mp hdelimiter with rfl | rfl | rfl <;> simp
        · rcases isSpace_iff.mp hspace with rfl | rfl | rfl | rfl <;> simp
      apply Bool.eq_false_iff.mpr (List.any_eq_false.mp hp c follows)

/-- The digits of a number are read if no digit follows. -/
theorem readNumber_toDigits (n : UInt64) {r : Str} (h : Delimited r) :
  readNumber (Nat.toDigits 10 n.toNat ++ r) = some (n, r)
  := by
  have digits : ∀ c ∈ Nat.toDigits 10 n.toNat, c.isDigit = true :=
    fun c hc => Nat.isDigit_of_mem_toDigits (by decide) (by decide) hc
  have ends : r.head?.any Char.isDigit = false := h.head_ne rfl
  have stops : r.head?.any (fun c => c = '.' || c = 'e' || c = 'E') = false := h.head_ne rfl
  have taken : r.takeWhile Char.isDigit = [] ∧ r.dropWhile Char.isDigit = r := by
    cases r with
    | nil => exact ⟨rfl, rfl⟩
    | cons c r =>
        have hc : ¬ c.isDigit = true := Bool.eq_false_iff.mp ends
        exact ⟨List.takeWhile_cons_of_neg hc, List.dropWhile_cons_of_neg hc⟩
  have short : ¬ ((Nat.toDigits 10 n.toNat).length ≠ 1
      ∧ (Nat.toDigits 10 n.toNat).head? = some '0') := by
    rintro ⟨hlength, hhead⟩
    by_cases hn : n.toNat = 0
    · rw [hn] at hlength
      apply hlength rfl
    · apply head?_toDigits hn hhead
  rw [readNumber, List.takeWhile_append_of_pos digits, List.dropWhile_append_of_pos digits, taken.1,
    taken.2, List.append_nil]
  rw [if_neg short, stops, if_neg Bool.false_ne_true,
    Nat.ofDigitChars_toDigits (by decide) (by decide), if_pos n.toNat_lt_size, UInt64.ofNat_toNat]

section

variable (l : Layout)

/-- The text of a value begins with a character that neither is white space nor closes. -/
theorem exists_print_eq_cons (d : ℕ) (j : Json) :
  ∃ c s, print l d j = c :: s ∧ isSpace c = false ∧ isDelimiter c = false
  := by
  cases j with
  | null => exact ⟨'n', _, rfl, rfl, rfl⟩
  | bool b => cases b <;> exact ⟨_, _, rfl, rfl, rfl⟩
  | number n =>
      obtain ⟨c, s, hs, digit⟩ := exists_toDigits_eq_cons n
      refine ⟨c, s, hs, ?_, ?_⟩
      · apply Bool.eq_false_iff.mpr
        intro hspace
        rcases isSpace_iff.mp hspace with rfl | rfl | rfl | rfl <;> cases digit
      · apply Bool.eq_false_iff.mpr
        intro hdelimiter
        rcases isDelimiter_iff.mp hdelimiter with rfl | rfl | rfl <;> cases digit
  | string s => exact ⟨'"', _, rfl, rfl, rfl⟩
  | array items => cases items <;> exact ⟨'[', _, rfl, rfl, rfl⟩
  | object members => cases members <;> exact ⟨'{', _, rfl, rfl, rfl⟩

theorem length_print_pos (d : ℕ) (j : Json) :
  0 < (print l d j).length
  := by
  obtain ⟨c, s, hs, -⟩ := exists_print_eq_cons l d j
  rw [hs]
  apply Nat.succ_pos _

/-- Before a value nothing is expected that may follow one. -/
theorem expect_print {c : Char} (hc : isDelimiter c = true) (d : ℕ) (j : Json) (r : Str) :
  expect c (print l d j ++ r) = none
  := by
  obtain ⟨c', s, hs, hspace, hdelimiter⟩ := exists_print_eq_cons l d j
  rw [hs, List.cons_append, expect_cons hspace]
  apply if_neg
  rintro rfl
  rw [hc] at hdelimiter
  cases hdelimiter

/-- What follows an item is no part of it. -/
theorem printItems_delimited (d : ℕ) (js : List Json) (r : Str) :
  Delimited (printItems l d js ++ r)
  := by
  cases js with
  | nil =>
      rw [printItems, List.append_assoc]
      apply (Delimited.cons rfl r).append (l.line_space d)
  | cons j js => exact .cons rfl _

/-- What follows a member is no part of it. -/
theorem printMembers_delimited (d : ℕ) (ms : List (Str × Json)) (r : Str) :
  Delimited (printMembers l d ms ++ r)
  := by
  cases ms with
  | nil =>
      rw [printMembers, List.append_assoc]
      apply (Delimited.cons rfl r).append (l.line_space d)
  | cons e ms => exact .cons rfl _

end

theorem readString_expect (s r : Str) :
  (expect '"' (quoted s ++ r)).bind readString = some (s, r)
  := by
  rw [quoted, List.cons_append, List.append_assoc, List.singleton_append, expect_cons rfl,
    if_pos rfl, Option.bind_some, readString_quoted]

/-! ### Reading what was written -/

/-- A value that begins with a digit is a number. -/
theorem read_digit (n : ℕ) {c : Char} (h : c.isDigit = true) (s : Str) :
  read (n + 1) (c :: s) = (readNumber (c :: s)).map fun e => (number e.1, e.2)
  := by
  have other : ∀ {d : Char}, d.isDigit = false → c ≠ d := by
    rintro d hd rfl
    rw [h] at hd
    cases hd
  have space : isSpace c = false := by
    simp only [isSpace, Bool.or_eq_false_iff, beq_eq_false_iff_ne]
    exact ⟨⟨⟨other rfl, other rfl⟩, other rfl⟩, other rfl⟩
  rw [read, skipSpace, List.dropWhile_cons_of_neg (by rw [space]; exact Bool.false_ne_true)]
  dsimp only
  rw [if_neg (other rfl), if_neg (other rfl), if_neg (other rfl), if_pos h]

/-- An array with an item is read item by item. -/
theorem read_array (n : ℕ) {s : Str} (h : expect ']' s = none) :
  read (n + 1) ('[' :: s) = readItems n [] s
  := by
  have skipped : skipSpace ('[' :: s) = '[' :: s := rfl
  rw [read, skipped]
  dsimp only
  rw [if_neg (by decide), if_pos rfl, h]

/-- An object with a member is read member by member. -/
theorem read_object (n : ℕ) {s : Str} (h : expect '}' s = none) :
  read (n + 1) ('{' :: s) = readMembers n [] s
  := by
  have skipped : skipSpace ('{' :: s) = '{' :: s := rfl
  rw [read, skipped]
  dsimp only
  rw [if_neg (by decide), if_neg (by decide), if_pos rfl, h]

section

variable (l : Layout)

/-- With fuel `n`, what has at most `n` characters is read. -/
structure Reads (n : ℕ) : Prop where
  value : ∀ d j r, (print l d j).length ≤ n → Delimited r → read n (print l d j ++ r) = some (j, r)
  items : ∀ js d j items r, (print l (d + 1) j ++ printItems l d js).length ≤ n →
    readItems n items (print l (d + 1) j ++ (printItems l d js ++ r))
      = some (array (items ++ j :: js), r)
  members : ∀ ms d k j members r,
    (quoted k ++ ':' :: (print l (d + 1) j ++ printMembers l d ms)).length ≤ n →
    readMembers n members
        (quoted k ++ ':' :: (l.colon ++ (print l (d + 1) j ++ (printMembers l d ms ++ r))))
      = some (object (members ++ (k, j) :: ms), r)

end

namespace Reads

variable {l : Layout} {n : ℕ}

theorem items_succ (h : Reads l n) (js : List Json) (d : ℕ) (j : Json) (items : List Json)
    (r : Str) (hlength : (print l (d + 1) j ++ printItems l d js).length ≤ n + 1) :
  readItems (n + 1) items (print l (d + 1) j ++ (printItems l d js ++ r))
    = some (array (items ++ j :: js), r)
  := by
  rw [List.length_append] at hlength
  have hpos : 0 < (printItems l d js).length := by
    cases js <;> simp [printItems]
  rw [readItems, h.value (d + 1) j _ (by omega) (printItems_delimited l d js r)]
  dsimp only
  cases js with
  | nil =>
      rw [printItems, List.append_assoc, List.singleton_append,
        expect_append (l.line_space d), expect_append (l.line_space d), expect_cons rfl,
        expect_cons rfl]
      rfl
  | cons j' js =>
      have htail : (print l (d + 1) j' ++ printItems l d js).length ≤ n := by
        rw [printItems, List.length_cons, List.length_append] at hlength
        omega
      have next : readItems n (items ++ [j])
          (l.line (d + 1) ++ (print l (d + 1) j' ++ (printItems l d js ++ r)))
            = some (array (items ++ [j] ++ j' :: js), r) := by
        rw [readItems_append (l.line_space (d + 1))]
        apply h.items js d j' _ r htail
      rw [printItems, List.cons_append, expect_cons rfl, if_pos rfl, List.append_assoc,
        List.append_assoc]
      dsimp only
      rw [next, List.append_assoc]
      rfl

theorem members_succ (h : Reads l n) (ms : List (Str × Json)) (d : ℕ) (k : Str) (j : Json)
    (members : List (Str × Json)) (r : Str)
    (hlength : (quoted k ++ ':' :: (print l (d + 1) j ++ printMembers l d ms)).length ≤ n + 1) :
  readMembers (n + 1) members
      (quoted k ++ ':' :: (l.colon ++ (print l (d + 1) j ++ (printMembers l d ms ++ r))))
    = some (object (members ++ (k, j) :: ms), r)
  := by
  rw [List.length_append, List.length_cons, List.length_append] at hlength
  rw [readMembers, readString_expect]
  dsimp only
  rw [expect_cons rfl, if_pos rfl, Option.bind_some, read_append l.colon_space,
    h.value (d + 1) j _ (by omega) (printMembers_delimited l d ms r)]
  dsimp only
  cases ms with
  | nil =>
      rw [printMembers, List.append_assoc, List.singleton_append,
        expect_append (l.line_space d), expect_append (l.line_space d), expect_cons rfl,
        expect_cons rfl]
      rfl
  | cons e ms =>
      obtain ⟨k', j'⟩ := e
      have htail : (quoted k' ++ ':' :: (print l (d + 1) j' ++ printMembers l d ms)).length
          ≤ n := by
        rw [printMembers] at hlength
        simp only [List.length_cons, List.length_append] at hlength ⊢
        omega
      have next : readMembers n (members ++ [(k, j)])
          (l.line (d + 1) ++ (quoted k' ++
            ':' :: (l.colon ++ (print l (d + 1) j' ++ (printMembers l d ms ++ r)))))
            = some (object (members ++ [(k, j)] ++ (k', j') :: ms), r) := by
        rw [readMembers_append (l.line_space (d + 1))]
        apply h.members ms d k' j' _ r htail
      have written : printMembers l d ((k', j') :: ms) ++ r
          = ',' :: (l.line (d + 1) ++ (quoted k' ++
            ':' :: (l.colon ++ (print l (d + 1) j' ++ (printMembers l d ms ++ r))))) := by
        rw [printMembers]
        simp only [List.cons_append, List.append_assoc]
      rw [written, expect_cons rfl, if_pos rfl]
      dsimp only
      rw [next, List.append_assoc]
      rfl

theorem value_succ (h : Reads l n) (d : ℕ) (j : Json) (r : Str)
    (hlength : (print l d j).length ≤ n + 1) (hr : Delimited r) :
  read (n + 1) (print l d j ++ r) = some (j, r)
  := by
  cases j with
  | null => rfl
  | bool b => cases b <;> rfl
  | number m =>
      obtain ⟨c, s, hs, digit⟩ := exists_toDigits_eq_cons m
      have written : print l d (number m) ++ r = c :: (s ++ r) := by
        rw [print, hs, List.cons_append]
      rw [written, read_digit n digit, ← List.cons_append, ← hs, readNumber_toDigits m hr]
      rfl
  | string s =>
      have hquoted := readString_quoted s r
      change (readString ((s.flatMap escaped ++ ['"']) ++ r)).map _ = _
      rw [List.append_assoc, List.singleton_append, hquoted]
      rfl
  | array items =>
      cases items with
      | nil => rfl
      | cons j js =>
          have opened : ∀ t, expect ']' (l.line (d + 1) ++ (print l (d + 1) j ++ t)) = none := by
            intro t
            rw [expect_append (l.line_space (d + 1)), expect_print l rfl]
          have bound : (print l (d + 1) j ++ printItems l d js).length ≤ n := by
            rw [print, List.length_cons, List.length_append] at hlength
            omega
          have written : print l d (array (j :: js)) ++ r
              = '[' :: (l.line (d + 1) ++ (print l (d + 1) j ++ (printItems l d js ++ r))) := by
            rw [print]
            simp only [List.cons_append, List.append_assoc]
          rw [written, read_array n (opened _), readItems_append (l.line_space (d + 1)),
            h.items js d j [] r bound]
          rfl
  | object members =>
      cases members with
      | nil => rfl
      | cons e ms =>
          obtain ⟨k, j⟩ := e
          have opened : ∀ t, expect '}' (l.line (d + 1) ++ (quoted k ++ t)) = none := by
            intro t
            rw [expect_append (l.line_space (d + 1)), quoted, List.cons_append, expect_cons rfl]
            rfl
          have bound : (quoted k ++ ':' :: (print l (d + 1) j ++ printMembers l d ms)).length
              ≤ n := by
            rw [print] at hlength
            simp only [List.length_cons, List.length_append] at hlength ⊢
            omega
          have written : print l d (object ((k, j) :: ms)) ++ r
              = '{' :: (l.line (d + 1) ++ (quoted k ++
                ':' :: (l.colon ++ (print l (d + 1) j ++ (printMembers l d ms ++ r))))) := by
            rw [print]
            simp only [List.cons_append, List.append_assoc]
          rw [written, read_object n (opened _), readMembers_append (l.line_space (d + 1)),
            h.members ms d k j [] r bound]
          rfl

end Reads

/-- Fuel for every character is enough. -/
theorem reads (l : Layout) (n : ℕ) :
  Reads l n
  := by
  induction n with
  | zero =>
      constructor
      case value =>
        intro d j r hlength
        exact absurd (length_print_pos l d j) hlength.not_gt
      case items =>
        intro js d j items r hlength
        rw [List.length_append] at hlength
        have hpos := length_print_pos l (d + 1) j
        omega
      case members =>
        intro ms d k j members r hlength
        rw [List.length_append, List.length_cons] at hlength
        omega
  | succ n ih => exact ⟨ih.value_succ, ih.items_succ, ih.members_succ⟩

/-- Parsing a text of a value gives the value. -/
theorem fromText_print (l : Layout) (j : Json) :
  fromText (print l 0 j) = some j
  := by
  have ends : Delimited [] := by
    rintro c ⟨⟩
  have hread := (reads l ((print l 0 j).length + 1)).value 0 j [] (Nat.le_succ _) ends
  rw [List.append_nil] at hread
  rw [fromText, hread]
  rfl

end Json
