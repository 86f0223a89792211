import SolidServer.Library.HashMap
import SolidServer.Library.Text

/-!
# JSON texts of maps of strings

The text of a map from strings to strings as a JSON object, one member a line, with the
quotes and backslashes in strings escaped, and a parser for such objects, which reads one
character at a time.  Parsing the text of a map gives the map, and no proper initial part
of a text can be parsed.
-/

open Text

namespace JsonText

/-- A character in a JSON string. -/
def escaped (c : Char) : Str :=
  if c = '"' ∨ c = '\\' then ['\\', c] else [c]

/-- A JSON string, without its opening quote. -/
def unopened (s : Str) : Str :=
  s.flatMap escaped ++ ['"']

/-- A member on a line of its own. -/
def member (e : Str × Str) : Str :=
  '\n' :: ' ' :: ' ' :: '"' :: unopened e.1 ++ ':' :: ' ' :: '"' :: unopened e.2

/-- The JSON object with the given members. -/
def object : List (Str × Str) → Str
  | [] => ['{', '}']
  | e :: es => '{' :: member e ++ es.flatMap (fun e => ',' :: member e) ++ ['\n', '}']

/-! ### The parser -/

/-- Where the parser is: `first` and `next` before a member, `colon` and `value` in one after
its key, `after` behind one; `string` and `escape` are inside a string, which is a key or
the value of a key. -/
inductive State where
  | start
  | first
  | next
  | string (key : Option Str) (read : Str)
  | escape (key : Option Str) (read : Str)
  | colon (key : Str)
  | value (key : Str)
  | after
  | done

/-- The maps from strings to strings. -/
abbrev Strings := AList fun _ : Str => Str

/-- White space between the tokens. -/
def isSpace (c : Char) : Bool :=
  c == ' ' || c == '\n' || c == '\r' || c == '\t'

/-- The parser reads a character, with the members it has found so far. -/
def read : State × Strings → Char → Option (State × Strings)
  | (.start, m), c => if c = '{' then some (.first, m) else none
  | (.first, m), c =>
      if isSpace c then some (.first, m)
      else if c = '"' then some (.string none [], m)
      else if c = '}' then some (.done, m)
      else none
  | (.next, m), c =>
      if isSpace c then some (.next, m)
      else if c = '"' then some (.string none [], m)
      else none
  | (.string key s, m), c =>
      if c = '\\' then some (.escape key s, m)
      else if c = '"' then
        match key with
        | none => some (.colon s, m)
        | some k => some (.after, m.insert k s)
      else some (.string key (s ++ [c]), m)
  | (.escape key s, m), c =>
      if c = '"' ∨ c = '\\' then some (.string key (s ++ [c]), m) else none
  | (.colon k, m), c =>
      if isSpace c then some (.colon k, m)
      else if c = ':' then some (.value k, m)
      else none
  | (.value k, m), c =>
      if isSpace c then some (.value k, m)
      else if c = '"' then some (.string (some k) [], m)
      else none
  | (.after, m), c =>
      if isSpace c then some (.after, m)
      else if c = ',' then some (.next, m)
      else if c = '}' then some (.done, m)
      else none
  | (.done, _), _ => none

/-- The map whose JSON object is the given text. -/
def parse (s : Str) : Option Strings :=
  match s.foldlM read (.start, ∅) with
  | some (.done, m) => some m
  | _ => none

variable (m : Strings)

theorem foldlM_unopened (key : Option Str) (s t : Str) :
  (s.flatMap escaped).foldlM read (.string key t, m) = some (.string key (t ++ s), m)
  := by
  induction s generalizing t with
  | nil => simp
  | cons c s ih =>
      rw [List.flatMap_cons, List.foldlM_append, escaped]
      split
      · rename_i h
        have hread : [('\\' : Char), c].foldlM read (.string key t, m)
            = some (.string key (t ++ [c]), m) := by
          simp [read, h]
        rw [hread]
        simpa using ih (t ++ [c])
      · rename_i h
        rw [not_or] at h
        have hread : [c].foldlM read (.string key t, m)
            = some (.string key (t ++ [c]), m) := by
          simp [read, h.1, h.2]
        rw [hread]
        simpa using ih (t ++ [c])

/-- A member is read where one may come. -/
theorem foldlM_member (st : State) (hst : st = .first ∨ st = .next) (e : Str × Str) :
  (member e).foldlM read (st, m) = some (.after, m.insert e.1 e.2)
  := by
  have opening : ['\n', ' ', ' ', '"'].foldlM read (st, m) = some (.string none [], m) := by
    rcases hst with rfl | rfl <;> rfl
  have split : member e = ['\n', ' ', ' ', '"'] ++ (e.1.flatMap escaped ++
      (['"', ':', ' ', '"'] ++ (e.2.flatMap escaped ++ ['"']))) := by
    simp [member, unopened]
  have middle : ['"', ':', ' ', '"'].foldlM read (.string none e.1, m)
      = some (.string (some e.1) [], m) := rfl
  have closing : ['"'].foldlM read (.string (some e.1) e.2, m)
      = some (.after, m.insert e.1 e.2) := rfl
  rw [split]
  simp only [List.foldlM_append, opening, middle, closing, foldlM_unopened, Option.bind_some,
    Option.bind_eq_bind, List.nil_append]

/-- The members after the first are read one by one. -/
theorem foldlM_members (es : List (Str × Str)) :
  (es.flatMap fun e => ',' :: member e).foldlM read (.after, m)
    = some (.after, es.foldl (fun m e => m.insert e.1 e.2) m)
  := by
  induction es generalizing m with
  | nil => rfl
  | cons e es ih =>
      have comma : [','].foldlM read (.after, m) = some (.next, m) := rfl
      rw [List.flatMap_cons, ← List.singleton_append, List.append_assoc]
      simp only [List.foldlM_append, comma, foldlM_member m .next (.inr rfl) e, ih,
        Option.bind_some, Option.bind_eq_bind, List.foldl_cons]

theorem foldlM_object (es : List (Str × Str)) :
  (object es).foldlM read (.start, ∅)
    = some (.done, es.foldl (fun m e => m.insert e.1 e.2) ∅)
  := by
  cases es with
  | nil => rfl
  | cons e es =>
      have opening : ['{'].foldlM read (.start, ∅) = some (.first, ∅) := rfl
      have closing : ∀ m, ['\n', '}'].foldlM read (.after, m) = some (.done, m) := fun _ => rfl
      rw [object, ← List.singleton_append]
      simp only [List.foldlM_append, opening, closing, foldlM_member _ .first (.inl rfl) e,
        foldlM_members, Option.bind_some, Option.bind_eq_bind, List.foldl_cons]

/-- The text of a map. -/
def text : Str :=
  object (LawfulMap.ofAList.entries m)

/-- Parsing the text of a map gives the map. -/
theorem parse_text :
  ∃ m', parse (text m) = some m' ∧ ∀ k, m'.lookup k = m.lookup k
  := by
  rw [parse, text, foldlM_object]
  refine ⟨_, rfl, ?_⟩
  intro k
  apply Option.ext
  intro v
  rw [HashMap.lookup_foldl_insert ∅ (LawfulMap.ofAList.nodup_entries m),
    LawfulMap.ofAList.mem_entries]
  simp [LawfulMap.ofAList]

/-- No proper initial part of a text can be parsed. -/
theorem parse_eq_none_of_append {p q : Str} (h : p ++ q = text m) (hq : q ≠ []) :
  parse p = none
  := by
  have hall := foldlM_object (LawfulMap.ofAList.entries m)
  rw [← text, ← h, List.foldlM_append, Option.bind_eq_bind, Option.bind_eq_some_iff] at hall
  obtain ⟨⟨st, m'⟩, hp, hrest⟩ := hall
  rw [parse, hp]
  cases st with
  | done =>
      obtain ⟨c, q, rfl⟩ := List.exists_cons_of_ne_nil hq
      cases hrest
  | _ => rfl

end JsonText
