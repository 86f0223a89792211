import SolidServer.Library.Uppercase

/-!
# HTTP methods

Parsing the name of a method compares the upper-case form of the text with the names.  That is
the upper-case form of Unicode, so some texts with characters outside of ASCII are parsed, too:
the long s, the dotless i and the ligatures of s and t turn into letters of `POST` and `OPTIONS`.
`foreignSpellings` lists all such texts (`tryFrom_eq_ok_iff`).
-/

open Text

namespace HttpTypes

/-- The HTTP methods of the protocol. -/
inductive HttpMethod where
  | get
  | head
  | post
  | put
  | patch
  | delete
  | options
deriving DecidableEq

namespace HttpMethod

/-- The name of the method. -/
def fmt : HttpMethod → Str
  | get => "GET".toList
  | head => "HEAD".toList
  | post => "POST".toList
  | put => "PUT".toList
  | patch => "PATCH".toList
  | delete => "DELETE".toList
  | options => "OPTIONS".toList

/-- The method with the given name, or an error that repeats the upper-case form of the name. -/
def tryFrom (s : Str) : Except Str HttpMethod :=
  let name := toUppercase s
  if name = "GET".toList then .ok get
  else if name = "HEAD".toList then .ok head
  else if name = "POST".toList then .ok post
  else if name = "PUT".toList then .ok put
  else if name = "PATCH".toList then .ok patch
  else if name = "DELETE".toList then .ok delete
  else if name = "OPTIONS".toList then .ok options
  else .error ("Unknown HTTP method: ".toList ++ name)

/-- The texts with small letters of ASCII only and other characters that have the name of the
method as their upper-case form. -/
def foreignSpellings : HttpMethod → List Str
  | post => ["po\u017Ft".toList, "po\uFB05".toList, "po\uFB06".toList]
  | options => ["option\u017F".toList, "opt\u0131ons".toList, "opt\u0131on\u017F".toList]
  | _ => []

/-! ### Names -/

/-- A name has capital letters of ASCII only. -/
theorem isUpper_of_mem_fmt {m : HttpMethod} {c : Char} (h : c ∈ m.fmt) :
  c.isUpper = true
  := by
  have names : m.fmt.all Char.isUpper = true := by cases m <;> decide
  exact List.all_eq_true.mp names c h

theorem length_fmt_le (m : HttpMethod) :
  m.fmt.length ≤ 7
  := by
  cases m <;> decide

theorem spellings_fmt (m : HttpMethod) :
  spellings 7 m.fmt = toAsciiLowercase m.fmt :: m.foreignSpellings
  := by
  cases m <;> decide +kernel

/-- A text that is a name up to the case of letters of ASCII has no other characters. -/
theorem ascii_of_eqIgnoreAsciiCase {s : Str} {m : HttpMethod} (h : EqIgnoreAsciiCase s m.fmt)
    {c : Char} (hc : c ∈ s) :
  c.toNat < 0x80
  := by
  have hmem : c.toLower ∈ toAsciiLowercase m.fmt := h ▸ List.mem_map_of_mem hc
  obtain ⟨x, hx, hlower⟩ := List.mem_map.mp hmem
  exact (toUpper_of_toLower_eq (isUpper_of_mem_fmt hx) hlower.symm).1

/-- A foreign spelling is not the name, and has a character outside of ASCII. -/
theorem exists_foreign {m : HttpMethod} {w : Str} (h : w ∈ m.foreignSpellings) :
  w ≠ toAsciiLowercase m.fmt ∧ ∃ c ∈ w, 0x80 ≤ c.toNat
  := by
  have foreign : ∀ w ∈ m.foreignSpellings,
      w ≠ toAsciiLowercase m.fmt ∧ w.any (fun c => 0x80 ≤ c.toNat) = true := by
    cases m <;> decide
  obtain ⟨hname, hany⟩ := foreign w h
  obtain ⟨c, hc, hcode⟩ := List.any_eq_true.mp hany
  exact ⟨hname, c, hc, of_decide_eq_true hcode⟩

/-! ### Parsing -/

/-- A text is parsed as the method whose name is its upper-case form. -/
theorem tryFrom_eq_ok_iff_toUppercase {s : Str} {m : HttpMethod} :
  tryFrom s = .ok m ↔ toUppercase s = m.fmt
  := by
  constructor
  · intro h
    simp only [tryFrom] at h
    split_ifs at h with hname hname hname hname hname hname hname
    all_goals
      cases h
      exact hname
  · intro h
    simp only [tryFrom, h]
    cases m <;> rfl

/-- A text is parsed as a method if it is the name up to the case of letters of ASCII, and if it
is a foreign spelling of the name, up to that case. -/
theorem tryFrom_eq_ok_iff {s : Str} {m : HttpMethod} :
  tryFrom s = .ok m ↔ EqIgnoreAsciiCase s m.fmt ∨ toAsciiLowercase s ∈ m.foreignSpellings
  := by
  rw [tryFrom_eq_ok_iff_toUppercase,
    toUppercase_eq_iff (length_fmt_le m) fun _ => isUpper_of_mem_fmt, spellings_fmt,
    List.mem_cons, EqIgnoreAsciiCase]

/-- Every method is parsed from its name. -/
theorem tryFrom_fmt (m : HttpMethod) :
  tryFrom m.fmt = .ok m
  := tryFrom_eq_ok_iff.mpr (.inl rfl)

/-- A text is rejected if it is parsed as no method. -/
theorem exists_error {s : Str} (h : ∀ m, tryFrom s ≠ .ok m) :
  ∃ e, tryFrom s = .error e
  := by
  cases hparsed : tryFrom s with
  | error e => exact ⟨e, rfl⟩
  | ok m => exact absurd hparsed (h m)

/-- The text is parsed as the methods are named in the protocol: up to the case of letters of
ASCII, and with no characters outside of ASCII. -/
structure Exact (s : Str) : Prop where
  accepted : ∀ m, tryFrom s = .ok m ↔ EqIgnoreAsciiCase s m.fmt
  rejected : (∀ m : HttpMethod, ¬ EqIgnoreAsciiCase s m.fmt) → ∃ e, tryFrom s = .error e
  ascii : (∃ c ∈ s, 0x80 ≤ c.toNat) → ∃ e, tryFrom s = .error e

/-- Parsing is exact but for the foreign spellings, up to the case of letters of ASCII. -/
theorem exact_iff (s : Str) :
  Exact s ↔ ∀ m : HttpMethod, toAsciiLowercase s ∉ m.foreignSpellings
  := by
  constructor
  · intro hexact m hforeign
    have hname := (hexact.accepted m).mp (tryFrom_eq_ok_iff.mpr (.inr hforeign))
    exact (exists_foreign hforeign).1 hname
  · intro hforeign
    have accepted : ∀ m, tryFrom s = .ok m ↔ EqIgnoreAsciiCase s m.fmt := fun m =>
      tryFrom_eq_ok_iff.trans (or_iff_left (hforeign m))
    constructor
    · exact accepted
    · intro hnames
      apply exists_error
      intro m hm
      exact hnames m ((accepted m).mp hm)
    · rintro ⟨c, hc, hcode⟩
      apply exists_error
      intro m hm
      have hascii := ascii_of_eqIgnoreAsciiCase ((accepted m).mp hm) hc
      omega

/-- The long s makes `POST`. -/
theorem tryFrom_long_s :
  tryFrom "po\u017Ft".toList = .ok .post ∧
    ¬ EqIgnoreAsciiCase "po\u017Ft".toList (fmt .post)
  := by
  constructor
  · apply tryFrom_eq_ok_iff_toUppercase.mpr
    decide +kernel
  · decide

end HttpMethod

end HttpTypes
