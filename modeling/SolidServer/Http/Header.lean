import SolidServer.Library.Octets

/-!
# Header fields

A header value is a list of octets without control characters other than the tab and
without DEL.  Strings become header values through their UTF-8 encoding, and a header value
made of visible ASCII characters can be read back as a string.  A header map is the list of
its fields.
-/

open Text

namespace Http

/-- The names of the header fields the server reads or writes. -/
inductive HeaderName where
  | accept
  | accessControlAllowHeaders
  | accessControlAllowOrigin
  | accessControlExposeHeaders
  | allow
  | authorization
  | contentType
  | link
  | location
  | origin
  | wwwAuthenticate
  | other (name : Str)
deriving DecidableEq

/-- Octets allowed in a header value. -/
def isValid (b : UInt8) : Bool :=
  (32 ≤ b && b != 127) || b == 9

/-- Octets of visible ASCII characters, the space, and the tab. -/
def isVisibleAscii (b : UInt8) : Bool :=
  (32 ≤ b && b < 127) || b == 9

/-- A header value. -/
structure HeaderValue where
  octets : List UInt8
  valid : octets.all isValid = true
deriving DecidableEq

namespace HeaderValue

/-- The header value with the given octets, if they are allowed. -/
def fromBytes (bs : List UInt8) : Option HeaderValue :=
  if h : bs.all isValid = true then some ⟨bs, h⟩ else none

/-- The header value with the given text, if its octets are allowed. -/
def fromStr (s : Str) : Option HeaderValue :=
  fromBytes (utf8 s)

/-- The text of a header value made of visible ASCII characters. -/
def toStr (v : HeaderValue) : Option Str :=
  if v.octets.all isVisibleAscii then some (v.octets.map fun b => Char.ofNat b.toNat)
  else none

theorem fromBytes_octets (v : HeaderValue) :
  fromBytes v.octets = some v
  := dif_pos v.valid

/-- A string is a header value unless its encoding has a forbidden octet. -/
theorem isSome_fromStr_iff {s : Str} :
  (fromStr s).isSome ↔ ∀ b ∈ utf8 s, isValid b = true
  := by
  rw [fromStr, fromBytes]
  split
  · rename_i h
    simpa using h
  · rename_i h
    simpa using h

/-- The octets of a header value made of a string are the encoding of the string. -/
theorem octets_of_fromStr {s : Str} {v : HeaderValue} (h : fromStr s = some v) :
  v.octets = utf8 s
  := by
  rw [fromStr, fromBytes] at h
  split at h
  · obtain rfl := Option.some.inj h
    rfl
  · cases h

theorem ascii_char {b : UInt8} (h : isVisibleAscii b = true) :
  String.utf8EncodeChar (Char.ofNat b.toNat) = [b]
  := by
  have key : ∀ n : Fin 127, String.utf8EncodeChar (Char.ofNat n) = [UInt8.ofNat n] := by
    decide
  have hb : b.toNat < 127 := by
    simp only [isVisibleAscii, Bool.or_eq_true, Bool.and_eq_true, decide_eq_true_eq,
      beq_iff_eq] at h
    rcases h with ⟨-, h⟩ | rfl
    · apply h
    · decide
  rw [key ⟨b.toNat, hb⟩, UInt8.ofNat_toNat]

/-- A header value read as a string is the header value of that string. -/
theorem fromStr_of_toStr {v : HeaderValue} {s : Str} (h : v.toStr = some s) :
  fromStr s = some v
  := by
  obtain ⟨hv, hs⟩ := Option.ite_none_right_eq_some.mp h
  obtain rfl := Option.some.inj hs
  have key : ∀ bs : List UInt8, bs.all isVisibleAscii = true →
      utf8 (bs.map fun b => Char.ofNat b.toNat) = bs := by
    intro bs hbs
    induction bs with
    | nil => rfl
    | cons b bs ih =>
        rw [List.all_cons, Bool.and_eq_true] at hbs
        rw [utf8, List.map_cons, List.flatMap_cons, ascii_char hbs.1]
        apply congrArg (b :: ·) (ih hbs.2)
  rw [fromStr, key _ hv, fromBytes_octets]

end HeaderValue

/-- The fields of a message, in order. -/
abbrev HeaderMap := List (HeaderName × HeaderValue)

namespace HeaderMap

/-- The first value of a field. -/
def get (headers : HeaderMap) (name : HeaderName) : Option HeaderValue :=
  List.lookup name headers

/-- Set a field, replacing all its values. -/
def insert (headers : HeaderMap) (name : HeaderName) (value : HeaderValue) : HeaderMap :=
  (headers.filter fun field => field.1 ≠ name).concat (name, value)

/-- Add a value to a field. -/
def append (headers : HeaderMap) (name : HeaderName) (value : HeaderValue) : HeaderMap :=
  headers.concat (name, value)

end HeaderMap

end Http
