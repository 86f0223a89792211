import Mathlib.Algebra.Order.Floor.Ring
import Mathlib.Data.Int.Log
import Mathlib.Data.Rat.Floor
import Mathlib.Order.WithBot
import SolidServer.Library.Text

/-!
# Single-precision numbers

An `F32` is a number, a rational one or one of the two infinities, or it is not a number.
What is not a number compares with nothing.  Numbers are read from decimal notation, rounded
to the nearest one with 24 binary digits, or from the names of the infinities and of what is
not a number.
-/

namespace Text

/-- A single-precision number, without the sign of zero. -/
inductive F32 where
  | nan
  | number (x : WithBot (WithTop ℚ))
deriving DecidableEq

namespace F32

/-- A rational number. -/
def ofRat (x : ℚ) : F32 :=
  number ((x : WithTop ℚ) : WithBot (WithTop ℚ))

/-- The infinities. -/
def infinity (negative : Bool) : F32 :=
  number (if negative then ⊥ else ((⊤ : WithTop ℚ) : WithBot (WithTop ℚ)))

/-- Compare two numbers. -/
def partialCmp : F32 → F32 → Option Ordering
  | number x, number y => some (compare x y)
  | _, _ => none

instance : LT F32 where
  lt a b := a.partialCmp b = some .lt

instance (a b : F32) : Decidable (a < b) :=
  inferInstanceAs (Decidable (a.partialCmp b = some .lt))

/-- The number restricted to an interval. -/
def clamp (x min max : F32) : F32 :=
  let x := if x < min then min else x
  if max < x then max else x

@[simp]
theorem number_lt_number {x y : WithBot (WithTop ℚ)} :
  number x < number y ↔ x < y
  := by
  change some (compare x y) = some .lt ↔ x < y
  rw [Option.some.injEq, compare_lt_iff_lt]

@[simp]
theorem not_nan_lt (a : F32) :
  ¬ nan < a
  := by
  rintro ⟨⟩

@[simp]
theorem not_lt_nan (a : F32) :
  ¬ a < nan
  := by
  cases a <;> rintro ⟨⟩

@[simp]
theorem not_lt_self (a : F32) :
  ¬ a < a
  := by
  cases a <;> simp

theorem partialCmp_swap (a b : F32) :
  b.partialCmp a = (a.partialCmp b).map Ordering.swap
  := by
  cases a with
  | nan => cases b <;> rfl
  | number x =>
      cases b with
      | nan => rfl
      | number y => exact congrArg some (Std.OrientedCmp.eq_swap)

/-- Among numbers, not exceeding is transitive. -/
theorem not_lt_trans {a b c : F32} (hb : b ≠ nan) (hab : ¬ b < a) (hbc : ¬ c < b) :
  ¬ c < a
  := by
  cases a with
  | nan => simp
  | number x =>
      cases c with
      | nan => simp
      | number z =>
          cases b with
          | nan => apply absurd rfl hb
          | number y =>
              rw [number_lt_number, not_lt] at *
              apply hab.trans hbc

/-! ### Rounding -/

/-- The integer nearest to a number, the even one of two. -/
def roundTiesEven (x : ℚ) : ℤ :=
  let n := ⌊x⌋
  if x - n < 1 / 2 ∨ (x - n = 1 / 2 ∧ Even n) then n else n + 1

/-- The exponent of the last binary digit kept of a number. -/
def lastPlace (x : ℚ) : ℤ :=
  max (-149) (Int.log 2 |x| - 23)

/-- The nearest single-precision number. -/
def round (x : ℚ) : F32 :=
  let ulp := (2 : ℚ) ^ lastPlace x
  let y := roundTiesEven (x / ulp) * ulp
  if 2 ^ 128 ≤ |y| then infinity (y < 0) else ofRat y

/-! ### Reading -/

/-- A sign, and what follows it. -/
def sign : Str → Bool × Str
  | '-' :: s => (true, s)
  | '+' :: s => (false, s)
  | s => (false, s)

/-- The number a list of decimal digits stands for. -/
def digits (s : Str) : ℕ :=
  s.foldl (fun n c => 10 * n + (c.toNat - '0'.toNat)) 0

/-- An exponent, which may be missing. -/
def exponent : Str → Option ℤ
  | [] => some 0
  | 'e' :: s =>
      let (negative, s) := sign s
      if s ≠ [] ∧ s.all Char.isDigit then
        some (if negative then -digits s else digits s)
      else none
  | _ => none

/-- A number in decimal notation, without a sign. -/
def decimal (s : Str) : Option ℚ :=
  let (whole, s) := s.span Char.isDigit
  let (fraction, s) :=
    match s with
    | '.' :: s => s.span Char.isDigit
    | s => ([], s)
  if whole = [] ∧ fraction = [] then none
  else (exponent s).map fun e : ℤ =>
    let e := e - fraction.length
    Rat.ofScientific (digits (whole ++ fraction)) (e < 0) e.natAbs

/-- A number read from a string. -/
def fromStr (s : Str) : Option F32 :=
  let (negative, s) := sign s
  let s := s.map Char.toLower
  if s = "nan".toList then some nan
  else if s = "inf".toList ∨ s = "infinity".toList then some (infinity negative)
  else (decimal s).map fun x => round (if negative then -x else x)

example : fromStr "1e-1".toList = some (ofRat (13421773 / 134217728)) := by decide +kernel

example : fromStr "1e".toList = none := by decide +kernel

end F32

end Text
