import Mathlib.Data.Nat.Log
import Mathlib.Algebra.GroupWithZero.Nat

/-!
# Finite doubles

IEEE 754 binary64 values as integers: a significand and a power of two. Reading
a decimal rounds to the nearest double, ties to even, and fails past the largest
one; printing takes the fewest decimal digits that read back as the same double,
the closest to it among those.
-/

/-- `(-1)^neg * mant * 2^exp`, in the one form a double has. -/
structure F64 where
 /-- The sign. -/
 neg : Bool
 /-- The significand. -/
 mant : Nat
 /-- The power of two. -/
 exp : Int
 /-- The significand has 53 bits, fewer only at the least exponent. -/
 canonical : mant < 2 ^ 53 ∧ -1074 ≤ exp ∧ exp ≤ 971 ∧ (2 ^ 52 ≤ mant ∨ exp = -1074)
deriving DecidableEq

namespace F64

/-- The double with these parts, when there is one. -/
def ofParts (neg : Bool) (mant : Nat) (exp : Int) : Option F64 :=
 if h : mant < 2 ^ 53 ∧ -1074 ≤ exp ∧ exp ≤ 971 ∧ (2 ^ 52 ≤ mant ∨ exp = -1074) then
  some ⟨neg, mant, exp, h⟩
 else none

/-- `num / (den * base ^ exp)` as a fraction. -/
def scale (base num den : Nat) (exp : Int) : Nat × Nat :=
 if 0 ≤ exp then (num, den * base ^ exp.toNat) else (num * base ^ (-exp).toNat, den)

/-- The nearest integer to `num / den`, the even one of two. -/
def roundHalfEven (num den : Nat) : Nat :=
 if 2 * (num % den) < den then num / den
 else if den < 2 * (num % den) then num / den + 1
 else num / den + num / den % 2

/-- The double nearest to `num / den`; `none` past the largest one. -/
def ofRatio (neg : Bool) (num den : Nat) : Option F64 :=
 if num = 0 then ofParts neg 0 (-1074)
 else
  let low : Int := max (-1074) ((num.log2 : Int) - den.log2 - 53)
  let exp := if (scale 2 num den low).1 / (scale 2 num den low).2 < 2 ^ 53 then low else low + 1
  let mant := roundHalfEven (scale 2 num den exp).1 (scale 2 num den exp).2
  if mant < 2 ^ 53 then ofParts neg mant exp else ofParts neg (mant / 2) (exp + 1)

/-- The double nearest to `digits * 10 ^ exp`. -/
def ofDecimal (neg : Bool) (digits : Nat) (exp : Int) : Option F64 :=
 ofRatio neg (scale 10 digits 1 (-exp)).1 (scale 10 digits 1 (-exp)).2

/-- The magnitude as a fraction. -/
def ratio (v : F64) : Nat × Nat := scale 2 v.mant 1 (-v.exp)

def isZero (v : F64) : Bool := v.mant = 0

/-- Equality of values: the two zeros are equal. -/
def beq (a b : F64) : Bool := (a.isZero && b.isZero) || a = b

/-- The power of ten of the first decimal digit of a positive fraction. -/
def leading (num den : Nat) : Int :=
 if den ≤ num then (Nat.log 10 (num / den) : Int) else -(Nat.clog 10 ((den + num - 1) / num) : Int)

/-- The two decimals with `n` digits around `v`, the closer one first, each with
its power of ten. -/
def around (v : F64) (n : Nat) : List (Nat × Int) :=
 let exp := leading v.ratio.1 v.ratio.2 - (n - 1 : Nat)
 let (num, den) := scale 10 v.ratio.1 v.ratio.2 exp
 if 2 * (num % den) ≤ den then [(num / den, exp), (num / den + 1, exp)]
 else [(num / den + 1, exp), (num / den, exp)]

/-- The shortest decimal that reads as `v`; seventeen digits always do. -/
def shortest (v : F64) : Nat × Int := ((List.range 17).findSome? fun i =>
  (around v (i + 1)).find? fun c => 0 < c.1 ∧ ofDecimal v.neg c.1 c.2 = some v).getD (1, 0)

theorem shortest_pos (v : F64) : 0 < v.shortest.1 := by
 unfold shortest
 cases h : ((List.range 17).findSome? fun i =>
  (around v (i + 1)).find? fun c => 0 < c.1 ∧ ofDecimal v.neg c.1 c.2 = some v) with
 | none => simp
 | some c =>
  obtain ⟨i, -, hi⟩ := List.exists_of_findSome?_eq_some h
  have := List.find?_some hi
  simp only [decide_eq_true_eq] at this
  exact this.1

end F64
