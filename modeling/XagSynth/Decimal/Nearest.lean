/-!
# Nearest binary64 values

`nearest a b` is the binary64 value nearest to `a / b`, ties to even and
infinity from `2 ^ 1024` on, computed exactly by splitting the ratio at the
weight of the last digit kept and rounding the quotient once. Integers
(`ofInt?`) and decimal numerals (`ofDecimal`) are read through it.
-/

namespace XagSynth.Decimal

def infinity : Float := 1 / 0

def atLeastPow (a b : Nat) (e : Int) : Bool :=
  if 0 ≤ e then decide (Nat.shiftLeft b e.toNat ≤ a)
  else decide (b ≤ Nat.shiftLeft a (-e).toNat)

/-- The exponent `E` with `2 ^ E ≤ a / b < 2 ^ (E + 1)`, for positive `a` and `b`. -/
def binaryExponent (a b : Nat) : Int :=
  let e : Int := (Nat.log2 a : Int) - Nat.log2 b
  if atLeastPow a b e then e else e - 1

def roundedQuotient (a b : Nat) (u : Int) : Nat :=
  let num := if u ≤ 0 then Nat.shiftLeft a (-u).toNat else a
  let den := if u ≤ 0 then b else Nat.shiftLeft b u.toNat
  let q := num / den
  let r := num % den
  if den < 2 * r || (2 * r == den && q % 2 == 1) then q + 1 else q

/-- The binary64 value nearest to `a / b`; zero when `a` or `b` is zero. -/
def nearest (a b : Nat) : Float :=
  if a = 0 || b = 0 then 0 else
  let e := binaryExponent a b
  if 1024 ≤ e then infinity else
  let u := max (e - 52) (-1074)
  let q := roundedQuotient a b u
  if 1024 ≤ u + Nat.log2 q then infinity else (Float.ofNat q).scaleB u

/-- The binary64 value of an integer, if it is finite. -/
def ofInt? (n : Int) : Option Float :=
  let x := nearest n.natAbs 1
  if x.isInf then none else some (if n < 0 then -x else x)

def digitCount (m : Nat) : Nat := (Nat.toDigits 10 m).length

/-- The binary64 value nearest to `m * 10 ^ e`, negated when `neg`.  A value
far beyond the largest finite one is infinite and one far below the least
positive one is zero, without computing the power. -/
def ofDecimal (neg : Bool) (m : Nat) (e : Int) : Float :=
  let x :=
    if m = 0 then 0
    else if 310 < (digitCount m : Int) + e then infinity
    else if (digitCount m : Int) + e < -330 then 0
    else if 0 ≤ e then nearest (m * Nat.pow 10 e.toNat) 1
    else nearest m (Nat.pow 10 (-e).toNat)
  if neg then -x else x

end XagSynth.Decimal
