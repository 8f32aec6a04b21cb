/-!
# Shortest decimal text of a binary64 value

`Binary.shortest` finds the decimal with fewest significant digits among the
reals that round to a value (`Binary.readsBack`), the nearer one on a tie and
the even one on an exact tie, by exact comparisons of naturals; `render` lays
it out positionally when the leading exponent lies in `-4 ≤ e < 16`, and with
an exponent otherwise.
-/

namespace XagSynth.Decimal

/-- A finite positive binary64 value `m * 2^q`. -/
structure Binary where
  m : Nat
  q : Int
  narrowBelow : Bool

def Binary.ofBits (b : UInt64) : Binary :=
  let e := ((b >>> 52) &&& 0x7FF).toNat
  let f := (b &&& 0xFFFFFFFFFFFFF).toNat
  if e == 0 then ⟨f, -1074, false⟩ else ⟨Nat.pow 2 52 + f, (e : Int) - 1075, f == 0 && e > 1⟩

/-- A decimal `digits * 10^exp`. -/
structure Dec where
  digits : Nat
  exp : Int
deriving DecidableEq

def cmpScaled (a : Nat) (i : Int) (n : Nat) (j : Int) : Ordering :=
  compare (a * Nat.pow 10 i.toNat * Nat.pow 2 (-j).toNat) (n * Nat.pow 2 j.toNat * Nat.pow 10 (-i).toNat)

def Binary.readsBack (x : Binary) (d : Dec) : Bool :=
  let lo := if x.narrowBelow then 4 * x.m - 1 else 4 * x.m - 2
  let hi := 4 * x.m + 2
  let incl := x.m % 2 == 0
  let cl := cmpScaled d.digits d.exp lo (x.q - 2)
  let ch := cmpScaled d.digits d.exp hi (x.q - 2)
  (cl == .gt || (incl && cl == .eq)) && (ch == .lt || (incl && ch == .eq))

def Binary.below (x : Binary) (k : Int) : Bool := cmpScaled 1 k x.m x.q == .gt

def Binary.scale (x : Binary) : Int :=
  let est : Int := ((Nat.log2 x.m : Int) + x.q) * 30103 / 100000
  (((List.range 6).map fun (i : Nat) => est - 1 + (i : Int)).find? x.below).getD (est + 5)

/-- The decimal of the two neighbours of the value on the grid `10^g` that
reads back, the nearer one if both do, the even one on a tie. -/
def Binary.onGrid (x : Binary) (g : Int) : Option Dec :=
  let num := x.m * Nat.pow 2 x.q.toNat * Nat.pow 10 (-g).toNat
  let den := Nat.pow 2 (-x.q).toNat * Nat.pow 10 g.toNat
  let lo := num / den
  let dLo : Dec := ⟨lo, g⟩
  let dHi : Dec := ⟨lo + 1, g⟩
  match x.readsBack dLo, x.readsBack dHi with
  | true, true =>
    match compare (2 * num) ((2 * lo + 1) * den) with
    | .lt => some dLo
    | .gt => some dHi
    | .eq => if lo % 2 == 0 then some dLo else some dHi
  | true, false => some dLo
  | false, true => some dHi
  | false, false => none

def trimZeros : Nat → Nat → Int → Dec
  | 0, d, e => ⟨d, e⟩
  | fuel + 1, d, e => if d ≠ 0 ∧ d % 10 = 0 then trimZeros fuel (d / 10) (e + 1) else ⟨d, e⟩

def Dec.trim (d : Dec) : Dec := trimZeros (Nat.log2 d.digits + 1) d.digits d.exp

/-- The exact decimal value of `m * 2^q`. -/
def Binary.exact (x : Binary) : Dec :=
  if 0 ≤ x.q then ⟨x.m * Nat.pow 2 x.q.toNat, 0⟩ else ⟨x.m * Nat.pow 5 (-x.q).toNat, x.q⟩

/-- The shortest decimal that reads back as `x`: grids of 1 to 17 significant
digits are tried in turn, and the first with a hit wins. -/
def Binary.shortest (x : Binary) : Dec :=
  let k := x.scale
  match (List.range 17).findSome? fun i => x.onGrid (k - (i + 1 : Nat)) with
  | some d => d.trim
  | none => x.exact.trim

def zeros (n : Nat) : List Char := List.replicate n '0'

/-- The layout of a positive decimal without trailing zeros in its digits. -/
def Dec.layout (d : Dec) : List Char :=
  let ds := Nat.toDigits 10 d.digits
  let e : Int := d.exp + ds.length - 1
  if -4 ≤ e ∧ e < 16 then
    if 0 ≤ d.exp then ds ++ zeros d.exp.toNat ++ ['.', '0']
    else if 0 ≤ e then ds.take (e + 1).toNat ++ '.' :: ds.drop (e + 1).toNat
    else '0' :: '.' :: zeros ((-e).toNat - 1) ++ ds
  else
    let mant := match ds with
      | c :: r@(_ :: _) => c :: '.' :: r
      | _ => ds
    let ed := Nat.toDigits 10 e.natAbs
    mant ++ 'e' :: (if e < 0 then '-' else '+') :: zeros (2 - ed.length) ++ ed

/-- The shortest decimal text that reads back as the value. -/
def render (x : Float) : String :=
  let b := x.toBits
  let neg := b >>> 63 == 1
  let sign := if neg then "-" else ""
  let e := (b >>> 52) &&& 0x7FF
  let f := b &&& 0xFFFFFFFFFFFFF
  if e == 0x7FF then (if f == 0 then sign ++ "inf" else "nan")
  else if e == 0 && f == 0 then sign ++ "0.0"
  else sign ++ String.ofList (Binary.ofBits b).shortest.layout

end XagSynth.Decimal
