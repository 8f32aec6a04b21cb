import XagSynth.Fault
import XagSynth.Decimal.Nearest

/-!
# Products and counts of field values

`Datum.times` multiplies numbers as integers or as binary64 numbers and repeats
a text or list by an integer count; `Datum.index` reads a value as a count.
Counts are machine sizes, and a repetition needing more than `itemLimit` items
is refused.
-/

namespace XagSynth.Datum

/-- A number: an integer, or a binary64 value. -/
inductive Number where
  | int (i : Int)
  | real (x : Float)

def number? : Datum → Option Number
  | .bool b => some (.int (if b then 1 else 0))
  | .int i => some (.int i)
  | .real x => some (.real x)
  | _ => Option.none

def Number.toReal : Number → Except Fault Float
  | .int i =>
    match Decimal.ofInt? i with
    | some x => .ok x
    | Option.none => .error .intTooLarge
  | .real x => .ok x

/-- A value read as a count: an integer, or a truth value as 0 or 1. -/
def index : Datum → Except Fault Int
  | .int i => .ok i
  | .bool b => .ok (if b then 1 else 0)
  | d => .error (.notIndex d.typeName)

def sizeLimit : Int := 9223372036854775807

def isMachineSize (n : Int) : Bool := decide (-sizeLimit - 1 ≤ n ∧ n ≤ sizeLimit)

def itemLimit : Nat := 68719476736

def isSequence : Datum → Bool
  | .text _ | .list _ => true
  | _ => false

/-- A text or a list repeated `n` times. -/
def repeatBy (d : Datum) (n : Int) : Except Fault Datum :=
  if !isMachineSize n then .error .repeatTooLarge else
  let k := n.toNat
  match d with
  | .text s =>
    if s.isEmpty then .ok d
    else if sizeLimit < ((s.length * k : Nat) : Int) then .error .textTooLong
    else if itemLimit < s.length * k then .error .noMemory
    else .ok (.text (String.join (List.replicate k s)))
  | .list xs =>
    if xs.isEmpty then .ok d
    else if itemLimit < xs.length * k then .error .noMemory
    else .ok (.list (List.replicate k xs).flatten)
  | _ => .ok d

/-- The product of two values. -/
def times (a b : Datum) : Except Fault Datum :=
  match a.number?, b.number? with
  | some (.int i), some (.int j) => .ok (.int (i * j))
  | some x, some y => do return .real ((← x.toReal) * (← y.toReal))
  | _, _ =>
    if a.isSequence then
      match b.number? with
      | some (.int j) => repeatBy a j
      | _ => .error (.repeatBy b.typeName)
    else if b.isSequence then
      match a.number? with
      | some (.int i) => repeatBy b i
      | _ => .error (.repeatBy a.typeName)
    else .error (.operands a.typeName b.typeName)

end XagSynth.Datum
