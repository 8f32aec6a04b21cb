import XagSynth.Cut.Basic
import XagSynth.Network.Basic
import XagSynth.Table
import XagSynth.Datum.Times

/-!
# Finding XOR blocks

`Network.cuts` gives each primary input and each gate its block view. For an
XOR or buffer gate, absorption exposes the XOR gates among the leaves round by
round, then each leaf grows a product by replacing expandable names (non-input
AND gates with one reader) by their inputs while the `Bound` admits it. Both
loops run on fuel, the number of gates plus two.
-/

namespace XagSynth

/-- The bound on the number of names of a product: a count, or a value of a
kind that counts have no order with. -/
inductive Bound where
  | count (n : Int)
  | unordered (typeName : String)

/-- The bound a value sets: an integer or truth value is a count; a binary64
number bounds sizes as the least integer not below it does, infinities as the
largest machine size and its negation do, and the undefined number as zero,
since no size is below it; any other value is unordered. -/
def Bound.ofDatum : Datum → Bound
  | .int i => .count i
  | .bool b => .count (if b then 1 else 0)
  | .real x =>
    if x.isNaN then .count 0
    else if x.isInf then .count (if x < 0 then -Datum.sizeLimit else Datum.sizeLimit)
    else
      let c := x.ceil
      .count (if c < 0 then -((-c).toUInt64.toNat : Int) else (c.toUInt64.toNat : Int))
  | d => .unordered d.typeName

/-- Whether a product of `k` names is below the bound, so that it may grow;
an unordered bound refuses the comparison. -/
def Bound.admits (b : Bound) (k : Nat) : Except Fault Bool :=
  match b with
  | .count n => .ok (decide ((k : Int) < n))
  | .unordered t => .error (.unordered "int" t)

namespace Network

/-- Whether a name drives an XOR gate. -/
def isXorGate (net : Network) (n : String) : Bool :=
  match net.gate? n with
  | some g => g.isXor
  | none => false

/-- The inputs of the gate that drives a name, if any. -/
def inputsOf (net : Network) (n : String) : List String :=
  match net.gate? n with
  | some g => g.inputs
  | none => []

theorem inputsOf_of_gate? {net : Network} {n : String} {g : Gate} (h : net.gate? n = some g) :
    net.inputsOf n = g.inputs := by
  simp [inputsOf, h]

/-- Absorption of XOR leaves: the final leaves and exposed gates. -/
def absorb (net : Network) : Nat → List String → List String → List String × List String
  | 0, leaves, exposed => (leaves, exposed)
  | fuel + 1, leaves, exposed =>
    let xs := leaves.filter net.isXorGate
    let exposed := Text.nameUnion exposed xs
    let leaves := Text.nameDiff (Text.nameUnion leaves (xs.flatMap net.inputsOf)) exposed
    if xs.isEmpty then (leaves, exposed) else absorb net fuel leaves exposed

/-- Whether a name may be replaced by its inputs inside a product. -/
def expandable (net : Network) (x : String) : Except Fault Bool :=
  if net.isInput x then .ok false else
  match net.gate? x with
  | none => .error .noGate
  | some g => if g.isAnd then return (← net.fanoutCount x) == 1 else .ok false

/-- Growth of a product while it has fewer names than the bound allows. -/
def grow (net : Network) (b : Bound) : Nat → List String → Except Fault (List String)
  | 0, p => .ok p
  | fuel + 1, p => do
    if ← b.admits p.length then
      let e ← p.filterM net.expandable
      if e.isEmpty then return p
      let p' := Text.nameDiff (Text.nameUnion p (e.flatMap net.inputsOf)) e
      if ← b.admits p'.length then grow net b fuel p' else return p'
    else return p

/-- The block view of the gate `g` driving `node`. -/
def cutOf (net : Network) (b : Bound) (node : String) (g : Gate) : Except Fault Cut := do
  if g.isAnd then return .conj node g.inputs
  let fuel := net.gates.length + 2
  let (leaves, exposed) := net.absorb fuel (Text.nameSet g.inputs) [node]
  let products ← leaves.mapM fun l => net.grow b fuel [l]
  return .block node exposed products

/-- The block view of every primary input and gate, in table order. -/
def cuts (net : Network) (b : Bound) : Except Fault (List (String × Cut)) := do
  let table := net.inputs.foldl (fun t p => Table.put t p (.source p)) []
  net.gates.foldlM (fun t e => do return Table.put t e.1 (← net.cutOf b e.1 e.2)) table

end Network

end XagSynth
