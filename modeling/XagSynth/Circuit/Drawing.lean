import XagSynth.Circuit.Qasm
import XagSynth.Datum.Times
import XagSynth.Datum.Access

/-!
# Circuit drawings

`drawing` records how a circuit is drawn, as a list of events: a dotted rule
and a label per qubit, then gate `k` in column `k` (a CNOT or Toffoli as lines
from its controls to its target, a T gate as a red dot, an X, S or H gate as a
yellow dot). The gates may be any value with members, read field by field, and
every qubit a drawn gate names must be one of the drawing's rows.
-/

namespace XagSynth.Circuit

/-- One step of a drawing. -/
inductive Event where
  | figure (w h : Datum)
  | axisOff
  | rule (y : Int)
  | label (x y : Int) (text : String)
  | line (xs ys : List Int) (style : String)
  | tightLayout
  | save (file : String)

def rowOf (n : Int) (g : Datum) (k : String) : Except Fault Int := do
  let v ← g.field k
  if !v.isKey then throw (.unhashable v.typeName)
  match v.asInt? with
  | some i => if 0 ≤ i ∧ i < n then return i else throw (.missingKey v)
  | none => throw (.missingKey v)

def gateEvents (n col : Int) (r : Datum) : Except Fault (List Event) := do
  let name ← r.field "name"
  if name.isText "CNOT" then
    let c ← rowOf n r "ctrl"
    let q ← rowOf n r "target"
    return [.line [col, col] [c, q] "b", .line [col] [c] "bo", .line [col] [q] "bx"]
  else if name.isText "Tof" then
    let c1 ← rowOf n r "ctrl1"
    let q ← rowOf n r "target"
    let c2 ← rowOf n r "ctrl2"
    return [.line [col, col] [c1, q] "b", .line [col] [c1] "bo",
      .line [col, col] [c2, q] "b", .line [col] [c2] "bo", .line [col] [q] "bx"]
  else if !name.isKey then throw (.unhashable name.typeName)
  else if name.isText "T" || name.isText "Tdg" then
    return [.line [col] [← rowOf n r "target"] "ro"]
  else if name.isText "X" || name.isText "S" || name.isText "H" then
    return [.line [col] [← rowOf n r "target"] "yo"]
  else return []

def gatesEvents (n : Int) : Int → List Datum → Except Fault (List Event)
  | _, [] => .ok []
  | col, r :: rs => do return (← gateEvents n col r) ++ (← gatesEvents n (col + 1) rs)

/-- The drawing of the gates `gs` on `n` qubits, scaled by `factor`. -/
def drawing (n gs factor : Datum) : Except Fault (List Event) := do
  let w ← Datum.times (.int (← gs.size)) factor
  let h ← Datum.times n factor
  let count ← n.index
  let rows : List Int := (List.range count.toNat).map fun (i : Nat) => (i : Int)
  let body ← gatesEvents count 0 (← gs.members)
  return [.figure w h, .axisOff] ++
    rows.map .rule ++ rows.map (fun q => .label 0 q ("q" ++ toString q)) ++ body ++
    [.tightLayout, .save "circuit.png"]

end XagSynth.Circuit
