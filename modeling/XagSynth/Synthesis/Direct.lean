import XagSynth.Circuit.Basic
import XagSynth.Network.Basic

/-!
# Gate-by-gate synthesis

`Network.compile` gives every primary input a qubit, then every gate in table
order a fresh qubit before looking up its inputs: an AND gate becomes the clean
Toffoli gadget, negated as the gate says, and any other gate a CNOT from its
first input. A name without a qubit is refused.
-/

namespace XagSynth

/-- Qubits assigned to names; the latest assignment of a name is first. -/
abbrev QubitMap := List (String × Int)

def QubitMap.find (m : QubitMap) (name : String) : Except Fault Int :=
  match m.lookup name with
  | some q => .ok q
  | none => .error (Fault.missingName name)

/-- A qubit for each primary input, in order. -/
def Network.inputQubits (net : Network) : Circuit × QubitMap :=
  net.inputs.foldl (fun (c, m) n => let (q, c) := c.fresh; (c, (n, q) :: m)) ({}, [])

/-- The circuit and qubits after the gate `g` drives `node`. -/
def synthGate (acc : Circuit × QubitMap) (node : String) (g : Network.Gate) :
    Except Fault (Circuit × QubitMap) :=
  let (q, c) := acc.1.fresh
  let m : QubitMap := (node, q) :: acc.2
  match g with
  | .binary .and a b na nb _ => do
    let ca ← m.find a
    let cb ← m.find b
    return (c.append (Circuit.toffoliGates ca cb q na nb true), m)
  | .binary _ a _ _ _ _ | .buffer a => do
    let ca ← m.find a
    return (c.append (Circuit.cnotGates ca q false), m)

/-- The circuit of a network, one gate at a time. -/
def Network.compile (net : Network) : Except Fault Circuit := do
  let r ← net.gates.foldlM (fun acc e => synthGate acc e.1 e.2) net.inputQubits
  return r.1

end XagSynth
