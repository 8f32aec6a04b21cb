import XagSynth.Network.Verilog
import XagSynth.Datum.Access

/-!
# Questions about a network

`Network.ask` answers a `Query` about one node, named by a value of any kind
read as a key (`Datum.nameKey`): its gate, whether it is an input, its readers
and their count, the AND count, the kinds of its gate, or the netlist text.
-/

namespace XagSynth.Network

/-- A question about a network. -/
inductive Query where
  | gate (node : Datum)
  | isInput (node : Datum)
  | fanoutCount (node : Datum)
  | readers (node : Datum)
  | andCount
  | kinds (node : Datum)
  | netlist

/-- The answer to a question. -/
inductive Answer where
  | gate (g : Option (String × Gate))
  | truth (b : Bool)
  | count (n : Nat)
  | names (ns : List String)
  | kinds (isAnd isXor isInput : Bool)
  | text (s : String)

def isInputValue (net : Network) : Datum → Bool
  | .text n => net.isInput n
  | _ => false

/-- The answer to a question about the network. -/
def ask (net : Network) : Query → Except Fault Answer
  | .gate node => do
    match ← node.nameKey with
    | some n => return .gate ((net.gate? n).map fun g => (n, g))
    | none => return .gate none
  | .isInput node => .ok (.truth (net.isInputValue node))
  | .fanoutCount node => do
    match ← node.nameKey with
    | some n => return .count (← net.fanoutCount n)
    | none => throw .noFanouts
  | .readers node => do
    match ← node.nameKey with
    | some n => return .names (net.readers n)
    | none => return .names []
  | .andCount => .ok (.count net.andCount)
  | .kinds node => do
    match ← node.nameKey with
    | some n =>
      let (a, x, p) ← net.gateKinds n
      return .kinds a x p
    | none => throw .noGate
  | .netlist => do return .text (← net.toVerilog)

end XagSynth.Network
