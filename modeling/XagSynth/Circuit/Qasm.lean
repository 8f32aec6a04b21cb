import XagSynth.Circuit.Basic
import XagSynth.Datum.Access

/-!
# Gate records and QASM text

A gate record is a list of named fields. `entryQasm` writes the OpenQASM 2.0
statement of an entry of any kind, reading its name and qubit fields by name
and refusing the first field missing, then a name without a statement;
`Circuit.qasm` is a header declaring one register followed by one statement per
gate.
-/

namespace XagSynth.Circuit

abbrev Record := List (String × Datum)

def qubitRef (d : String) : String := "q[" ++ d ++ "]"

def singleStatement? (name : Datum) : Option String :=
  if name.isText "X" then some "x"
  else if name.isText "HAD" then some "h"
  else if name.isText "S" then some "s"
  else if name.isText "T" then some "t"
  else if name.isText "Tdg" then some "tdg"
  else none

def entryQasm (e : Datum) : Except Fault String := do
  let name ← e.field "name"
  if name.isText "Tof" then
    let a ← e.field "ctrl1"
    let b ← e.field "ctrl2"
    let q ← e.field "target"
    return "ccx " ++ qubitRef a.display ++ ", " ++ qubitRef b.display ++ ", " ++
      qubitRef q.display ++ ";\n"
  else if name.isText "CNOT" then
    let c ← e.field "ctrl"
    let q ← e.field "target"
    return "cx " ++ qubitRef c.display ++ ", " ++ qubitRef q.display ++ ";\n"
  else
    match singleStatement? name with
    | some op => return op ++ " " ++ qubitRef (← e.field "target").display ++ ";\n"
    | none => throw (.unsupportedGate name)

def qasmHeader (width : Nat) : String :=
  "OPENQASM 2.0;\ninclude \"qelib1.inc\";\nqreg " ++ qubitRef (toString width) ++ ";\n"

/-- The program of a list of gate entries on `width` qubits. -/
def qasmOf (width : Nat) (es : List Datum) : Except Fault String := do
  let lines ← es.mapM entryQasm
  return qasmHeader width ++ String.join lines

def entryIsT (e : Datum) : Except Fault Bool := do
  let n ← e.field "name"
  return n.isText "T" || n.isText "Tdg"

def tCountOf (es : List Datum) : Except Fault Nat := do
  let ts ← es.mapM entryIsT
  return ts.count true

def Gate.record (g : Gate Int) : Record := g.fields .int

def Gate.qasmLine : Gate Int → String
  | .ccx a b q => "ccx " ++ qubitRef (toString a) ++ ", " ++ qubitRef (toString b) ++ ", " ++
      qubitRef (toString q) ++ ";\n"
  | .cx c q => "cx " ++ qubitRef (toString c) ++ ", " ++ qubitRef (toString q) ++ ";\n"
  | .x q => "x " ++ qubitRef (toString q) ++ ";\n"
  | .h q => "h " ++ qubitRef (toString q) ++ ";\n"
  | .s q => "s " ++ qubitRef (toString q) ++ ";\n"
  | .t q => "t " ++ qubitRef (toString q) ++ ";\n"
  | .tdg q => "tdg " ++ qubitRef (toString q) ++ ";\n"

end XagSynth.Circuit

namespace XagSynth

def Circuit.records (c : Circuit) : List Circuit.Record := c.gates.map Circuit.Gate.record

/-- The QASM program of a circuit. -/
def Circuit.qasm (c : Circuit) : String :=
  Circuit.qasmHeader c.width ++ String.join (c.gates.map Circuit.Gate.qasmLine)

end XagSynth
