import XagSynth.Network.Basic

/-!
# Reading and writing netlists

`Network.ofVerilog` reads gate-level Verilog line by line: stripped lines are
joined into statements up to a final `;`, blank and `//` lines are skipped
between them, `endmodule` ends the text, and `input`, `output` and `assign`
statements build the network, every occurrence of the keyword removed before
the items are cut at commas. `Network.toVerilog` writes a network without
gates.
-/

namespace XagSynth.Network

/-- The items of a statement: the text without its keyword, cut at commas. -/
def items (stmt keyword : String) : List String :=
  ((Text.splitOn ',' (Text.strip (Text.erase keyword stmt))).map Text.strip).filter
    fun s => !s.isEmpty

/-- The network after one statement. -/
def statement (net : Network) (stmt : String) : Except Fault Network := do
  let net :=
    if stmt.startsWith "input" then { net with inputs := net.inputs ++ items stmt "input" }
    else if stmt.startsWith "output" then { net with outputs := net.outputs ++ items stmt "output" }
    else net
  if stmt.startsWith "assign" then
    match items stmt "assign" with
    | [] => .error .listIndex
    | item :: _ => return net.assign (← Assignment.ofText item true)
  else return net

def finish (s : String) : String := Text.dropTrailing ';' s

/-- Read the remaining lines into `net`.  `pending` is the text of a statement
that has not reached its `;` yet. -/
def readLines (net : Network) : Option String → List String → Except Fault Network
  | none, [] => .ok net
  | some _, [] => .error .listIndex
  | none, l :: rest =>
    let s := Text.strip l
    if s.startsWith "//" || s.isEmpty then readLines net none rest
    else if s.startsWith "endmodule" then .ok net
    else if s.endsWith ";" then do readLines (← net.statement (finish s)) none rest
    else readLines net (some s) rest
  | some pending, l :: rest =>
    let s := pending ++ Text.strip l
    if s.endsWith ";" then do readLines (← net.statement (finish s)) none rest
    else readLines net (some s) rest

end Network

/-- The network a netlist text describes. -/
def Network.ofVerilog (text : String) : Except Fault Network :=
  Network.readLines {} none (Text.lines text)

/-- The netlist text of a network without gates. -/
def Network.toVerilog (net : Network) : Except Fault String :=
  if net.gates.isEmpty then
    .ok ("module top(\n" ++ ", ".intercalate (net.inputs ++ net.outputs) ++ "\n);\n" ++
      "  input " ++ ", ".intercalate net.inputs ++ ";\n" ++
      "  output " ++ ", ".intercalate net.outputs ++ ";\n" ++
      "  wire ;\nendmodule\n")
  else .error .noAssignment

end XagSynth
