import XagSynth.Cli.Options
import XagSynth.Network.Verilog
import XagSynth.Synthesis.Blocks
import XagSynth.Text.Ascii

/-!
# Runs of the extractor

A run compiles each selected netlist from its XOR blocks and writes the circuit
and a result record (name, AND count, T count, qubit count) under the file name
with `.v` turned into `.json`, announcing each mapped name; a netlist that
cannot be read or compiled stops the run with its fault.
-/

namespace XagSynth.Cli

def occursIn (pat s : String) : Bool :=
  (List.range (s.length + 1)).any fun i => (s.toList.drop i).take pat.length == pat.toList

/-- Whether a run with this benchmark reads an input file. -/
def selects (benchmark : Option String) (file : String) : Bool :=
  file.endsWith ".v" &&
    match benchmark with
    | none => true
    | some b => b.isEmpty || occursIn b file

def resultText (name : String) (ands tGates qubits : Nat) : String :=
  "\x7b\n    \"name\": " ++ Text.quoteAscii name ++
    ",\n    \"n_ands\": " ++ toString ands ++
    ",\n    \"n_t\": " ++ toString tGates ++
    ",\n    \"n_qubits\": " ++ toString qubits ++ "\n\x7d"

def announcement (name : String) (leaves : List String) : String :=
  "Mapping " ++ name ++ " with fanins " ++ (Datum.list (leaves.map .text)).literal

def fieldText : Datum → String
  | .text s => Text.quoteAscii s
  | d => d.literal

/-- The gates of a circuit as an indented list of records. -/
def circuitText (c : Circuit) : String :=
  let record (g : Circuit.Gate Int) : String :=
    "    \x7b\n" ++ ",\n".intercalate ((g.fields Datum.int).map fun (k, v) =>
      "        " ++ Text.quoteAscii k ++ ": " ++ fieldText v) ++ "\n    \x7d"
  match c.gates with
  | [] => "[]"
  | gs => "[\n" ++ ",\n".intercalate (gs.map record) ++ "\n]"

/-- One netlist extracted: its result text, its circuit and the lines
announcing the names mapped. -/
structure Extraction where
  result : String
  circuit : Circuit
  lines : List String

/-- Extract the netlist of one input file. -/
def extract (file text : String) : Except Fault Extraction := do
  let net ← Network.ofVerilog text
  let st ← net.compileBlocks
  let cuts ← net.cuts (.count 2)
  let lines := st.mapped.map fun n => announcement n ((cuts.lookup n).map Cut.leaves |>.getD [])
  return ⟨resultText (Text.erase ".v" file) net.andCount st.circuit.tCount st.circuit.width,
    st.circuit, lines⟩

def outputName (file : String) : String := Text.replace ".v" ".json" file

/-- What a run leaves: its exit code when it stopped early, what it printed
besides the mapping lines, its error text, the mapping lines, and the result
and circuit files it wrote, by file name. -/
structure Report where
  exit : Option Nat := none
  printed : String := ""
  complaint : String := ""
  announced : List String := []
  results : List (String × String) := []
  circuits : List (String × Circuit) := []

/-- Extract the netlists in order into a report. -/
def extractAll (r : Report) : List (String × String) → Except Fault Report
  | [] => .ok r
  | (file, text) :: rest => do
    let x ← extract file text
    let out := outputName file
    let r := { r with
      announced := r.announced ++ x.lines
      results := Table.put r.results out x.result
      circuits := Table.put r.circuits out x.circuit }
    extractAll r rest

/-- A run with these arguments over these input files.  The files are laid
down before the command line is read, and a file name holding a null character
cannot be laid down. -/
def run (args : List String) (files : List (String × String)) : Except Fault Report :=
  if files.any (fun f => f.1.contains '\x00') then .error .embeddedNull else
  match request args with
  | .help => .ok { exit := some 0, printed := helpText }
  | .refuse msg => .ok { exit := some 2, complaint := refusal msg }
  | .run b => extractAll {} (files.filter fun e => selects b e.1)

end XagSynth.Cli
