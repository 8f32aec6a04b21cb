import XagSynth.Cut.Enumerate
import XagSynth.Synthesis.Direct

/-!
# Block synthesis

`Network.compileBlocks` gives every primary input a qubit, then maps each
output: the leaves of its block first, then a fresh qubit for the name and one
X gate per product, controlled by the product's names. Mapping refuses a name
without a block view, an AND gate, and a name met again on its own path; the
path bounds the fuel.
-/

namespace XagSynth

/-- The state of block mapping: the circuit so far, the qubits of names, and
the names mapped, in order. -/
structure BlockMap where
  circuit : Circuit
  qubits : QubitMap
  mapped : List String

namespace BlockMap

/-- Map `node`, with `path` the names being mapped around it. -/
def visit (cuts : List (String × Cut)) : Nat → List String → String → BlockMap →
    Except Fault BlockMap
  | 0, _, _, _ => .error .recursion
  | fuel + 1, path, node, st =>
    if (st.qubits.lookup node).isSome then .ok st else
    match cuts.lookup node with
    | none => .error (Fault.missingName node)
    | some (.source _) => .error (.noMethod "list" "leaves")
    | some (.conj ..) => .error .andBlock
    | some c@(.block _ _ products) =>
      if path.contains node then .error .recursion else do
      let st ← c.leaves.foldlM (fun st l => visit cuts fuel (node :: path) l st) st
      let (q, circ) := st.circuit.fresh
      let qubits : QubitMap := (node, q) :: st.qubits
      let gs ← products.mapM fun p => do
        let cs ← p.mapM qubits.find
        Circuit.mcxGates cs q (p.map fun _ => false) false
      return ⟨circ.append gs.flatten, qubits, st.mapped ++ [node]⟩

end BlockMap

/-- The circuit of a network built from its XOR blocks, with the qubits of the
mapped names and the names mapped. -/
def Network.compileBlocks (net : Network) : Except Fault BlockMap := do
  let cuts ← net.cuts (.count 2)
  let (c, m) := net.inputQubits
  net.outputs.foldlM (fun st o => BlockMap.visit cuts (cuts.length + 1) [] o st) ⟨c, m, []⟩

/-- Block extraction with options given by name.  An option named `network`
clashes with the network itself, and one named `max_inputs` with the product
bound, which block extraction fixes at two; any other option is passed on and
unused. -/
def Network.compileBlocksWith (net : Network) (names : List String) : Except Fault BlockMap := do
  if names.contains "network" then throw .networkTwice
  if names.contains "max_inputs" then throw .duplicateKeyword
  net.compileBlocks

def BlockMap.nameOf (net : Network) (st : BlockMap) (q : Int) : String :=
  match st.mapped.find? fun n => st.qubits.lookup n == some q with
  | some n => n
  | none => if 0 ≤ q then net.inputs.getD q.toNat "" else ""

def BlockMap.summary (net : Network) (st : BlockMap) :
    List (String × List (String × List String)) :=
  (Text.sortNames st.mapped).map fun n =>
    let q := (st.qubits.lookup n).getD 0
    let gs := (st.circuit.gates.filter fun g => g.target == q).map fun g =>
      (g.name, Text.sortNames (g.controls.map (st.nameOf net)))
    (n, gs.mergeSort fun a b => Text.lexLe (a.1 :: a.2) (b.1 :: b.2))

end XagSynth
