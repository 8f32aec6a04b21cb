import XagSynth.Circuit.Gate
import XagSynth.Text.Order

/-!
# Circuits

A circuit has a number of qubits and a list of gates on integer labels. Qubits
are allocated one at a time, each taking the next label, and gates are appended
at the end without checking their labels against the width.
-/

namespace XagSynth

/-- A circuit: its width and its gates, in order. -/
structure Circuit where
  width : Nat := 0
  gates : List (Circuit.Gate Int) := []

namespace Circuit

/-- A new qubit: its label and the widened circuit. -/
def fresh (c : Circuit) : Int × Circuit := (c.width, { c with width := c.width + 1 })

def append (c : Circuit) (gs : List (Gate Int)) : Circuit := { c with gates := c.gates ++ gs }

def tCount (c : Circuit) : Nat := c.gates.countP Gate.isT

def nameCounts (c : Circuit) : List (String × Nat) :=
  let names := c.gates.map Gate.name
  (Text.nameSet names).map fun n => (n, names.count n)

@[simp] theorem width_fresh (c : Circuit) : c.fresh.2.width = c.width + 1 := rfl

@[simp] theorem gates_fresh (c : Circuit) : c.fresh.2.gates = c.gates := rfl

@[simp] theorem width_append (c : Circuit) (gs : List (Gate Int)) :
    (c.append gs).width = c.width := rfl

@[simp] theorem gates_append (c : Circuit) (gs : List (Gate Int)) :
    (c.append gs).gates = c.gates ++ gs := rfl

end Circuit

end XagSynth
