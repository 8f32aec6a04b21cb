import XagSynth.Phase.Affine
import XagSynth.Text.Pieces
import XagSynth.Text.Order

/-!
# The phase-polynomial program

`synthesize tt verbose solver` builds the integer program that writes a truth
table as a phase polynomial over the affine functions of its variables: per
config a weight `x = 2 q + d` below 8, per position with a `0` or `1` a phase
constraint that the weights of the configs true there sum to `8 vq + 4 tt[j]`,
minimising the odd weights; it records what the solver is asked and answers.
-/

namespace XagSynth.Phase

/-- A group of variables of one kind. -/
structure VarGroup where
  name : String
  count : Nat
  vtype : String
  lb : Option Int
  ub : Option Int

/-- A linear expression: terms by variable name, in order, and a constant. -/
structure LinExpr where
  terms : List (String × Int)
  const : Int := 0

/-- An equation between two linear expressions. -/
structure Constraint where
  name : String
  lhs : LinExpr
  rhs : LinExpr

/-- What the program asks of the solver, in order. -/
inductive Call where
  | update
  | optimize
  | write (file : String)
  | getAttr (attr : String)

/-- The program as built: variables, constraints, objective (minimised), the
calls made, and the status the solver reported once asked. -/
structure Model where
  name : String := "Phase Polynomial Synthesis"
  groups : List VarGroup := []
  constraints : List Constraint := []
  objective : LinExpr := ⟨[], 0⟩
  calls : List Call := []
  status : Option Datum := none

/-- What the solver answers: its status and the weights it found, by config
name. -/
structure Solver where
  status : Datum := .text "optimal"
  values : List (String × Datum) := []

def optimal : String := "optimal"

/-- A finished synthesis: the program, the weights if the solver found an
optimum, and the messages it printed, in order. -/
structure Synthesis where
  model : Model
  solution : Option (List (String × Datum))
  printed : List String

/-- The outcome of a synthesis. -/
inductive Outcome where
  | refused (f : Fault)
  | broken (f : Fault) (m : Model)
  | done (s : Synthesis)

def tupleText (xs : List Nat) : String :=
  match xs with
  | [x] => "(" ++ toString x ++ ",)"
  | _ => "(" ++ ", ".intercalate (xs.map toString) ++ ")"

def varName (v : String) (c : Config) : String := v ++ "(" ++ c.name ++ ")"

/-- The parity constraint of a config. -/
def parity (c : Config) : Constraint :=
  ⟨"mod2_(" ++ c.name ++ ")", ⟨[(varName "x" c, 1)], 0⟩,
    ⟨[(varName "d" c, 1), (varName "q" c, 2)], 0⟩⟩

/-- The phase constraint of position `j` with value `bit`, given each config
with its table, if every table has an entry there. -/
def phase (ts : List (Config × List Nat)) (j bit : Nat) : Option Constraint :=
  if ts.all fun t => j < t.2.length then
    let terms := ts.filterMap fun t =>
      if t.2.getD j 0 == 0 then none else some (varName "x" t.1, (t.2.getD j 0 : Int))
    some ⟨"phase_" ++ toString j, ⟨terms, 0⟩, ⟨[("vq[" ++ toString j ++ "]", 8)], 4 * bit⟩⟩
  else none

/-- Add the phase constraints of the positions from `j` on. -/
def addPhases (ts : List (Config × List Nat)) (m : Model) :
    Nat → List Char → Except (Fault × Model) Model
  | _, [] => .ok m
  | j, ch :: rest =>
    if ch == '0' || ch == '1' then
      match phase ts j (if ch == '1' then 1 else 0) with
      | some k => addPhases ts { m with constraints := m.constraints ++ [k] } (j + 1) rest
      | none => .error (.tupleIndex, m)
    else addPhases ts m (j + 1) rest

/-- The phase-polynomial program of a truth table and what the solver says of it. -/
def synthesize (tt : String) (verbose : Bool) (solver : Solver) : Outcome :=
  let cells := (Text.erase "_" tt).toList
  if cells.isEmpty then .refused .infinity else
  let n := Nat.log2 cells.length
  let cs := configs n
  let k := cs.length
  let m0 : Model := {
    groups := [⟨"x", k, "I", some 0, some 7⟩, ⟨"q", k, "I", some 0, some 3⟩,
      ⟨"d", k, "B", none, none⟩, ⟨"vq", cells.length, "I", none, none⟩]
    constraints := cs.map parity
    objective := ⟨cs.map fun c => (varName "d" c, 1), 0⟩ }
  match addPhases (cs.map fun c => (c, c.table)) m0 0 cells with
  | .error (f, m) => .broken f m
  | .ok m =>
    let solved := solver.status.isText optimal
    let model := { m with
      calls := [.update, .optimize, .write "model.lp"] ++ (if solved then [.getAttr "x"] else [])
      status := some solver.status }
    let table := if verbose then
      "Coefficient Matrix:" :: cs.map fun c =>
        "tt: " ++ tupleText c.table ++ ", config: " ++ tupleText (c.map Fin.val)
      else []
    let weights := cs.map fun c => (c.name, (solver.values.lookup c.name).getD (.int 0))
    let report := if solved then
      "Optimal solution:" :: weights.zipIdx.map fun (w, i) =>
        "x[" ++ toString i ++ "] = " ++ w.2.display
      else ["No optimal solution found."]
    .done ⟨model, if solved then some weights else none, table ++ report⟩

end XagSynth.Phase
