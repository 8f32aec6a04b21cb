import XagSynth.Fault

/-!
# Quantum gates

Gates over qubits labelled by any type, from the set X, Hadamard, S, T,
T-dagger, CNOT and Toffoli, and the gadgets circuits are built from: a CNOT or
Toffoli with controls negated by X gates (`cnotGates`, `toffoliGates`), the
thirteen-gate clean Toffoli (`toffoliGadget`), and the multi-controlled X on at
most two controls (`mcxGates`).
-/

namespace XagSynth.Circuit

/-- A gate on qubits labelled by `α`. -/
inductive Gate (α : Type) where
  | x (q : α)
  | h (q : α)
  | s (q : α)
  | t (q : α)
  | tdg (q : α)
  | cx (c q : α)
  | ccx (c1 c2 q : α)
deriving DecidableEq

namespace Gate

variable {α β : Type}

def map (f : α → β) : Gate α → Gate β
  | .x q => .x (f q)
  | .h q => .h (f q)
  | .s q => .s (f q)
  | .t q => .t (f q)
  | .tdg q => .tdg (f q)
  | .cx c q => .cx (f c) (f q)
  | .ccx c1 c2 q => .ccx (f c1) (f c2) (f q)

def name : Gate α → String
  | .x _ => "X"
  | .h _ => "HAD"
  | .s _ => "S"
  | .t _ => "T"
  | .tdg _ => "Tdg"
  | .cx .. => "CNOT"
  | .ccx .. => "Tof"

/-- The qubit a gate acts on, or flips. -/
def target : Gate α → α
  | .x q | .h q | .s q | .t q | .tdg q | .cx _ q | .ccx _ _ q => q

def controls : Gate α → List α
  | .cx c _ => [c]
  | .ccx c1 c2 _ => [c1, c2]
  | _ => []

def isT : Gate α → Bool
  | .t _ | .tdg _ => true
  | _ => false

/-- The fields of a gate record: the name first, then the qubits. -/
def fields (f : α → Datum) : Gate α → List (String × Datum)
  | .cx c q => [("name", .text "CNOT"), ("ctrl", f c), ("target", f q)]
  | .ccx c1 c2 q => [("name", .text "Tof"), ("ctrl1", f c1), ("ctrl2", f c2), ("target", f q)]
  | g => [("name", .text g.name), ("target", f g.target)]

@[simp] theorem target_map (f : α → β) (g : Gate α) : (g.map f).target = f g.target := by
  cases g <;> rfl

@[simp] theorem controls_map (f : α → β) (g : Gate α) :
    (g.map f).controls = g.controls.map f := by
  cases g <;> rfl

@[simp] theorem isT_map (f : α → β) (g : Gate α) : (g.map f).isT = g.isT := by
  cases g <;> rfl

end Gate

variable {α : Type}

/-- The Toffoli with a clean target as thirteen Clifford+T gates. -/
def toffoliGadget (c1 c2 q : α) : List (Gate α) :=
  [.h q, .t q, .cx c1 q, .cx c2 q, .cx q c2, .cx q c1, .tdg c1, .tdg c2, .t q,
    .cx q c1, .cx q c2, .h q, .s c1]

def flipIf (p : Bool) (c : α) : List (Gate α) := if p then [.x c] else []

/-- A CNOT whose control is negated when `p`. -/
def cnotGates (c q : α) (p : Bool) : List (Gate α) := flipIf p c ++ [.cx c q] ++ flipIf p c

/-- A Toffoli whose controls are negated when `p1` and `p2`; with `clean` it
is the thirteen-gate gadget. -/
def toffoliGates (c1 c2 q : α) (p1 p2 clean : Bool) : List (Gate α) :=
  flipIf p1 c1 ++ flipIf p2 c2 ++ (if clean then toffoliGadget c1 c2 q else [.ccx c1 c2 q]) ++
    flipIf p1 c1 ++ flipIf p2 c2

/-- The multi-controlled X on at most two controls, `ps` giving the negation
of each control.  No control gives no gate. -/
def mcxGates (cs : List α) (q : α) (ps : List Bool) (clean : Bool) : Except Fault (List (Gate α)) :=
  if 2 < cs.length then .error (.controls cs.length) else
  match cs, ps with
  | [c], p :: _ => .ok (cnotGates c q p)
  | [c1, c2], p1 :: p2 :: _ => .ok (toffoliGates c1 c2 q p1 p2 clean)
  | [], _ => .ok []
  | _, _ => .error .listIndex

theorem length_toffoliGadget (c1 c2 q : α) : (toffoliGadget c1 c2 q).length = 13 := rfl

theorem countP_isT_toffoliGadget (c1 c2 q : α) :
    (toffoliGadget c1 c2 q).countP Gate.isT = 4 := rfl

end XagSynth.Circuit
