import XagSynth.Circuit.Gate

/-!
# Gate constructors over caller values

A caller may build the record of one gate, or of the clean Toffoli gadget, from
values of its own, which the qubit fields hold as given; a call with the wrong
number of values is refused with the constructor's name and parameters.
-/

namespace XagSynth.Circuit

/-- The gate constructors open to callers. -/
inductive Helper where
  | x
  | h
  | s
  | cnot
  | t
  | tdg
  | toffoli
  | gadget

def Helper.params : Helper → List String
  | .cnot => ["ctrl", "target"]
  | .toffoli | .gadget => ["ctrl1", "ctrl2", "target"]
  | _ => ["target"]

def recordOf (g : Gate Datum) : Datum := .record (g.fields id)

/-- The value a constructor called `fn` builds from `args`. -/
def Helper.call (hp : Helper) (fn : String) (args : List Datum) : Except Fault Datum :=
  match hp, args with
  | .x, [q] => .ok (recordOf (.x q))
  | .h, [q] => .ok (recordOf (.h q))
  | .s, [q] => .ok (recordOf (.s q))
  | .t, [q] => .ok (recordOf (.t q))
  | .tdg, [q] => .ok (recordOf (.tdg q))
  | .cnot, [c, q] => .ok (recordOf (.cx c q))
  | .toffoli, [a, b, q] => .ok (recordOf (.ccx a b q))
  | .gadget, [a, b, q] => .ok (.list ((toffoliGadget a b q).map recordOf))
  | _, _ => .error (.arity fn hp.params args.length)

end XagSynth.Circuit
