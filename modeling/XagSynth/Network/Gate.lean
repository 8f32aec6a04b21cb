import XagSynth.Fault
import XagSynth.Text.Blank
import XagSynth.Text.Pieces

/-!
# Logic gates

A gate is a binary AND, OR or XOR of two names, each input and the output
possibly negated, or a buffer. `Assignment.ofText` reads `target = source`,
splitting at the first of `&`, `|`, `^` that occurs; an operand holding a `~`
is negated, and with `mapOr` an OR becomes a negated AND of negated operands.
-/

namespace XagSynth.Network

/-- The operator of a binary gate. -/
inductive BinOp where
  | and
  | or
  | xor
deriving DecidableEq

def BinOp.mark : BinOp → Char
  | .and => '&'
  | .or => '|'
  | .xor => '^'

/-- The value of an operator on two truth values. -/
def BinOp.eval : BinOp → Bool → Bool → Bool
  | .and, a, b => a && b
  | .or, a, b => a || b
  | .xor, a, b => a ^^ b

/-- A gate of a network, without the name of its output. -/
inductive Gate where
  | binary (op : BinOp) (lhs rhs : String) (negLhs negRhs negOut : Bool)
  | buffer (src : String)
deriving DecidableEq

namespace Gate

/-- The names a gate reads, in order. -/
def inputs : Gate → List String
  | .binary _ a b .. => [a, b]
  | .buffer a => [a]

def symbol : Gate → String
  | .binary op .. => op.mark.toString
  | .buffer _ => "="

def isAnd : Gate → Bool
  | .binary .and .. => true
  | _ => false

def isXor : Gate → Bool
  | .binary .xor .. => true
  | _ => false

/-- The value of a gate when each name it reads has the value `val` gives it. -/
def eval (val : String → Bool) : Gate → Bool
  | .binary op a b na nb no => no ^^ op.eval (val a ^^ na) (val b ^^ nb)
  | .buffer a => val a

@[simp] theorem inputs_binary (op : BinOp) (a b : String) (na nb no : Bool) :
    (Gate.binary op a b na nb no).inputs = [a, b] := rfl

@[simp] theorem inputs_buffer (a : String) : (Gate.buffer a).inputs = [a] := rfl

theorem inputs_ne_nil (g : Gate) : g.inputs ≠ [] := by
  cases g <;> simp

end Gate

/-- A gate together with the name of the signal it drives. -/
structure Assignment where
  target : String
  gate : Gate
deriving DecidableEq

def pairOf : List String → Except Fault (String × String)
  | [a, b] => .ok (a, b)
  | [] => .error (.unpackTooFew 0)
  | [_] => .error (.unpackTooFew 1)
  | _ => .error .unpackTooMany

/-- The first operator of `&`, `|`, `^`, in this order, that occurs in `s`. -/
def BinOp.find? (s : String) : Option BinOp :=
  [BinOp.and, .or, .xor].find? fun op => s.toList.contains op.mark

/-- An operand: whether it is negated, and its name. -/
def operand (s : String) : Bool × String :=
  (s.toList.contains '~', Text.erase "~" s)

/-- The gate a line `target = source` assigns. -/
def Assignment.ofText (text : String) (mapOr : Bool) : Except Fault Assignment := do
  let (target, source) ← pairOf (Text.splitOn '=' text)
  let target := Text.strip target
  let source := Text.strip source
  match BinOp.find? source with
  | none => .ok ⟨target, .buffer (Text.erase "~" source)⟩
  | some op =>
    let (l, r) ← pairOf (Text.splitOn op.mark source)
    let (na, a) := operand (Text.strip l)
    let (nb, b) := operand (Text.strip r)
    if mapOr && op == .or then .ok ⟨target, .binary .and a b (!na) (!nb) true⟩
    else .ok ⟨target, .binary op a b na nb false⟩

end XagSynth.Network
