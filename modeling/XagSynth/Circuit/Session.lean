import XagSynth.Circuit.Qasm
import XagSynth.Datum.Access

/-!
# Driving a circuit step by step

A session holds a circuit as a caller builds it, qubits unchecked. Each command
either answers and changes the session, or fails and leaves it as it was, since
every command checks its arguments before it appends; `Session.replay` runs
commands in turn and reports after each the answer, the width and the records
appended.
-/

namespace XagSynth.Circuit

/-- A circuit being built by a caller. -/
structure Session where
  width : Nat := 0
  entries : List Datum := []

/-- What a caller can ask of a session. -/
inductive Command where
  | fresh
  | toffoli (c1 c2 q : Datum) (p1 p2 clean : Bool)
  | mcx (cs q ps : Datum) (clean : Bool)
  | cnot (c q : Datum) (p : Bool)
  | flip (q : Datum)
  | raw (e : Datum)
  | qasm
  | tCount
  | snapshot

/-- The answer to a command. -/
inductive Reply where
  | done
  | qubit (q : Int)
  | text (s : String)
  | count (n : Nat)
  | entries (es : List Datum)

/-- The session with the records of gates appended, their qubits as the
caller gave them. -/
def Session.add (s : Session) (gs : List (Gate Datum)) : Session :=
  { s with entries := s.entries ++ gs.map fun g => .record (g.fields id) }

/-- The answer to a command and the session after it. -/
def Session.run (s : Session) : Command → Except Fault (Reply × Session)
  | .fresh => .ok (.qubit s.width, { s with width := s.width + 1 })
  | .toffoli c1 c2 q p1 p2 clean => .ok (.done, s.add (toffoliGates c1 c2 q p1 p2 clean))
  | .mcx cs q ps clean => do
    let n ← cs.size
    if 2 < n then throw (.controls n)
    let controls ← (List.range n).mapM cs.item
    let signs ← (List.range n).mapM fun i => do return (← ps.item i).truthy
    let gs ← mcxGates controls q signs clean
    return (.done, s.add gs)
  | .cnot c q p => .ok (.done, s.add (cnotGates c q p))
  | .flip q => .ok (.done, s.add [.x q])
  | .raw e => .ok (.done, { s with entries := s.entries ++ [e] })
  | .qasm => do return (.text (← qasmOf s.width s.entries), s)
  | .tCount => do return (.count (← tCountOf s.entries), s)
  | .snapshot => .ok (.entries s.entries, s)

/-- The outcome of one command: its answer, the width after it, and the
entries it appended. -/
structure Report where
  result : Except Fault Reply
  width : Nat
  added : List Datum

def Session.replay (s : Session) : List (Except Fault Command) → List Report
  | [] => []
  | cmd :: rest =>
    match cmd >>= s.run with
    | .ok (r, s') => ⟨.ok r, s'.width, s'.entries.drop s.entries.length⟩ :: s'.replay rest
    | .error f => ⟨.error f, s.width, []⟩ :: s.replay rest

end XagSynth.Circuit
