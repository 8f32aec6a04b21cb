import XagSynth.Network.Gate
import XagSynth.Text.Order
import XagSynth.Table

/-!
# Logic networks

A network lists its primary inputs and outputs and keeps a table from names to
the gates that drive them, in the order names were first assigned; assigning a
name again replaces its gate in place (`Network.assign`). The fanout entry of a
name (`fanoutEntry`) is found by one pass over the final table, and lists each
gate reading the name once (`mem_readers`).
-/

namespace XagSynth

/-- A logic network. -/
structure Network where
  inputs : List String := []
  outputs : List String := []
  gates : List (String × Network.Gate) := []

namespace Network

/-- The gate that drives a name. -/
def gate? (net : Network) (name : String) : Option Gate :=
  (net.gates.find? fun e => e.1 == name).map Prod.snd

def isInput (net : Network) (name : String) : Bool := net.inputs.contains name

/-- The network with `a.target` driven by `a.gate`: a name already in the
table keeps its place, a new one goes last. -/
def assign (net : Network) (a : Assignment) : Network :=
  { net with gates := Table.put net.gates a.target a.gate }

def andCount (net : Network) : Nat := net.gates.countP fun e => e.2.isAnd

/-- One step of the fanout pass for the entry of `name`: the gate `node`
reading `a` joins its readers when `a` is `name`. -/
def joinReader (name node a : String) (entry : Option (List String)) : Option (List String) :=
  if a == name then some (Text.insertName node (entry.getD [])) else entry

/-- The entry of `name` in the fanout table: the gates that read it, once some
gate does. -/
def fanoutEntry (net : Network) (name : String) : Option (List String) :=
  net.gates.foldl (fun entry e => e.2.inputs.foldl (fun entry a => joinReader name e.1 a entry) entry)
    none

/-- The names of the gates that read `name`, in order. -/
def readers (net : Network) (name : String) : List String := (net.fanoutEntry name).getD []

/-- The number of readers of a name; a name without an entry in the fanout table
has no count. -/
def fanoutCount (net : Network) (name : String) : Except Fault Nat :=
  match net.fanoutEntry name with
  | none => .error .noFanouts
  | some rs => .ok rs.length

def fanoutTable (net : Network) : List (String × List String) :=
  (Text.nameSet (net.gates.flatMap fun e => e.2.inputs)).map fun n => (n, net.readers n)

def gateOf (net : Network) (name : String) : Except Fault Gate :=
  match net.gate? name with
  | some g => .ok g
  | none => .error .noGate

/-- Whether the gate of a name is an AND gate, an XOR gate, and reads nothing. -/
def gateKinds (net : Network) (name : String) : Except Fault (Bool × Bool × Bool) := do
  let g ← net.gateOf name
  return (g.isAnd, g.isXor, g.inputs.isEmpty)

/-- The reading pairs of a gate table, in the order of the fanout pass: each
gate with each name it reads. -/
def readPairs (gates : List (String × Gate)) : List (String × String) :=
  gates.flatMap fun e => e.2.inputs.map fun a => (e.1, a)

theorem mem_readPairs {gates : List (String × Gate)} {m x : String} :
    (m, x) ∈ readPairs gates ↔ ∃ g, (m, g) ∈ gates ∧ x ∈ g.inputs := by
  simp only [readPairs, List.mem_flatMap, List.mem_map, Prod.mk.injEq]
  constructor
  · rintro ⟨⟨m', g⟩, hmem, a, ha, rfl, rfl⟩
    exact ⟨g, hmem, ha⟩
  · rintro ⟨g, hmem, hx⟩
    exact ⟨(m, g), hmem, x, hx, rfl, rfl⟩

theorem fanoutEntry_eq_foldl (net : Network) (name : String) :
    net.fanoutEntry name = (readPairs net.gates).foldl (fun entry p => joinReader name p.1 p.2 entry) none := by
  simp [fanoutEntry, readPairs, List.foldl_flatMap, List.foldl_map]

/-- An entry of the fanout pass for `name` that has seen the reading pairs `E`:
it exists once some pair reads `name`, and holds the gates of those pairs. -/
structure EntryOf (name : String) (E : List (String × String)) (entry : Option (List String)) :
    Prop where
  isSome_iff : entry.isSome ↔ ∃ m, (m, name) ∈ E
  mem_iff : ∀ m, m ∈ entry.getD [] ↔ (m, name) ∈ E

theorem EntryOf.joinReader {name : String} {E : List (String × String)} {entry : Option (List String)}
    (h : EntryOf name E entry) (node a : String) :
    EntryOf name (E ++ [(node, a)]) (Network.joinReader name node a entry) where
  isSome_iff := by
    by_cases ha : a = name
    · subst ha
      simp [Network.joinReader]
    · simp [Network.joinReader, beq_false_of_ne ha, h.isSome_iff, Ne.symm ha]
  mem_iff m := by
    by_cases ha : a = name
    · subst ha
      simp [Network.joinReader, Text.mem_insertName, h.mem_iff, or_comm]
    · simp [Network.joinReader, beq_false_of_ne ha, h.mem_iff, Ne.symm ha]

theorem EntryOf.foldl {name : String} (ps : List (String × String)) :
    ∀ {E : List (String × String)} {entry : Option (List String)}, EntryOf name E entry →
      EntryOf name (E ++ ps) (ps.foldl (fun entry p => Network.joinReader name p.1 p.2 entry) entry) := by
  induction ps with
  | nil =>
    intro E entry h
    simpa using h
  | cons p ps ih =>
    intro E entry h
    simpa using ih (h.joinReader p.1 p.2)

theorem entryOf_fanoutEntry (net : Network) (name : String) :
    EntryOf name (readPairs net.gates) (net.fanoutEntry name) := by
  rw [fanoutEntry_eq_foldl]
  simpa using EntryOf.foldl (readPairs net.gates) (⟨by simp, by simp⟩ : EntryOf name [] none)

theorem isSome_fanoutEntry {net : Network} {name : String} :
    (net.fanoutEntry name).isSome ↔ ∃ m g, (m, g) ∈ net.gates ∧ name ∈ g.inputs := by
  simp only [(entryOf_fanoutEntry net name).isSome_iff, mem_readPairs]

theorem mem_readers {net : Network} {name m : String} :
    m ∈ net.readers name ↔ ∃ g, (m, g) ∈ net.gates ∧ name ∈ g.inputs := by
  rw [readers, (entryOf_fanoutEntry net name).mem_iff, mem_readPairs]

theorem ne_nil_of_fanoutEntry {net : Network} {name : String} {rs : List String}
    (h : net.fanoutEntry name = some rs) : rs ≠ [] := by
  obtain ⟨m, g, hmem⟩ := isSome_fanoutEntry.mp (Option.isSome_iff_exists.mpr ⟨rs, h⟩)
  have hm : m ∈ net.readers name := mem_readers.mpr ⟨g, hmem⟩
  rw [readers, h, Option.getD_some] at hm
  exact List.ne_nil_of_mem hm

theorem fanoutCount_eq (net : Network) (name : String) :
    net.fanoutCount name = match net.readers name with
      | [] => .error .noFanouts
      | rs => .ok rs.length := by
  unfold fanoutCount readers
  cases h : net.fanoutEntry name with
  | none => rfl
  | some rs =>
    obtain ⟨r, rs, rfl⟩ := List.exists_cons_of_ne_nil (ne_nil_of_fanoutEntry h)
    rfl

end Network

end XagSynth
