import XagSynth.Datum.Times

/-!
# Affine tables

A config gives each of `n` variables a ternary digit (0 leaves it out, 1 takes
it, 2 takes its negation), and its table lists the XOR of those literals at
every input below `2 ^ n`. `configs n` lists the configs lexicographically and
`affineTables n` pairs every table with its config.
-/

namespace XagSynth.Phase

/-- A ternary digit per variable. -/
abbrev Config := List (Fin 3)

/-- All configs of `n` variables, in lexicographic order. -/
def configs : Nat → List Config
  | 0 => [[]]
  | n + 1 => [0, 1, 2].flatMap fun d => (configs n).map (d :: ·)

/-- The value of the literal a digit takes of a variable with value `b`. -/
def literal (d : Fin 3) (b : Bool) : Bool :=
  match d with
  | 0 => false
  | 1 => b
  | 2 => !b

/-- The value at `x` of the config's variables from position `i` on. -/
def valueFrom : Config → Nat → Nat → Bool
  | [], _, _ => false
  | d :: ds, i, x => literal d (x.testBit i) ^^ valueFrom ds (i + 1) x

/-- The value of a config's function at `x`. -/
def Config.value (c : Config) (x : Nat) : Bool := valueFrom c 0 x

/-- The table of a config, one entry per input. -/
def Config.table (c : Config) : List Nat :=
  (List.range (Nat.pow 2 c.length)).map fun x => if c.value x then 1 else 0

def Config.name (c : Config) : String := String.join (c.map fun d => toString d.val)

def natLexLe : List Nat → List Nat → Bool
  | [], _ => true
  | _ :: _, [] => false
  | x :: xs, y :: ys => x < y || (x == y && natLexLe xs ys)

/-- Every table with its config, ordered by table and then by config. -/
def affineTables (n : Nat) : List (List Nat × Config) :=
  ((configs n).map fun c => (c.table, c)).mergeSort fun a b =>
    natLexLe a.1 b.1 && (a.1 != b.1 || natLexLe (a.2.map Fin.val) (b.2.map Fin.val))

def tooManyEntries (n : Nat) : Bool :=
  decide (64 ≤ n) || decide (Datum.itemLimit < Nat.pow 6 n)

/-- The affine tables of `n` variables.  The count must be a machine size and
not negative.  A count of `2 ^ 60` or more is refused as too large to count
configs by, and a smaller one whose tables have too many entries because they
could not be held. -/
def affineTablesOf (n : Int) : Except Fault (List (List Nat × Config)) :=
  if !Datum.isMachineSize n then .error .sizeTooLarge
  else if n < 0 then .error .negativeRepeat
  else if (Nat.pow 2 60 : Int) ≤ n then .error .productTooLarge
  else if tooManyEntries n.toNat then .error .noMemory
  else .ok (affineTables n.toNat)

theorem length_configs (n : Nat) : (configs n).length = Nat.pow 3 n := by
  induction n with
  | zero => rfl
  | succ n ih =>
    show _ = Nat.pow 3 n * 3
    simp only [configs, List.flatMap_cons, List.flatMap_nil, List.length_append,
      List.length_map, ih, List.append_nil]
    omega

end XagSynth.Phase
