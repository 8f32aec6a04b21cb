import XagSynth.Decimal.Shortest
import XagSynth.Text.Quoted

/-!
# Field values

A gate record maps field names to `Datum` values: null, truth values,
integers, binary64 numbers, texts, lists and records. `Datum.display` and
`Datum.literal` write a value, the two differing only on texts, which the
literal form quotes.
-/

namespace XagSynth

/-- A value of a record field. -/
inductive Datum where
  | none
  | bool (b : Bool)
  | int (i : Int)
  | real (x : Float)
  | text (s : String)
  | list (xs : List Datum)
  | record (fields : List (String × Datum))
deriving Inhabited

namespace Datum

mutual

/-- The literal form of a value. -/
def literal : Datum → String
  | .none => "None"
  | .bool b => if b then "True" else "False"
  | .int i => toString i
  | .real x => Decimal.render x
  | .text s => Text.quote s
  | .list xs => "[" ++ ", ".intercalate (literalItems xs) ++ "]"
  | .record fs => "\x7b" ++ ", ".intercalate (literalFields fs) ++ "\x7d"

def literalItems : List Datum → List String
  | [] => []
  | x :: xs => literal x :: literalItems xs

def literalFields : List (String × Datum) → List String
  | [] => []
  | (k, v) :: fs => (Text.quote k ++ ": " ++ literal v) :: literalFields fs

end

/-- The display text of a value: a text is shown as itself, every other value
in its literal form. -/
def display : Datum → String
  | .text s => s
  | d => d.literal

/-- The name of the kind of a value, as error messages give it. -/
def typeName : Datum → String
  | .none => "NoneType"
  | .bool _ => "bool"
  | .int _ => "int"
  | .real _ => "float"
  | .text _ => "str"
  | .list _ => "list"
  | .record _ => "dict"

def isText (s : String) : Datum → Bool
  | .text t => t == s
  | _ => false

/-- Whether a value can serve as a key: lists and records cannot. -/
def isKey : Datum → Bool
  | .list _ | .record _ => false
  | _ => true

/-- Whether a value counts as true: the null value, false, zero and empty
texts, lists and records count as false, every other value as true. -/
def truthy : Datum → Bool
  | .none => false
  | .bool b => b
  | .int i => i != 0
  | .real x => !(x == 0)
  | .text s => !s.isEmpty
  | .list xs => !xs.isEmpty
  | .record fs => !fs.isEmpty

/-- The integer a key stands for, if it stands for one: a truth value stands
for 0 or 1, and a number with no fraction for its integer value. -/
def asInt? : Datum → Option Int
  | .int i => some i
  | .bool b => some (if b then 1 else 0)
  | .real x =>
    if x.floor == x && x.abs < 9007199254740992.0 then
      some (if x < 0 then -((-x).toUInt64.toNat : Int) else (x.toUInt64.toNat : Int))
    else Option.none
  | _ => Option.none

end Datum

end XagSynth
