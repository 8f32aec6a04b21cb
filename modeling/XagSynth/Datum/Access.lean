import XagSynth.Fault

/-!
# Reading into field values

Every way of reading into a value is defined for all kinds and refuses the
kinds that lack it: `Datum.size` and `Datum.item` read a sequence,
`Datum.field` a record field, `Datum.members` what a loop visits, and
`Datum.nameKey` a key of a table of names.
-/

namespace XagSynth.Datum

def size : Datum → Except Fault Nat
  | .text s => .ok s.length
  | .list xs => .ok xs.length
  | .record fs => .ok fs.length
  | d => .error (.noLength d.typeName)

/-- The item at position `i` of a text or list; a record has no integer keys,
and a value of any other kind has no items. -/
def item (d : Datum) (i : Nat) : Except Fault Datum :=
  match d with
  | .text s =>
    match s.toList[i]? with
    | some c => .ok (.text (String.singleton c))
    | Option.none => .error .textIndex
  | .list xs =>
    match xs[i]? with
    | some x => .ok x
    | Option.none => .error .listIndex
  | .record _ => .error (.missingKey (.int i))
  | d => .error (.notSubscriptable d.typeName)

/-- The field `k` of a record; texts and lists are read by position only, and
other values have no parts. -/
def field (d : Datum) (k : String) : Except Fault Datum :=
  match d with
  | .record fs =>
    match fs.lookup k with
    | some v => .ok v
    | Option.none => .error (Fault.missingName k)
  | .list _ => .error (.listKey "str")
  | .text _ => .error (.textKey "str")
  | d => .error (.notSubscriptable d.typeName)

/-- What a loop over a value visits: the characters of a text, the items of a
list, or the field names of a record. -/
def members : Datum → Except Fault (List Datum)
  | .text s => .ok (s.toList.map fun c => .text (String.singleton c))
  | .list xs => .ok xs
  | .record fs => .ok (fs.map fun f => .text f.1)
  | d => .error (.notIterable d.typeName)

/-- The name a value stands for as a key of a table of names: a text is a
name, any other value that can be a key names nothing, and a list or a record
cannot be a key at all. -/
def nameKey : Datum → Except Fault (Option String)
  | .text s => .ok (some s)
  | .list _ => .error (.unhashable "list")
  | .record _ => .error (.unhashable "dict")
  | _ => .ok Option.none

end XagSynth.Datum
