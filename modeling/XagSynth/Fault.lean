import XagSynth.Datum

/-!
# Faults

Every way an operation of the library can fail, as a cause. `Fault.label` names
the class of a fault and `Fault.message` words it, both exactly as callers see
them.
-/

namespace XagSynth

/-- A cause of failure. -/
inductive Fault where
  | unpackTooFew (got : Nat)
  | unpackTooMany
  | listIndex
  | tupleIndex
  | noGate
  | noMethod (typeName method : String)
  | noFanouts
  | andBlock
  | unhashable (typeName : String)
  | missingKey (key : Datum)
  | controls (count : Nat)
  | unsupportedGate (name : Datum)
  | noAssignment
  | recursion
  | duplicateKeyword
  | networkTwice
  | infinity
  | negativeRepeat
  | notIndex (typeName : String)
  | arity (fn : String) (params : List String) (given : Nat)
  | intTooLarge
  | sizeTooLarge
  | repeatTooLarge
  | textTooLong
  | noMemory
  | productTooLarge
  | notSerializable (typeName : String)
  | operands (left right : String)
  | repeatBy (typeName : String)
  | noFunction (name : String)
  | attributeName (typeName : String)
  | notCallable (typeName : String)
  | noLength (typeName : String)
  | textIndex
  | notSubscriptable (typeName : String)
  | unordered (left right : String)
  | listKey (keyType : String)
  | textKey (keyType : String)
  | notIterable (typeName : String)
  | starArgs (fn typeName : String)
  | notMapping (fn typeName : String)
  | noArguments (fn : String) (given : Nat)
  | oneArgument (fn : String) (given : Nat)
  | slotArity (expected given : Nat)
  | pairArity (given : Nat)
  | atMost (fn : String) (most given : Nat)
  | missingArgument (fn name : String) (pos : Nat)
  | notText (fn : String) (name : Option String) (given : String)
  | cannotPickle (typeName : String)
  | cIntOverflow
  | formatSpec (typeName : String)
  | newNoArguments (typeName : String)
  | newNotType (typeName given : String)
  | noObjectAttribute (typeName name : String)
  | readonly
  | unsetAttribute (name : String)
  | classDelete
  | classAssign (typeName : String)
  | embeddedNull

namespace Fault

/-- The class of a fault. -/
def label : Fault → String
  | .unpackTooFew _ | .unpackTooMany | .negativeRepeat | .embeddedNull => "ValueError"
  | .listIndex | .tupleIndex | .textIndex => "IndexError"
  | .noGate | .noMethod .. | .noFunction _ => "AttributeError"
  | .noFanouts | .andBlock | .unhashable _ | .duplicateKeyword | .networkTwice | .notIndex _
  | .arity ..
  | .operands .. | .repeatBy _ | .attributeName _ | .notCallable _ | .noLength _
  | .notSerializable _ | .notSubscriptable _ | .unordered .. | .listKey _ | .textKey _
  | .notIterable _ | .starArgs .. | .notMapping .. | .noArguments .. | .oneArgument ..
  | .slotArity .. | .pairArity _ | .atMost .. | .missingArgument .. | .notText .. | .cannotPickle _
  | .formatSpec _ | .newNoArguments _ | .newNotType .. | .classDelete | .classAssign _ => "TypeError"
  | .noObjectAttribute .. | .readonly | .unsetAttribute _ => "AttributeError"
  | .missingKey _ => "KeyError"
  | .controls _ => "AssertionError"
  | .unsupportedGate _ | .noAssignment => "NotImplementedError"
  | .recursion => "RecursionError"
  | .infinity | .intTooLarge | .sizeTooLarge | .repeatTooLarge | .textTooLong
  | .productTooLarge | .cIntOverflow => "OverflowError"
  | .noMemory => "MemoryError"

def counted (n : Nat) (noun : String) : String :=
  toString n ++ " " ++ noun ++ (if n == 1 then "" else "s")

/-- Names quoted and joined as a sentence lists them: `'a'`, `'a' and 'b'`,
`'a', 'b', and 'c'`. -/
def nameList (names : List String) : String :=
  let qs := names.map fun n => "'" ++ n ++ "'"
  match qs with
  | [] => ""
  | [a] => a
  | [a, b] => a ++ " and " ++ b
  | _ => ", ".intercalate qs.dropLast ++ ", and " ++ qs.getLast?.getD ""

def arityText (fn : String) (params : List String) (given : Nat) : String :=
  if given < params.length then
    let missing := params.drop given
    fn ++ "() missing " ++ counted missing.length "required positional argument" ++ ": " ++
      nameList missing
  else
    fn ++ "() takes " ++ counted params.length "positional argument" ++ " but " ++
      toString given ++ (if given == 1 then " was" else " were") ++ " given"

/-- The wording of a fault. -/
def message : Fault → String
  | .unpackTooFew got => "not enough values to unpack (expected 2, got " ++ toString got ++ ")"
  | .unpackTooMany => "too many values to unpack (expected 2)"
  | .listIndex => "list index out of range"
  | .tupleIndex => "tuple index out of range"
  | .noGate => "'NoneType' object has no attribute 'is_and'"
  | .noMethod t m => "'" ++ t ++ "' object has no attribute '" ++ m ++ "'"
  | .noFanouts => "object of type 'int' has no len()"
  | .andBlock => "unhashable type: 'set'"
  | .unhashable t => "unhashable type: '" ++ t ++ "'"
  | .missingKey k => k.literal
  | .controls n => "MCX only supports 1 or 2 control qubits, got " ++ toString n
  | .unsupportedGate name => "Unsupported gate: " ++ name.display
  | .noAssignment => "to_assignment is not implemented"
  | .recursion => "maximum recursion depth exceeded"
  | .networkTwice => "xor_block_extraction() got multiple values for argument 'network'"
  | .duplicateKeyword =>
    "circuitExtract.cut_enumeration() got multiple values for keyword argument 'max_inputs'"
  | .infinity => "cannot convert float infinity to integer"
  | .negativeRepeat => "repeat argument cannot be negative"
  | .notIndex t => "'" ++ t ++ "' object cannot be interpreted as an integer"
  | .arity fn params given => arityText fn params given
  | .intTooLarge => "int too large to convert to float"
  | .sizeTooLarge => "Python int too large to convert to C ssize_t"
  | .repeatTooLarge => "cannot fit 'int' into an index-sized integer"
  | .textTooLong => "repeated string is too long"
  | .noMemory => ""
  | .productTooLarge => "repeat argument too large"
  | .notSerializable t => "Object of type " ++ t ++ " is not JSON serializable"
  | .operands l r => "unsupported operand type(s) for *: '" ++ l ++ "' and '" ++ r ++ "'"
  | .repeatBy t => "can't multiply sequence by non-int of type '" ++ t ++ "'"
  | .noFunction n => "module 'quantumCircuit' has no attribute '" ++ n ++ "'"
  | .attributeName t => "attribute name must be string, not '" ++ t ++ "'"
  | .notCallable t => "'" ++ t ++ "' object is not callable"
  | .noLength t => "object of type '" ++ t ++ "' has no len()"
  | .textIndex => "string index out of range"
  | .notSubscriptable t => "'" ++ t ++ "' object is not subscriptable"
  | .unordered l r => "'<' not supported between instances of '" ++ l ++ "' and '" ++ r ++ "'"
  | .listKey t => "list indices must be integers or slices, not " ++ t
  | .textKey t => "string indices must be integers, not '" ++ t ++ "'"
  | .notIterable t => "'" ++ t ++ "' object is not iterable"
  | .starArgs fn t => fn ++ " argument after * must be an iterable, not " ++ t
  | .notMapping fn t => fn ++ " argument after ** must be a mapping, not " ++ t
  | .noArguments fn n => fn ++ "() takes no arguments (" ++ toString n ++ " given)"
  | .oneArgument fn n => fn ++ "() takes exactly one argument (" ++ toString n ++ " given)"
  | .slotArity k n => "expected " ++ counted k "argument" ++ ", got " ++ toString n
  | .pairArity n => " expected 2 arguments, got " ++ toString n
  | .atMost fn k n =>
    fn ++ "() takes at most " ++ counted k "argument" ++ " (" ++ toString n ++ " given)"
  | .missingArgument fn a pos =>
    fn ++ "() missing required argument '" ++ a ++ "' (pos " ++ toString pos ++ ")"
  | .notText fn a t =>
    fn ++ "() argument " ++ (match a with | some a => "'" ++ a ++ "' " | none => "") ++
      "must be str, not " ++ t
  | .cannotPickle t => "cannot pickle '" ++ t ++ "' object"
  | .cIntOverflow => "Python int too large to convert to C int"
  | .formatSpec t => "unsupported format string passed to " ++ t ++ ".__format__"
  | .newNoArguments t => t ++ ".__new__(): not enough arguments"
  | .newNotType t g => t ++ ".__new__(X): X is not a type object (" ++ g ++ ")"
  | .noObjectAttribute t n => "'" ++ t ++ "' object has no attribute '" ++ n ++ "'"
  | .readonly => "readonly attribute"
  | .unsetAttribute n => n
  | .classDelete => "can't delete __class__ attribute"
  | .classAssign t => "__class__ must be set to a class, not '" ++ t ++ "' object"
  | .embeddedNull => "embedded null byte"

/-- The fault of a missing name. -/
def missingName (name : String) : Fault := .missingKey (.text name)

end Fault

end XagSynth
