import XagSynth.Circuit.Helper
import XagSynth.Datum.Access
import XagSynth.Datum.Times

/-!
# The gate module as an object

Callers reach the gate constructors by name through the module that holds them,
and the module answers every name an object of its kind answers
(`Member.named?`): its own names in binding order, its tables of names and
annotations, its class, and the methods of modules and objects. A member is
called with a list of arguments (`Member.call`) or written out
(`Member.answer`), and a value without members cannot be spread over the
parameters (`Member.title?` names the callee in the refusal).
-/

namespace XagSynth.Circuit

/-- A method of modules or of all objects, bound to the gate module. -/
inductive Method where
  | dir
  | reduce
  | reduceEx
  | getstate
  | sizeof
  | format
  | initSubclass
  | subclasshook
  | new
  | getattribute
  | setattr
  | delattr
  | init
  | repr
  | str
  | hash
  | eq
  | ne
  | lt
  | le
  | gt
  | ge

def Method.all : List Method :=
  [.dir, .reduce, .reduceEx, .getstate, .sizeof, .format, .initSubclass, .subclasshook, .new,
    .getattribute, .setattr, .delattr, .init, .repr, .str, .hash, .eq, .ne, .lt, .le, .gt, .ge]

def Method.name : Method → String
  | .dir => "__dir__"
  | .reduce => "__reduce__"
  | .reduceEx => "__reduce_ex__"
  | .getstate => "__getstate__"
  | .sizeof => "__sizeof__"
  | .format => "__format__"
  | .initSubclass => "__init_subclass__"
  | .subclasshook => "__subclasshook__"
  | .new => "__new__"
  | .getattribute => "__getattribute__"
  | .setattr => "__setattr__"
  | .delattr => "__delattr__"
  | .init => "__init__"
  | .repr => "__repr__"
  | .str => "__str__"
  | .hash => "__hash__"
  | .eq => "__eq__"
  | .ne => "__ne__"
  | .lt => "__lt__"
  | .le => "__le__"
  | .gt => "__gt__"
  | .ge => "__ge__"

def Method.isSlot : Method → Bool
  | .getattribute | .setattr | .delattr | .init | .repr | .str | .hash
  | .eq | .ne | .lt | .le | .gt | .ge => true
  | _ => false

/-- The qualified name a method is given when its arguments cannot be spread:
methods of all objects are qualified by the base of all objects, those the
module type defines by the module type, and built-in methods not at all. -/
def Method.title (m : Method) : String :=
  match m with
  | .dir | .reduce | .reduceEx | .getstate | .sizeof | .format => m.name ++ "()"
  | .str | .hash | .eq | .ne | .lt | .le | .gt | .ge => "object." ++ m.name ++ "()"
  | _ => "module." ++ m.name ++ "()"

/-- A value the module keeps that is no function: its type, its written form
or the fault of writing it, and its text where that is fixed. -/
structure Plain where
  typeName : String
  answer : Except Fault Datum
  text : Option String

/-- What a name of the gate module stands for. -/
inductive Member where
  | gate (hp : Helper)
  | circuitClass
  | moduleClass
  | method (m : Method)
  | plain (p : Plain)

def sourceFile : String := "quantumCircuit.py"

def cachedFile : String := "__pycache__/quantumCircuit.cpython-311.pyc"

def moduleText : String := "<module 'quantumCircuit' from '" ++ sourceFile ++ "'>"

def ownNames : List String :=
  ["__name__", "__doc__", "__package__", "__loader__", "__spec__", "__file__", "__cached__",
    "__builtins__", "x_gate", "h_gate", "s_gate", "cnot_gate", "t_gate", "t_dagger_gate",
    "toffoli_gate", "toffoli_gate_with_ancilla", "QuantumCircuit"]

def Plain.ofText (s : String) : Plain := ⟨"str", .ok (.text s), some s⟩

def Plain.unwritable (typeName part : String) : Plain := ⟨typeName, .error (.notSerializable part), none⟩

def Member.named? (n : String) : Option Member :=
  match n with
  | "x_gate" => some (.gate .x)
  | "h_gate" => some (.gate .h)
  | "s_gate" => some (.gate .s)
  | "cnot_gate" => some (.gate .cnot)
  | "t_gate" => some (.gate .t)
  | "t_dagger_gate" => some (.gate .tdg)
  | "toffoli_gate" => some (.gate .toffoli)
  | "toffoli_gate_with_ancilla" => some (.gate .gadget)
  | "QuantumCircuit" => some .circuitClass
  | "__class__" => some .moduleClass
  | "__name__" => some (.plain (.ofText "quantumCircuit"))
  | "__doc__" => some (.plain ⟨"NoneType", .ok .none, some "None"⟩)
  | "__package__" => some (.plain (.ofText ""))
  | "__file__" => some (.plain (.ofText sourceFile))
  | "__cached__" => some (.plain (.ofText cachedFile))
  | "__loader__" => some (.plain (.unwritable "SourceFileLoader" "SourceFileLoader"))
  | "__spec__" => some (.plain (.unwritable "ModuleSpec" "ModuleSpec"))
  | "__builtins__" => some (.plain (.unwritable "dict" "type"))
  | "__dict__" => some (.plain (.unwritable "dict" "SourceFileLoader"))
  | "__annotations__" => some (.plain ⟨"dict", .ok (.record []), some "\x7b\x7d"⟩)
  | n => (Method.all.find? fun m => m.name == n).map .method

example : Member.named? "__dir__" = some (.method .dir) := rfl

def Member.answer : Member → Except Fault Datum
  | .gate _ => .error (.notSerializable "function")
  | .circuitClass | .moduleClass => .error (.notSerializable "type")
  | .method m =>
    .error (.notSerializable (if m.isSlot then "method-wrapper" else "builtin_function_or_method"))
  | .plain p => p.answer

def argumentKind : Datum → String
  | .none => "None"
  | d => d.typeName

/-- The arguments of the module class and of its initializer: a name, which
must be a text, and an optional documentation value. -/
def moduleArguments (args : List Datum) : Except Fault Unit :=
  if 2 < args.length then .error (.atMost "module" 2 args.length) else
  match args with
  | [] => .error (.missingArgument "module" "name" 1)
  | .text _ :: _ => .ok ()
  | d :: _ => .error (.notText "module" (some "name") (argumentKind d))

def protocolNumber (d : Datum) : Except Fault Unit := do
  let i ← d.index
  if i < -2147483648 || 2147483647 < i then throw .cIntOverflow

def deleteAttribute (n : String) : Except Fault Datum :=
  if ownNames.contains n then .ok .none
  else if n == "__dict__" then .error .readonly
  else if n == "__class__" then .error .classDelete
  else if n == "__annotations__" then .error (.unsetAttribute n)
  else .error (.noObjectAttribute "module" n)

def setAttribute (n : String) (v : Datum) : Except Fault Datum :=
  if n == "__dict__" then .error .readonly
  else if n == "__class__" then .error (.classAssign v.typeName)
  else .ok .none

/-- The answer of a method of the module called with `args`. -/
def Method.call (m : Method) (args : List Datum) : Except Fault Datum :=
  match m, args with
  | .dir, [] => .ok (.list (ownNames.map .text))
  | .reduce, [] => .error (.cannotPickle "module")
  | .reduceEx, [p] => do protocolNumber p; throw (.cannotPickle "module")
  | .reduceEx, _ => .error (.oneArgument m.name args.length)
  | .getstate, [] => .error (.notSerializable "SourceFileLoader")
  | .sizeof, [] => .ok (.int 56)
  | .format, [.text ""] => .ok (.text moduleText)
  | .format, [.text _] => .error (.formatSpec "module")
  | .format, [d] => .error (.notText m.name none (argumentKind d))
  | .format, _ => .error (.oneArgument m.name args.length)
  | .initSubclass, [] => .ok .none
  | .initSubclass, _ => .error (.noArguments ("module." ++ m.name) args.length)
  | .subclasshook, _ => .error (.notSerializable "NotImplementedType")
  | .new, [] => .error (.newNoArguments "module")
  | .new, d :: _ => .error (.newNotType "module" d.typeName)
  | .getattribute, [.text n] =>
    match Member.named? n with
    | some mem => mem.answer
    | none => .error (.noFunction n)
  | .getattribute, [d] => .error (.attributeName d.typeName)
  | .setattr, [.text n, v] => setAttribute n v
  | .setattr, [d, _] => .error (.attributeName d.typeName)
  | .setattr, _ => .error (.pairArity args.length)
  | .delattr, [.text n] => deleteAttribute n
  | .delattr, [d] => .error (.attributeName d.typeName)
  | .init, _ => do moduleArguments args; return .none
  | .repr, [] | .str, [] => .ok (.text moduleText)
  | .hash, [] => .ok (.int 0)
  | .eq, [_] | .ne, [_] | .lt, [_] | .le, [_] | .gt, [_] | .ge, [_] =>
    .error (.notSerializable "NotImplementedType")
  | _, _ =>
    if m.isSlot then
      .error (.slotArity (if m matches .repr | .str | .hash then 0 else 1) args.length)
    else .error (.noArguments m.name args.length)

/-- The answer to calling a member with `args`; `fn` is the name it was
reached by.  The circuit class takes no arguments, and neither the circuit nor
a module it builds has a written form. -/
def Member.call (mem : Member) (fn : String) (args : List Datum) : Except Fault Datum :=
  match mem with
  | .gate hp => hp.call fn args
  | .circuitClass =>
    if args.isEmpty then .error (.notSerializable "QuantumCircuit")
    else .error (.arity "QuantumCircuit.__init__" ["self"] (args.length + 1))
  | .moduleClass => do
    moduleArguments args
    throw (.notSerializable "module")
  | .method m => m.call args
  | .plain p => .error (.notCallable p.typeName)

def Member.title? (mem : Member) (fn : String) : Option String :=
  match mem with
  | .gate _ | .circuitClass => some ("quantumCircuit." ++ fn ++ "()")
  | .moduleClass => some "module()"
  | .method m => some m.title
  | .plain p => p.text

/-- The answer to calling the name `fn` of the gate module with the members
of `args` as its arguments; a name the module lacks is refused first, then
arguments that are no sequence. -/
def callNamed (fn : String) (args : Datum) : Except Fault Datum :=
  match Member.named? fn with
  | none => .error (.noFunction fn)
  | some mem =>
    match args.members, mem.title? fn with
    | .ok xs, _ => mem.call fn xs
    | .error _, some t => .error (.starArgs t args.typeName)
    | .error _, none => mem.call fn []

end XagSynth.Circuit
