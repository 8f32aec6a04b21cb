import XagSynth.Text.Quoted
import XagSynth.Text.Digits

/-!
# Command-line options

The extractor takes `--benchmark NAME` and `-h`/`--help`. The words of a command
line are first classified one by one (`classify`: positional words, options
with or without an `=` value, unambiguous prefixes of long options, `-h` glued
to a value, unknown options), then taken in order (`consume`): help answers at
once, the last `--benchmark` wins, and left-over words refuse the line.
-/

namespace XagSynth.Cli

/-- An option of the command line. -/
inductive Opt where
  | help
  | benchmark
deriving DecidableEq

def optionStrings : List (String × Opt) :=
  [("-h", .help), ("--help", .help), ("--benchmark", .benchmark)]

def Opt.title : Opt → String
  | .help => "-h/--help"
  | .benchmark => "--benchmark"

def isShort (s : String) : Bool :=
  match s.toList with
  | '-' :: c :: _ => c ≠ '-'
  | _ => false

def optionNamed? (s : String) : Option Opt :=
  (optionStrings.find? fun e => e.1 == s).map Prod.snd

/-- A word of the command line, classified. -/
inductive Word where
  | positional (w : String)
  | separator
  | unknown (w : String)
  | option (o : Opt) (short : Bool) (value : Option String)

def negativeShape (w : String) : Bool :=
  let cs := w.toList
  let cs := if cs.getLast? = some '\n' then cs.dropLast else cs
  match cs with
  | '-' :: ds =>
    match ds.span Text.isDecimalDigit with
    | (whole, []) => !whole.isEmpty
    | (_, '.' :: frac) => !frac.isEmpty && frac.all Text.isDecimalDigit
    | _ => false
  | _ => false

def candidates (w : String) : List (String × Opt × Bool × Option String) :=
  match w.toList with
  | '-' :: '-' :: _ =>
    let (pre, value) := match w.toList.span (· ≠ '=') with
      | (pre, _ :: v) => (String.ofList pre, some (String.ofList v))
      | (_, []) => (w, none)
    optionStrings.filterMap fun e =>
      if e.1.startsWith pre then some (e.1, e.2, false, value) else none
  | '-' :: c :: rest =>
    optionStrings.filterMap fun e =>
      if e.1 == String.ofList ['-', c] then some (e.1, e.2, true, some (String.ofList rest))
      else if e.1.startsWith w then some (e.1, e.2, isShort e.1, none)
      else none
  | _ => []

/-- A word of the command line read on its own; an abbreviation that names two
options is refused with its message. -/
def classify (w : String) : Except String Word :=
  match w.toList with
  | [] => .ok (.positional w)
  | c :: rest =>
    if c ≠ '-' then .ok (.positional w) else
    match optionNamed? w with
    | some o => .ok (.option o (isShort w) none)
    | none =>
      if rest.isEmpty then .ok (.positional w) else
      match w.toList.span (· ≠ '=') with
      | (pre, _ :: v) =>
        match optionNamed? (String.ofList pre) with
        | some o => .ok (.option o (isShort (String.ofList pre)) (some (String.ofList v)))
        | none => byCandidates
      | (_, []) => byCandidates
where
  byCandidates : Except String Word :=
    match candidates w with
    | [(_, o, short, value)] => .ok (.option o short value)
    | [] => if negativeShape w || w.contains ' ' then .ok (.positional w) else .ok (.unknown w)
    | cs => .error ("ambiguous option: " ++ w ++ " could match " ++ ", ".intercalate (cs.map (·.1)))

def classifyAll : List String → Except String (List Word)
  | [] => .ok []
  | w :: ws =>
    if w == "--" then .ok (.separator :: ws.map .positional) else do
      let x ← classify w
      return x :: (← classifyAll ws)

/-- What a command line asks for. -/
inductive Request where
  | help
  | refuse (msg : String)
  | run (benchmark : Option String)

def ignored (o : Opt) (v : String) : Request :=
  .refuse ("argument " ++ o.title ++ ": ignored explicit argument " ++ Text.quote v)

def gluedHelp : List Char → Request
  | [] => ignored .help ""
  | 'h' :: more =>
    match more with
    | [] => .help
    | _ => gluedHelp more
  | cs => ignored .help (String.ofList cs)

def helpWith (short : Bool) : Option String → Request
  | none => .help
  | some v => if short then gluedHelp v.toList else ignored .help v

/-- The benchmark an option value chooses: the value `--` is dropped as a
separator, which leaves no benchmark. -/
def valueOf (v : String) : Option String := if v == "--" then none else some v

/-- Act on the classified words in order, with the benchmark chosen so far and
the words left over. -/
def consume (chosen : Option String) (extra : List String) : List Word → Request
  | [] =>
    if extra.isEmpty then .run chosen
    else .refuse ("unrecognized arguments: " ++ " ".intercalate extra)
  | .positional w :: ws => consume chosen (extra ++ [w]) ws
  | .separator :: ws => consume chosen (extra ++ ["--"]) ws
  | .unknown w :: ws => consume chosen (extra ++ [w]) ws
  | .option .help short v :: _ => helpWith short v
  | .option .benchmark _ (some v) :: ws => consume (valueOf v) extra ws
  | .option .benchmark _ none :: ws =>
    match ws with
    | .positional v :: rest => consume (some v) extra rest
    | _ => .refuse "argument --benchmark: expected one argument"

/-- What a command line asks for. -/
def request (args : List String) : Request :=
  match classifyAll args with
  | .error msg => .refuse msg
  | .ok ws => consume none [] ws

example : request [] = .run none := rfl

def usage : String := "usage: run.py [-h] [--benchmark BENCHMARK]\n"

def helpText : String :=
  usage ++ "\nQuantum Circuit Extractor\n\noptions:\n" ++
    "  -h, --help            show this help message and exit\n" ++
    "  --benchmark BENCHMARK\n" ++
    "                        Benchmark name to extract\n"

def refusal (msg : String) : String := usage ++ "run.py: error: " ++ msg ++ "\n"

end XagSynth.Cli
