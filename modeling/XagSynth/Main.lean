import XagSynth.Cli.Run

/-!
# The extractor command line

`main` runs the extractor over the folder `data` of the working directory, with
the names of `data/input` given on the standard input, one per line; help exits
with 0, a refused command line with 2, and a failing netlist with 1.
-/

open XagSynth

partial def readNames (h : IO.FS.Stream) (acc : Array String) : IO (Array String) := do
  let line ← h.getLine
  if line.isEmpty then return acc
  let name := Text.dropTrailing '\n' line
  readNames h (if name.isEmpty then acc else acc.push name)

/-- Run the extractor on the working directory's `data` folder. -/
def main (args : List String) : IO UInt32 := do
  match Cli.request args with
  | .help =>
    IO.print Cli.helpText
    return 0
  | .refuse msg =>
    IO.eprint (Cli.refusal msg)
    return 2
  | .run b =>
    let names ← readNames (← IO.getStdin) #[]
    for file in names.toList.filter (Cli.selects b) do
      let source : String := "data/input/" ++ file
      let text ← IO.FS.readFile source
      match Cli.extract file text with
      | .error f =>
        IO.eprintln (f.label ++ ": " ++ f.message)
        return 1
      | .ok x =>
        for l in x.lines do
          IO.println l
        let circuitFile : String := "data/output/" ++ Cli.outputName file
        let resultFile : String := "data/result/" ++ Cli.outputName file
        IO.FS.writeFile circuitFile (Cli.circuitText x.circuit)
        IO.FS.writeFile resultFile x.result
    return 0
