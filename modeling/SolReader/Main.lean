import SolReader.Command

namespace SolReader

def contentAt (path : String) : IO (Option ByteArray) := do
  try
    return some (← IO.FS.readBinFile path)
  catch _ =>
    return none

end SolReader

def main (arguments : List String) : IO UInt32 := do
  let content ← match SolReader.Command.task? arguments with
    | some (_,path) => SolReader.contentAt path
    | none => pure none
  let (printed,diagnostics) := SolReader.Command.run arguments fun _ => content
  for diagnostic in diagnostics do
    IO.eprintln diagnostic.message
  match printed with
  | .ok result =>
    IO.print result.output
    return UInt32.ofNat result.code
  | .error fault =>
    IO.eprintln fault.message
    return 1
