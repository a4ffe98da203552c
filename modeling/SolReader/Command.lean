import SolReader.Ast.Pretty
import SolReader.Outline.Report
import SolReader.Source

namespace SolReader

namespace Command

inductive Task where
  | parse
  | outline
  deriving DecidableEq, Repr

def Task.ofName? : String → Option Task
  | "parse" => some .parse
  | "outline" => some .outline
  | _ => none

structure Printed where
  code : Nat
  output : String
  deriving DecidableEq, Repr

def usage : String :=
  String.join [
    "\n- missing subcommand or path to solidity file.\n\n",
    "#> python -m solidity_parser <subcommand> <solidity file>\n\n",
    "\t subcommands:\n",
    "\t\t parse   ... print the parsetree for the sourceUnit\n",
    "\t\t outline ... print a high level outline of the sourceUnit\n"]

def task? : List String → Option (Task × String)
  | name :: path :: _ => (Task.ofName? name).map (·,path)
  | _ => none

def perform (task : Task) (value : Value) : Except Fault String :=
  match task with
  | .parse => .ok (value.pretty ++ "\n")
  | .outline => do (← Outline.ofValue value).report

def run (arguments : List String) (read : String → Option ByteArray) : Except Fault Printed × List Diagnostic :=
  match task? arguments with
  | none => (.ok ⟨1,usage⟩,[])
  | some (task,path) =>
    let (meaning,diagnostics) := parseFile (read path) "sourceUnit" false
    (do return ⟨0,← perform task (← meaning)⟩,diagnostics)

end Command

end SolReader
