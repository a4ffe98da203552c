import SolReader.Ast.Value

namespace SolReader

inductive Fault where
  | noPart (holder : Shape) (part : String)
  | uncountable (holder : Shape)
  | unindexed (holder : Shape)
  | expectedComma
  | noVariables
  | noField (name : String)
  | noEntry (index : Int)
  | outOfRange (holder : Shape)
  | unhashable (holder : Shape)
  | untyped (found : Shape)
  | unknownRule (name : String)
  | unassignable (holder : Shape)
  | unremovable (holder : Shape)
  | namedPlace
  | notText (position : Nat) (found : Shape)
  | badEncoding
  | noFile
  deriving DecidableEq, Repr

namespace Shape

def word : Shape → String
  | .nothing => "NoneType"
  | .truth => "bool"
  | .number => "int"
  | .text => "str"
  | .list => "list"
  | .record => "dict"
  | .node => "Node"
  | .token => "TerminalNodeImpl"
  | .errorToken => "ErrorNodeImpl"
  | .phrase rule => rule.name.capitalize ++ "Context"

end Shape

namespace Fault

def message : Fault → String
  | .noPart holder part => "'" ++ holder.word ++ "' object has no attribute '" ++ part ++ "'"
  | .uncountable holder => "object of type '" ++ holder.word ++ "' has no len()"
  | .unindexed holder => "'" ++ holder.word ++ "' object is not subscriptable"
  | .expectedComma => "expected comma"
  | .noVariables => "cannot access local variable 'variables' where it is not associated with a value"
  | .noField name => "'" ++ name ++ "'"
  | .noEntry index => toString index
  | .outOfRange holder => (if holder = .text then "string" else holder.word) ++ " index out of range"
  | .unhashable holder => "unhashable type: '" ++ holder.word ++ "'"
  | .untyped found => "can only concatenate str (not \"" ++ found.word ++ "\") to str"
  | .unknownRule name => "'SolidityParser' object has no attribute '" ++ name ++ "'"
  | .unassignable holder => "'" ++ holder.word ++ "' object does not support item assignment"
  | .unremovable holder => "'" ++ holder.word ++ "' object doesn't support item deletion"
  | .namedPlace => "list indices must be integers or slices, not str"
  | .notText position found =>
    "sequence item " ++ toString position ++ ": expected str instance, " ++ found.word ++ " found"
  | .badEncoding | .noFile => ""

end Fault

end SolReader
