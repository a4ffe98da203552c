import SolReader.Ast.Value
import SolReader.Text.Quoted

namespace SolReader

namespace Value

mutual

def display : Value → String
  | .null => "None"
  | .bool truth => if truth then "True" else "False"
  | .number amount => toString amount
  | .text content => String.ofList (Text.quoted content.toList)
  | .list items => "[" ++ ", ".intercalate (displayItems items) ++ "]"
  | .record fields => "\x7b" ++ ", ".intercalate (displayFields fields) ++ "\x7d"
  | .node fields => "\x7b" ++ ", ".intercalate (displayFields fields) ++ "\x7d"
  | .tree piece => "<" ++ piece.text ++ ">"

def displayItems : List Value → List String
  | [] => []
  | item :: items => item.display :: displayItems items

def displayFields : List (String × Value) → List String
  | [] => []
  | (name,value) :: fields =>
    (String.ofList (Text.quoted name.toList) ++ ": " ++ value.display) :: displayFields fields

end

def sortFields (fields : List (String × Value)) : List (String × Value) :=
  fields.mergeSort fun left right => left.1 ≤ right.1

mutual

def sorted : Value → Value
  | .list items => .list (sortedItems items)
  | .record fields => .record (sortFields (sortedFields fields))
  | .node fields => .node (sortFields (sortedFields fields))
  | other => other

def sortedItems : List Value → List Value
  | [] => []
  | item :: items => item.sorted :: sortedItems items

def sortedFields : List (String × Value) → List (String × Value)
  | [] => []
  | (name,value) :: fields => (name,value.sorted) :: sortedFields fields

end

end Value

end SolReader
