import SolReader.Tree

namespace SolReader

-- A few fields hold a piece of the parse tree as it is.
inductive Value where
  | null
  | bool (truth : Bool)
  | number (number : Int)
  | text (text : String)
  | list (items : List Value)
  | record (fields : List (String × Value))
  | node (fields : List (String × Value))
  | tree (tree : Tree)
  deriving Repr, Inhabited

inductive Shape where
  | nothing | truth | number | text | list | record | node | token | errorToken
  | phrase (rule : Rule)
  deriving DecidableEq, Repr

abbrev Fields := List (String × Value)

namespace Fields

def get? (fields : Fields) (name : String) : Option Value :=
  fields.lookup name

def names (fields : Fields) : List String :=
  fields.map Prod.fst

-- Gives a field a value. A field that is there keeps its place, a new one comes last.
def set (fields : Fields) (name : String) (value : Value) : Fields :=
  if (fields.get? name).isSome then fields.map fun field => if field.1 == name then (name,value) else field
  else fields ++ [(name,value)]

def erase (fields : Fields) (name : String) : Fields :=
  fields.filter (·.1 != name)

def ofList (pairs : List (String × Value)) : Fields :=
  pairs.foldl (fun fields (name,value) => fields.set name value) []

end Fields

namespace Tree

def shape : Tree → Shape
  | .leaf _ => .token
  | .error _ => .errorToken
  | .node rule _ _ _ => .phrase rule

end Tree

namespace Value

def shape : Value → Shape
  | .null => .nothing
  | .bool _ => .truth
  | .number _ => .number
  | .text _ => .text
  | .list _ => .list
  | .record _ => .record
  | .node _ => .node
  | .tree piece => piece.shape

-- What counts as yes: anything but nothing, zero, and what is empty.
def isTruthy : Value → Bool
  | .null => false
  | .bool truth => truth
  | .number amount => amount != 0
  | .text content => !content.isEmpty
  | .list items => !items.isEmpty
  | .record fields | .node fields => !fields.isEmpty
  | .tree _ => true

def ofOption (text? : Option String) : Value :=
  match text? with
  | some found => .text found
  | none => .null

def field (value : Value) (name : String) : Value :=
  match value with
  | .node fields => (Fields.get? fields name).getD .null
  | _ => .null

end Value

end SolReader
