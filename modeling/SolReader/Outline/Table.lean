import SolReader.Ast.Visit

namespace SolReader

inductive Key where
  | null
  | bool (truth : Bool)
  | number (number : Int)
  | text (text : String)
  deriving DecidableEq, Repr

namespace Key

-- Truth values are the numbers zero and one.
def amount? : Key → Option Int
  | .bool truth => some (if truth then 1 else 0)
  | .number amount => some amount
  | _ => none

def same (left right : Key) : Bool :=
  left = right || (left.amount?.isSome && left.amount? = right.amount?)

def ofValue : Value → Except Fault Key
  | .null => .ok .null
  | .bool truth => .ok (.bool truth)
  | .number amount => .ok (.number amount)
  | .text content => .ok (.text content)
  | other => .error (.unhashable other.shape)

def toValue : Key → Value
  | .null => .null
  | .bool truth => .bool truth
  | .number amount => .number amount
  | .text content => .text content

def display : Key → String
  | .null => "None"
  | .bool truth => if truth then "True" else "False"
  | .number amount => toString amount
  | .text content => content

end Key

abbrev Table (α : Type) := List (Key × α)

namespace Table

def insert {α : Type} (table : Table α) (key : Key) (entry : α) : Table α :=
  if table.any fun row => row.1.same key then
    table.map fun row => if row.1.same key then (row.1,entry) else row
  else table ++ [(key,entry)]

def update {α : Type} (table more : Table α) : Table α :=
  more.foldl (fun table (key,entry) => table.insert key entry) table

end Table

def Fields.key (fields : Fields) : Except Fault Key :=
  match fields.get? "name" with
  | some name => Key.ofValue name
  | none => .error (.noField "name")

def Value.tableOf (value : Value) (type : String) : Except Fault (Table Fields) :=
  value.foldOf [type] (fun table node => return table.insert (← node.key) node) []

end SolReader
