import SolReader.Ast.Value

namespace SolReader

-- The texts of several parts with commas between them.
def commas : List (List String) → List String
  | [] => []
  | first :: rest => first ++ rest.flatMap ("," :: ·)

-- A named argument.
def labelled (name value : List String) : List String :=
  name ++ ":" :: value

-- The texts of a node, given those of its fields part by part.
def Fields.spell (fields : Fields) (parts : List (String × List (List String))) : List String :=
  let items (name : String) : List (List String) := (parts.lookup name).getD []
  let words (name : String) : List String := (items name).flatten
  match fields.get? "type" with
  | some (.text "Identifier") => words "name"
  | some (.text "ElementaryTypeName") => words "name"
  | some (.text "hexLiteral") => words "value"
  | some (.text "BooleanLiteral") =>
    match fields.get? "value" with
    | some (.bool true) => ["true"]
    | _ => ["false"]
  | some (.text "NumberLiteral") => words "number" ++ words "subdenomination"
  | some (.text "TupleExpression") =>
    match fields.get? "isArray" with
    | some (.bool true) => "[" :: commas (items "components") ++ ["]"]
    | _ => "(" :: commas (items "components") ++ [")"]
  | some (.text "UnaryOperation") =>
    match fields.get? "isPrefix" with
    | some (.bool true) => words "operator" ++ words "subExpression"
    | _ => words "subExpression" ++ words "operator"
  | some (.text "BinaryOperation") => words "left" ++ words "operator" ++ words "right"
  | some (.text "MemberAccess") => words "expression" ++ "." :: words "memberName"
  | some (.text "IndexAccess") => words "base" ++ "[" :: words "index" ++ ["]"]
  | some (.text "Conditional") =>
    words "condition" ++ "?" :: words "TrueExpression" ++ ":" :: words "FalseExpression"
  | some (.text "FunctionCall") =>
    match items "names" with
    | [] => words "expression" ++ "(" :: commas (items "arguments") ++ [")"]
    | names => words "expression" ++ "(" :: "\x7b" :: commas (names.zipWith labelled (items "arguments")) ++ ["\x7d",")"]
  | _ => []

namespace Value

mutual

@[grind] def unparse : Value → List String
  | .text word => [word]
  | .list items => (unparseItems items).flatten
  | .node fields => Fields.spell fields (unparseFields fields)
  | _ => []

-- A list has a part for each item, anything else is one part.
@[grind] def unparseFields : List (String × Value) → List (String × List (List String))
  | [] => []
  | (name,value) :: fields =>
    (name,match value with
      | .list items => unparseItems items
      | value => [value.unparse]) :: unparseFields fields

@[grind] def unparseItems : List Value → List (List String)
  | [] => []
  | item :: items => item.unparse :: unparseItems items

end

theorem unparseItems_eq (items : List Value) : unparseItems items = items.map unparse := by
  induction items with
  | nil => rfl
  | cons item items ih => rw [unparseItems,ih,List.map_cons]

-- The parts of a field.
def parts : Value → List (List String)
  | .list items => items.map unparse
  | value => [value.unparse]

theorem unparseFields_eq (fields : Fields) : unparseFields fields = fields.map fun field => (field.1,field.2.parts) := by
  induction fields with
  | nil => rfl
  | cons field fields ih =>
    obtain ⟨name,value⟩ := field
    cases value <;> simp [unparseFields,ih,parts,unparseItems_eq]

theorem parts_flatten (value : Value) : value.parts.flatten = value.unparse := by
  cases value with
  | list items => rw [parts,unparse,unparseItems_eq]
  | _ => simp [parts]

theorem unparse_node (fields : Fields) :
    (Value.node fields).unparse = Fields.spell fields (fields.map fun field => (field.1,field.2.parts)) := by
  rw [unparse,unparseFields_eq]

@[simp] theorem unparse_text (word : String) : (Value.text word).unparse = [word] := by
  rw [unparse]

@[simp] theorem unparse_null : Value.null.unparse = [] := by
  rw [unparse] <;> simp

@[simp] theorem parts_list (items : List Value) : (Value.list items).parts = items.map unparse := rfl

-- How nodes of each type are written.

section Nodes

variable (left right middle : Value) (word : String)

theorem unparse_identifier : (node [("type",.text "Identifier"),("name",.text word)]).unparse = [word] :=
  (unparse_node _).trans (parts_flatten (.text word))

theorem unparse_elementaryTypeName :
    (node [("type",.text "ElementaryTypeName"),("name",.text word)]).unparse = [word] :=
  (unparse_node _).trans (parts_flatten (.text word))

theorem unparse_hexLiteral : (node [("type",.text "hexLiteral"),("value",.text word)]).unparse = [word] :=
  (unparse_node _).trans (parts_flatten (.text word))

theorem unparse_booleanLiteral (truth : Bool) :
    (node [("type",.text "BooleanLiteral"),("value",.bool truth)]).unparse = [if truth then "true" else "false"] := by
  rw [unparse_node]
  cases truth <;> rfl

theorem unparse_numberLiteral (unit : Value) :
    (node [("type",.text "NumberLiteral"),("number",.text word),("subdenomination",unit)]).unparse =
      word :: unit.unparse := by
  rw [unparse_node,← parts_flatten unit]
  rfl

theorem unparse_tuple (components : List Value) :
    (node [("type",.text "TupleExpression"),("components",.list components),("isArray",.bool false)]).unparse =
      "(" :: commas (components.map unparse) ++ [")"] :=
  unparse_node _

theorem unparse_array (components : List Value) :
    (node [("type",.text "TupleExpression"),("components",.list components),("isArray",.bool true)]).unparse =
      "[" :: commas (components.map unparse) ++ ["]"] :=
  unparse_node _

theorem unparse_before : (node [("type",.text "UnaryOperation"),("operator",.text word),("subExpression",right),
    ("isPrefix",.bool true)]).unparse = word :: right.unparse := by
  rw [unparse_node,← parts_flatten right]
  rfl

theorem unparse_after : (node [("type",.text "UnaryOperation"),("operator",.text word),("subExpression",left),
    ("isPrefix",.bool false)]).unparse = left.unparse ++ [word] := by
  rw [unparse_node,← parts_flatten left]
  rfl

theorem unparse_between : (node [("type",.text "BinaryOperation"),("operator",.text word),("left",left),
    ("right",right)]).unparse = left.unparse ++ word :: right.unparse := by
  rw [unparse_node,← parts_flatten left,← parts_flatten right]
  exact List.append_assoc ..

theorem unparse_member : (node [("type",.text "MemberAccess"),("expression",left),
    ("memberName",.text word)]).unparse = left.unparse ++ [".",word] := by
  rw [unparse_node,← parts_flatten left]
  rfl

theorem unparse_index : (node [("type",.text "IndexAccess"),("base",left),("index",right)]).unparse =
    left.unparse ++ "[" :: right.unparse ++ ["]"] := by
  rw [unparse_node,← parts_flatten left,← parts_flatten right]
  rfl

theorem unparse_conditional : (node [("type",.text "Conditional"),("condition",left),("TrueExpression",middle),
    ("FalseExpression",right)]).unparse = left.unparse ++ "?" :: middle.unparse ++ ":" :: right.unparse := by
  rw [unparse_node,← parts_flatten left,← parts_flatten middle,← parts_flatten right]
  rfl

theorem unparse_call (values : List Value) : (node [("type",.text "FunctionCall"),("expression",left),
    ("arguments",.list values),("names",.list [])]).unparse =
      left.unparse ++ "(" :: commas (values.map unparse) ++ [")"] := by
  rw [unparse_node,← parts_flatten left]
  rfl

theorem unparse_call_named (values names : List Value) (filled : names ≠ []) :
    (node [("type",.text "FunctionCall"),("expression",left),("arguments",.list values),
      ("names",.list names)]).unparse = left.unparse ++
        "(" :: "\x7b" :: commas ((names.map unparse).zipWith labelled (values.map unparse)) ++ ["\x7d",")"] := by
  rw [unparse_node,← parts_flatten left]
  cases names with
  | nil => exact absurd rfl filled
  | cons name names => rfl

end Nodes

end Value

end SolReader
