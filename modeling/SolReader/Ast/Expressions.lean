import SolReader.Ast.Commas
import SolReader.Ast.Types

namespace SolReader.Phrase

open SolReader.Part

def identifier (phrase : Phrase) : Meaning :=
  phrase.node "Identifier" [("name",.text phrase.text)]

def numberLiteral (phrase : Phrase) : Meaning := do
  let number ← textAt phrase 0
  let unit ← if (← phrase.count) = 2 then pure (.text (← textAt phrase 1)) else pure .null
  phrase.node "NumberLiteral" [("number",.text number),("subdenomination",unit)]

def callArguments (arguments? : Option Part) : Except Fault (List Value × List Value) :=
  match arguments? with
  | none => .error (.noPart .nothing "expressionList")
  | some arguments =>
    match (all .expressionList arguments.parts).head?, (all .nameValueList arguments.parts).head? with
    | some list, _ => do return (← meanings (all .expression list.parts),[])
    | none, some list => do
      let pairs ← (all .nameValue list.parts).mapM fun pair => do
        let value ← meaningOf (all .expression pair.parts).head?
        let name ← textOf (all .identifier pair.parts).head?
        return (value,Value.text name)
      return (pairs.map Prod.fst,pairs.map Prod.snd)
    | none, none => .ok ([],[])

def functionCall (phrase : Phrase) : Meaning := do
  let (values,names) ← callArguments (phrase.first? .functionCallArguments)
  let callee ← meaningOf (phrase.first? .expression)
  phrase.node "FunctionCall" [("expression",callee),("arguments",.list values),("names",.list names)]

def tuple (phrase : Phrase) (components : List Value) (isArray : Bool) : Meaning :=
  phrase.node "TupleExpression" [("components",.list components),("isArray",.bool isArray)]

def unary (phrase : Phrase) (operator : String) (operand : Value) (isPrefix : Bool) : Meaning :=
  phrase.node "UnaryOperation"
    [("operator",.text operator),("subExpression",operand),("isPrefix",.bool isPrefix)]

def prefixOperators : List String := ["+","-","++","--","!","~","after","delete"]

def stepOperators : List String := ["++","--"]

def binaryOperators : List String :=
  ["+","-","*","/","**","%","<<",">>","&&","||","&","|","^","<",">","<=",">=","==","!=",
   "=","|=","^=","&=","<<=",">>=","+=","-=","*=","/=","%="]

def ofTwo (phrase : Phrase) : Meaning := do
  let first ← textAt phrase 0
  if first = "new" then
    phrase.node "NewExpression" [("typeName",← meaningOf (phrase.first? .typeName))]
  else if prefixOperators.contains first then
    phrase.unary first (← meaningAt phrase 1) true
  else
    let second ← textAt phrase 1
    if stepOperators.contains second then phrase.unary second (← meaningAt phrase 0) false
    else listOf phrase.parts

def ofThree (phrase : Phrase) : Meaning := do
  let opening ← textAt phrase 0
  let closing ← textAt phrase 2
  if opening = "(" && closing = ")" then
    phrase.tuple [← meaningAt phrase 1] false
  else
    let operator ← textAt phrase 1
    if operator = "," then
      let left ← meaningAt phrase 0
      phrase.tuple [left,← meaningAt phrase 2] false
    else if operator = "." then
      let base ← meaningAt phrase 0
      let member ← textAt phrase 2
      phrase.node "MemberAccess" [("expression",base),("memberName",.text member)]
    else if binaryOperators.contains operator then
      let left ← meaningAt phrase 0
      let right ← meaningAt phrase 2
      phrase.node "BinaryOperation" [("operator",.text operator),("left",left),("right",right)]
    else listOf phrase.parts

def ofFour (phrase : Phrase) : Meaning := do
  let opening ← textAt phrase 1
  let closing ← textAt phrase 3
  if opening = "(" && closing = ")" then
    let (values,names) ← callArguments (phrase.first? .functionCallArguments)
    let callee ← meaningAt phrase 0
    phrase.node "FunctionCall" [("expression",callee),("arguments",.list values),("names",.list names)]
  else if opening = "[" && closing = "]" then
    let base ← meaningAt phrase 0
    let index ← meaningAt phrase 2
    phrase.node "IndexAccess" [("base",base),("index",index)]
  else listOf phrase.parts

def ofFive (phrase : Phrase) : Meaning := do
  let question ← textAt phrase 1
  let colon ← textAt phrase 3
  if question = "?" && colon = ":" then
    let condition ← meaningAt phrase 0
    let yes ← meaningAt phrase 2
    let no ← meaningAt phrase 4
    phrase.node "Conditional" [("condition",condition),("TrueExpression",yes),("FalseExpression",no)]
  else listOf phrase.parts

def expression (phrase : Phrase) : Meaning := do
  match ← phrase.count with
  | 1 => meaningAt phrase 0
  | 2 => phrase.ofTwo
  | 3 => phrase.ofThree
  | 4 => phrase.ofFour
  | 5 => phrase.ofFive
  | _ => listOf phrase.parts

-- The element type of an array type that is written where an expression is expected.
def elementType (phrase : Phrase) (base : Value) : Meaning :=
  match base with
  | .node fields =>
    match Fields.get? fields "type", Fields.get? fields "name" with
    | some (.text "Identifier"), some name => phrase.node "UserDefinedTypeName" [("namePath",name)]
    | some (.text "Identifier"), none => .error (.noField "name")
    | some _, _ => do phrase.node "ElementaryTypeName" [("name",.text (← textAt phrase 0))]
    | none, _ => .error (.noField "type")
  | other => .error (.noPart other.shape "type")

def hasEmptyBrackets (phrase : Phrase) : Except Fault Bool := do
  if (← phrase.count) = 3 then
    let opening ← textAt phrase 1
    let closing ← textAt phrase 2
    return opening = "[" && closing = "]"
  else return false

def primaryExpression (phrase : Phrase) : Meaning := do
  if let some literal := phrase.token? .booleanLiteral then
    phrase.node "BooleanLiteral" [("value",.bool (literal.text == "true"))]
  else if let some literal := phrase.first? .hexLiteral then
    phrase.node "hexLiteral" [("value",.text literal.text)]
  else if (phrase.first? .stringLiteral).isSome then
    phrase.node "stringLiteral" [("value",.text (inner phrase.text))]
  else if ← phrase.hasEmptyBrackets then
    let element ← phrase.elementType (← meaningAt phrase 0)
    phrase.node "ArrayTypeName" [("baseTypeName",element),("length",.null)]
  else meaningAt phrase 0

def innerParts (phrase : Phrase) : Except Fault (List Part) :=
  if phrase.parts.isEmpty then .error (.unindexed .nothing) else .ok (phrase.parts.drop 1).dropLast

def isComma (part : Part) : Bool := part.text == ","

def tupleExpression (phrase : Phrase) : Meaning := do
  let slots ← Commas.slots isComma (← phrase.innerParts)
  let components ← slots.mapM meaningOf
  phrase.tuple components ((← textAt phrase 0) = "[")

end SolReader.Phrase
