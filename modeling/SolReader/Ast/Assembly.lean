import SolReader.Ast.Expressions

namespace SolReader.Phrase

open SolReader.Part

def assemblyBlock (phrase : Phrase) : Meaning := do
  phrase.node "AssemblyBlock" [("operations",← listOf (phrase.allOf .assemblyItem))]

def assemblyItem (phrase : Phrase) : Meaning :=
  if let some literal := phrase.first? .hexLiteral then phrase.node "HexLiteral" [("value",.text literal.text)]
  else if let some literal := phrase.first? .stringLiteral then
    phrase.node "StringLiteral" [("value",.text (inner literal.text))]
  else if (phrase.token? .kwBreak).isSome then phrase.node "Break" []
  else if (phrase.token? .kwContinue).isSome then phrase.node "Continue" []
  else meaningAt phrase 0

-- A dotted name holds two names, and so has no text of a single one.
def assemblyMember (_ : Phrase) : Meaning :=
  .error (.noPart .list "getText")

def assemblyCall (phrase : Phrase) : Meaning := do
  let name ← textAt phrase 0
  let values ← listOf (phrase.allOf .assemblyExpression)
  phrase.node "AssemblyExpression" [("functionName",.text name),("arguments",values)]

def assemblyLiteral (phrase : Phrase) : Meaning :=
  if (phrase.first? .stringLiteral).isSome then
    phrase.node "StringLiteral" [("value",.text (inner phrase.text))]
  else if (phrase.token? .decimalNumber).isSome then phrase.node "DecimalNumber" [("value",.text phrase.text)]
  else if (phrase.token? .hexNumber).isSome then phrase.node "HexNumber" [("value",.text phrase.text)]
  else if (phrase.first? .hexLiteral).isSome then phrase.node "HexLiteral" [("value",.text phrase.text)]
  else .ok .null

def assemblySwitch (phrase : Phrase) : Meaning := do
  let expression ← meaningOf (phrase.first? .assemblyExpression)
  let cases ← listOf (phrase.allOf .assemblyCase)
  phrase.node "AssemblySwitch" [("expression",expression),("cases",cases)]

def assemblyCase (phrase : Phrase) : Meaning := do
  let value ← if (← textAt phrase 0) = "case" then meaningOf (phrase.first? .assemblyLiteral) else pure .null
  let block ← meaningOf (phrase.first? .assemblyBlock)
  match value with
  | .null => phrase.node "AssemblyCase" [("block",block),("default",.bool true)]
  | value => phrase.node "AssemblyCase" [("block",block),("value",value)]

def assignedNames (phrase : Phrase) : Except Fault (List Value) :=
  match phrase.first? .assemblyIdentifierOrList with
  | none => .error (.noPart .nothing "identifier")
  | some names =>
    match (all .identifier names.parts).head? with
    | some name => do return [← name.meaning]
    | none => do meanings (← within (all .assemblyIdentifierList names.parts).head? .identifier "identifier")

def assignment (phrase : Phrase) (type : String) : Meaning := do
  let names ← phrase.assignedNames
  let value ← meaningOf (phrase.first? .assemblyExpression)
  phrase.node type [("names",.list names),("expression",value)]

def assemblyFunctionDefinition (phrase : Phrase) : Meaning := do
  let parameters ← within (phrase.first? .assemblyIdentifierList) .identifier "identifier"
  let lists ← within (phrase.first? .assemblyFunctionReturns) .assemblyIdentifierList "assemblyIdentifierList"
  let returns ← within lists.head? .identifier "identifier"
  let name ← textOf (phrase.first? .identifier)
  let parameters ← listOf parameters
  let returns ← listOf returns
  let body ← meaningOf (phrase.first? .assemblyBlock)
  phrase.node "AssemblyFunctionDefinition" [("name",.text name),("arguments",parameters),
    ("returnArguments",returns),("body",body)]

def named (phrase : Phrase) (type : String) : Meaning := do
  phrase.node type [("name",.text (← textOf (phrase.first? .identifier)))]

def assemblyFor (phrase : Phrase) : Meaning := do
  let start ← meaningAt phrase 1
  let condition ← meaningAt phrase 2
  let step ← meaningAt phrase 3
  let body ← meaningAt phrase 4
  phrase.node "AssemblyFor" [("pre",start),("condition",condition),("post",step),("body",body)]

def assemblyIf (phrase : Phrase) : Meaning := do
  let condition ← meaningOf (phrase.first? .assemblyExpression)
  let body ← meaningOf (phrase.first? .assemblyBlock)
  phrase.node "AssemblyIf" [("condition",condition),("body",body)]

end SolReader.Phrase
