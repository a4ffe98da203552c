import SolReader.Ast.Expressions

namespace SolReader.Phrase

open SolReader.Part

def block (phrase : Phrase) : Meaning := do
  phrase.node "Block" [("statements",← listOf (phrase.allOf .statement))]

def uncheckedStatement (phrase : Phrase) : Meaning := do
  phrase.node "UncheckedStatement" [("body",← meaningOf (phrase.first? .block))]

def expressionStatement (phrase : Phrase) : Meaning := do
  phrase.node "ExpressionStatement" [("expression",← meaningOf (phrase.first? .expression))]

def emitStatement (phrase : Phrase) : Meaning := do
  phrase.node "EmitStatement" [("eventCall",← meaningAt phrase 1)]

def revertStatement (phrase : Phrase) : Meaning := do
  phrase.node "RevertStatement" [("functionCall",← meaningOf (phrase.first? .functionCall))]

def throwStatement (phrase : Phrase) : Meaning :=
  phrase.node "ThrowStatement" []

def returnStatement (phrase : Phrase) : Meaning :=
  meaningOf (phrase.first? .expression)

def whileLoop (phrase : Phrase) (type : String) : Meaning := do
  let condition ← meaningOf (phrase.first? .expression)
  let body ← meaningOf (phrase.first? .statement)
  phrase.node type [("condition",condition),("body",body)]

def ifStatement (phrase : Phrase) : Meaning := do
  let branches := phrase.allOf .statement
  let yes ← meaningOf branches[0]?
  let no ← meaningOf branches[1]?
  let condition ← meaningOf (phrase.first? .expression)
  phrase.node "IfStatement" [("condition",condition),("TrueBody",yes),("FalseBody",no)]

-- The condition is what is written as a statement between the semicolons.
def forStatement (phrase : Phrase) : Meaning := do
  let condition ← meaningOf (phrase.first? .expressionStatement)
  let start ← meaningOf (phrase.first? .simpleStatement)
  let step ← phrase.node "ExpressionStatement" [("expression",← meaningOf (phrase.first? .expression))]
  let body ← meaningOf (phrase.first? .statement)
  phrase.node "ForStatement" [("initExpression",start),("conditionExpression",condition.field "expression"),
    ("loopExpression",step),("body",body)]

def tryStatement (phrase : Phrase) : Meaning := do
  let expression ← meaningOf (phrase.first? .expression)
  let block ← meaningOf (phrase.first? .block)
  let returns ← meaningOf (phrase.first? .returnParameters)
  let clauses ← listOf (phrase.allOf .catchClause)
  phrase.node "TryStatement" [("expression",expression),("block",block),("returnParameters",returns),
    ("catchClause",clauses)]

def catchClause (phrase : Phrase) : Meaning := do
  let name ← meaningOf (phrase.first? .identifier)
  let parameters ← meaningOf (phrase.first? .parameterList)
  let block ← meaningOf (phrase.first? .block)
  phrase.node "CatchClause" [("identifier",name),("parameterList",parameters),("block",block)]

-- The names declared by `var (a, , b)`; an empty slot declares nothing.
def identifierList (phrase : Phrase) : Meaning := do
  let slots ← Commas.slots isComma (← phrase.innerParts)
  let declared ← slots.mapM fun slot => match slot with
    | none => pure Value.null
    | some name => phrase.node "VariableDeclaration" [("name",.text name.text),("isStateVar",.bool false),
        ("isIndexed",.bool false),("iden",.tree name.tree)]
  return .list declared

def listedDeclaration (phrase : Phrase) (declaration : Part) : Meaning := do
  if declaration.rule?.isNone then throw (.noPart declaration.tree.shape "identifier")
  let name ← textOf (all .identifier declaration.parts).head?
  let type ← meaningOf (all .typeName declaration.parts).head?
  phrase.node "VariableDeclaration" [("name",.text name),("typeName",type),("isStateVar",.bool false),
    ("isIndexed",.bool false),("decl",.tree declaration.tree)]

-- The declarations up to the first empty slot; with an empty slot there is no list at all.
def listedDeclarations (phrase : Phrase) : List (Option Part) → Except Fault (Option (List Value))
  | [] => .ok (some [])
  | none :: _ => .ok none
  | some declaration :: rest => do
    let first ← phrase.listedDeclaration declaration
    return (← phrase.listedDeclarations rest).map (first :: ·)

def variableDeclarationList (phrase : Phrase) : Meaning := do
  let slots ← Commas.slots isComma phrase.parts
  match ← phrase.listedDeclarations slots with
  | some declared => return .list declared
  | none => return .null

def variableDeclarationStatement (phrase : Phrase) : Meaning := do
  let declared? ← match phrase.first? .variableDeclaration, phrase.first? .identifierList,
      phrase.first? .variableDeclarationList with
    | some declaration, _, _ => do pure (some (Value.list [← declaration.meaning]))
    | none, some names, _ => some <$> names.meaning
    | none, none, some declarations => some <$> declarations.meaning
    | none, none, none => pure none
  let value ← meaningOf (phrase.first? .expression)
  match declared? with
  | some declared => phrase.node "VariableDeclarationStatement" [("variables",declared),("initialValue",value)]
  | none => throw .noVariables

def inlineAssemblyStatement (phrase : Phrase) : Meaning := do
  let language := (phrase.token? .stringFragment).map fun name => inner name.text
  let body ← meaningOf (phrase.first? .assemblyBlock)
  phrase.node "InLineAssemblyStatement" [("language",.ofOption language),("body",body)]

end SolReader.Phrase
