import SolReader.Ast.Part

namespace SolReader.Phrase

open SolReader.Part

def inner (text : String) : String :=
  String.ofList ((text.toList.drop 1).dropLast)

def elementaryTypeName (phrase : Phrase) : Meaning :=
  phrase.node "ElementaryTypeName" [("name",.text phrase.text)]

def userDefinedTypeName (phrase : Phrase) : Meaning :=
  phrase.node "UserDefinedTypeName" [("namePath",.text phrase.text)]

-- A type with brackets is an array; two words are an elementary type with its mutability.
def typeName (phrase : Phrase) : Meaning := do
  let count ← phrase.count
  if count > 2 then
    let length ← if count = 4 then meaningAt phrase 2 else pure .null
    let base ← meaningAt phrase 0
    phrase.node "ArrayTypeName" [("baseTypeName",base),("length",length)]
  else if count = 2 then
    let name ← textAt phrase 0
    let mutability ← textAt phrase 1
    phrase.node "ElementaryTypeName" [("name",.text name),("stateMutability",.text mutability)]
  else meaningAt phrase 0

def mapping (phrase : Phrase) : Meaning := do
  let key ← meaningOf (phrase.first? .mappingKey)
  let value ← meaningOf (phrase.first? .typeName)
  phrase.node "Mapping" [("keyType",key),("valueType",value)]

def functionTypeName (phrase : Phrase) : Meaning := do
  let lists := phrase.allOf .functionTypeParameterList
  let parameters ← listOf (← within lists[0]? .functionTypeParameter "functionTypeParameter")
  let returns ← match lists[1]? with
    | some list => listOf (all .functionTypeParameter list.parts)
    | none => pure (.list [])
  let visibility := if (phrase.token? .kwInternal).isSome then "internal"
    else if (phrase.token? .kwExternal).isSome then "external" else "default"
  phrase.node "FunctionTypeName" [("parameterTypes",parameters),("returnTypes",returns),
    ("visibility",.text visibility),("stateMutability",optionalText (phrase.first? .stateMutability))]

def functionTypeParameter (phrase : Phrase) : Meaning := do
  let type ← meaningOf (phrase.first? .typeName)
  phrase.node "VariableDeclaration" [("typeName",type),("name",.null),
    ("storageLocation",optionalText (phrase.first? .storageLocation)),("isStateVar",.bool false),
    ("isIndexed",.bool false)]

end SolReader.Phrase
