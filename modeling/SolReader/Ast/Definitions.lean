import SolReader.Ast.Assembly
import SolReader.Ast.Statements

namespace SolReader.Phrase

open SolReader.Part

-- The last part, the end of the text, is no definition.
def sourceUnit (phrase : Phrase) : Meaning := do
  if phrase.parts.isEmpty then throw (.unindexed .nothing)
  phrase.node "SourceUnit" [("children",← listOf phrase.parts.dropLast)]

def pragmaDirective (phrase : Phrase) : Meaning := do
  let name ← textOf (phrase.first? .pragmaName)
  let value ← textOf (phrase.first? .pragmaValue)
  phrase.node "PragmaDirective" [("name",.text name),("value",.text value)]

def unquoted (text : String) : String :=
  let isQuote := fun c : Char => c == '"'
  String.ofList (((text.toList.dropWhile isQuote).reverse.dropWhile isQuote).reverse)

def symbolAlias (declaration : Part) : Except Fault (String × Value) := do
  let names := all .identifier declaration.parts
  let name ← textOf names[0]?
  return (name,optionalText names[1]?)

-- An alias for the whole file is told by the number of parts.
def importDirective (phrase : Phrase) : Meaning := do
  let symbols ← (phrase.allOf .importDeclaration).mapM symbolAlias
  let unit ← if !symbols.isEmpty then pure .null else do
    let count ← phrase.count
    if count = 7 || count = 5 then pure (.text (← textAt phrase 3)) else pure .null
  let path ← textOf (phrase.first? .importPath)
  phrase.node "ImportDirective" [("path",.text (unquoted path)),("symbolAliases",.record (Fields.ofList symbols)),
    ("unitAlias",unit)]

def contractDefinition (phrase : Phrase) : Meaning := do
  let name ← textOf (phrase.first? .identifier)
  let bases ← listOf (phrase.allOf .inheritanceSpecifier)
  let parts ← listOf (phrase.allOf .contractPart)
  let kind ← textAt phrase 0
  phrase.node "ContractDefinition" [("name",.text name),("baseContracts",bases),("subNodes",parts),
    ("kind",.text kind)]

def inheritanceSpecifier (phrase : Phrase) : Meaning := do
  let base ← meaningOf (phrase.first? .userDefinedTypeName)
  let values ← meaningOf (phrase.first? .expressionList)
  phrase.node "InheritanceSpecifier" [("baseName",base),("arguments",values)]

def contractPart (phrase : Phrase) : Meaning :=
  match phrase.parts with
  | [] => .error (.unindexed .nothing)
  | part :: _ => part.meaning

def enumDefinition (phrase : Phrase) : Meaning := do
  let name ← textOf (phrase.first? .identifier)
  let members ← listOf (phrase.allOf .enumValue)
  phrase.node "EnumDefinition" [("name",.text name),("members",members)]

def structDefinition (phrase : Phrase) : Meaning := do
  let name ← textOf (phrase.first? .identifier)
  let members ← listOf (phrase.allOf .variableDeclaration)
  phrase.node "StructDefinition" [("name",.text name),("members",members)]

def typeDefinition (phrase : Phrase) : Meaning := do
  let keyword ← textOf (phrase.token? .kwType)
  let type ← meaningOf (phrase.first? .elementaryTypeName)
  phrase.node "TypeDefinition" [("typeKeyword",.text keyword),("elementaryTypeName",type)]

def customErrorDefinition (phrase : Phrase) : Meaning := do
  let name ← meaningOf (phrase.first? .identifier)
  let parameters ← meaningOf (phrase.first? .parameterList)
  phrase.node "CustomErrorDefinition" [("name",name),("parameterList",parameters)]

def fileLevelConstant (phrase : Phrase) : Meaning := do
  let name ← meaningOf (phrase.first? .identifier)
  let type ← meaningOf (phrase.first? .typeName)
  let keyword ← meaningOf (phrase.token? .kwConstant)
  phrase.node "FileLevelConstant" [("name",name),("typeName",type),("ConstantKeyword",keyword)]

def usingForDeclaration (phrase : Phrase) : Meaning := do
  let type ← meaningAt phrase 3
  let library ← textOf (phrase.first? .identifier)
  phrase.node "UsingForDeclaration" [("typeName",type),("libraryName",.text library)]

def wordAmong (parts : List Part) (words : List (Kind × String)) : String :=
  match words.find? fun (kind,_) => parts.any (·.kind? == some kind) with
  | some (_,word) => word
  | none => "default"

-- The name of a function and whether it is the constructor, the fallback or the receiver. A function without a name
-- goes by its whole text.
def functionName (phrase : Phrase) : Except Fault (String × Bool × Bool × Bool) :=
  match phrase.first? .functionDescriptor with
  | none => .error (.noPart .nothing "ConstructorKeyword")
  | some descriptor =>
    let token? (kind : Kind) := descriptor.parts.find? (·.kind? == some kind)
    match token? .kwConstructor, token? .kwFallback, token? .kwReceive,
      (all .identifier descriptor.parts).head? with
    | some keyword, _, _, _ => .ok (keyword.text,true,false,false)
    | none, some keyword, _, _ => .ok (keyword.text,false,true,false)
    | none, none, some keyword, _ => .ok (keyword.text,false,false,true)
    | none, none, none, some name => .ok (name.text,false,false,false)
    | none, none, none, none => .ok (phrase.text,false,false,false)

def meaningOrEmpty (part? : Option Part) : Meaning :=
  match part? with
  | some part => part.meaning
  | none => .ok (.list [])

def functionDefinition (phrase : Phrase) : Meaning := do
  let (name,isConstructor,isFallback,isReceive) ← phrase.functionName
  let parameters ← meaningOf (phrase.first? .parameterList)
  let returns ← meaningOrEmpty (phrase.first? .returnParameters)
  let body ← meaningOrEmpty (phrase.first? .block)
  let modifierList := phrase.first? .modifierList
  let modifiers ← listOf (← within modifierList .modifierInvocation "modifierInvocation")
  let marks := (modifierList.map Part.parts).getD []
  let visibility := wordAmong marks [(.kwExternal,"external"),(.kwInternal,"internal"),(.kwPublic,"public"),
    (.kwPrivate,"private")]
  phrase.node "FunctionDefinition" [("name",.text name),("parameters",parameters),("returnParameters",returns),
    ("body",body),("visibility",.text visibility),("modifiers",modifiers),
    ("isConstructor",.bool isConstructor),("isFallback",.bool isFallback),("isReceive",.bool isReceive),
    ("stateMutability",optionalText (all .stateMutability marks).head?)]

def parameterList (phrase : Phrase) : Meaning := do
  phrase.node "ParameterList" [("parameters",← listOf (phrase.allOf .parameter))]

def parameter (phrase : Phrase) : Meaning := do
  let type ← meaningOf (phrase.first? .typeName)
  phrase.node "Parameter" [("typeName",type),("name",optionalText (phrase.first? .identifier)),
    ("storageLocation",optionalText (phrase.first? .storageLocation)),("isStateVar",.bool false),
    ("isIndexed",.bool false)]

def modifierInvocation (phrase : Phrase) : Meaning := do
  let values ← match phrase.first? .expressionList with
    | some list => listOf (all .expression list.parts)
    | none => pure (.list [])
  let name ← textOf (phrase.first? .identifier)
  phrase.node "ModifierInvocation" [("name",.text name),("arguments",values)]

def modifierDefinition (phrase : Phrase) : Meaning := do
  let parameters ← meaningOrEmpty (phrase.first? .parameterList)
  let name ← textOf (phrase.first? .identifier)
  let body ← meaningOf (phrase.first? .block)
  phrase.node "ModifierDefinition" [("name",.text name),("parameters",parameters),("body",body)]

def variableDeclaration (phrase : Phrase) : Meaning := do
  let type ← meaningOf (phrase.first? .typeName)
  let name ← textOf (phrase.first? .identifier)
  phrase.node "VariableDeclaration" [("typeName",type),("name",.text name),
    ("storageLocation",optionalText (phrase.first? .storageLocation))]

-- The value of a state variable stands both in its declaration and beside it.
def stateVariableDeclaration (phrase : Phrase) : Meaning := do
  let type ← meaningOf (phrase.first? .typeName)
  let name ← textOf (phrase.first? .identifier)
  let value ← meaningOf (phrase.first? .expression)
  let visibility := wordAmong phrase.parts [(.kwInternal,"internal"),(.kwPublic,"public"),
    (.kwPrivate,"private")]
  let declared ← phrase.node "VariableDeclaration" [("typeName",type),("name",.text name),("expression",value),
    ("visibility",.text visibility),("isStateVar",.bool true),
    ("isDeclaredConst",.bool (phrase.token? .kwConstant).isSome),("isIndexed",.bool false)]
  phrase.node "StateVariableDeclaration" [("variables",.list [declared]),("initialValue",value)]

def eventDefinition (phrase : Phrase) : Meaning := do
  let name ← textOf (phrase.first? .identifier)
  let parameters ← meaningOf (phrase.first? .eventParameterList)
  phrase.node "EventDefinition" [("name",.text name),("parameters",parameters),
    ("isAnonymous",.bool (phrase.token? .kwAnonymous).isSome)]

-- A parameter of an event, placed where the whole list stands.
def listedEventParameter (phrase : Phrase) (parameter : Part) : Meaning := do
  let type ← meaningOf (all .typeName parameter.parts).head?
  let isIndexed := parameter.parts.any (·.kind? == some .kwIndexed)
  phrase.node "VariableDeclaration" [("typeName",type),
    ("name",optionalText (all .identifier parameter.parts).head?),("isStateVar",.bool false),
    ("isIndexed",.bool isIndexed)]

def eventParameterList (phrase : Phrase) : Meaning := do
  let parameters ← (phrase.allOf .eventParameter).mapM phrase.listedEventParameter
  phrase.node "ParameterList" [("parameters",.list parameters)]

def eventParameter (phrase : Phrase) : Meaning := do
  let type ← meaningOf (phrase.first? .typeName)
  let name ← textOf (phrase.first? .identifier)
  phrase.node "VariableDeclaration" [("typeName",type),("name",.text name),("storageLocation",.null),
    ("isStateVar",.bool false),("isIndexed",.bool (phrase.token? .kwIndexed).isSome)]

end SolReader.Phrase
