namespace SolReader

inductive Rule where
  | sourceUnit | pragmaDirective | pragmaName | pragmaValue | version | versionOperator | versionConstraint
  | importDeclaration | importDirective | importPath | contractDefinition | inheritanceSpecifier | contractPart
  | stateVariableDeclaration | fileLevelConstant | customErrorDefinition | typeDefinition | usingForDeclaration
  | structDefinition | modifierDefinition | modifierInvocation | functionDefinition | functionDescriptor
  | returnParameters | modifierList | eventDefinition | enumValue | enumDefinition | parameterList | parameter
  | eventParameterList | eventParameter | functionTypeParameterList | functionTypeParameter
  | variableDeclaration | typeName | userDefinedTypeName | mappingKey | mapping | functionTypeName
  | storageLocation | stateMutability | block | statement | expressionStatement | ifStatement | tryStatement
  | catchClause | whileStatement | simpleStatement | uncheckedStatement | forStatement
  | inlineAssemblyStatement | doWhileStatement | continueStatement | breakStatement | returnStatement
  | throwStatement | emitStatement | revertStatement | variableDeclarationStatement | variableDeclarationList
  | identifierList | elementaryTypeName | expression | primaryExpression | expressionList | nameValueList
  | nameValue | functionCallArguments | functionCall | assemblyBlock | assemblyItem | assemblyExpression
  | assemblyMember | assemblyCall | assemblyLocalDefinition | assemblyAssignment | assemblyIdentifierOrList
  | assemblyIdentifierList | assemblyStackAssignment | labelDefinition | assemblySwitch | assemblyCase
  | assemblyFunctionDefinition | assemblyFunctionReturns | assemblyFor | assemblyIf | assemblyLiteral
  | subAssembly | tupleExpression | typeNameExpression | numberLiteral | identifier | hexLiteral
  | overrideSpecifier | stringLiteral
  deriving DecidableEq, Repr, Inhabited

namespace Rule

def all : List Rule := [
  .sourceUnit,.pragmaDirective,.pragmaName,.pragmaValue,.version,.versionOperator,.versionConstraint,
  .importDeclaration,.importDirective,.importPath,.contractDefinition,.inheritanceSpecifier,.contractPart,
  .stateVariableDeclaration,.fileLevelConstant,.customErrorDefinition,.typeDefinition,.usingForDeclaration,
  .structDefinition,.modifierDefinition,.modifierInvocation,.functionDefinition,.functionDescriptor,
  .returnParameters,.modifierList,.eventDefinition,.enumValue,.enumDefinition,.parameterList,.parameter,
  .eventParameterList,.eventParameter,.functionTypeParameterList,.functionTypeParameter,
  .variableDeclaration,.typeName,.userDefinedTypeName,.mappingKey,.mapping,.functionTypeName,
  .storageLocation,.stateMutability,.block,.statement,.expressionStatement,.ifStatement,.tryStatement,
  .catchClause,.whileStatement,.simpleStatement,.uncheckedStatement,.forStatement,
  .inlineAssemblyStatement,.doWhileStatement,.continueStatement,.breakStatement,.returnStatement,
  .throwStatement,.emitStatement,.revertStatement,.variableDeclarationStatement,.variableDeclarationList,
  .identifierList,.elementaryTypeName,.expression,.primaryExpression,.expressionList,.nameValueList,
  .nameValue,.functionCallArguments,.functionCall,.assemblyBlock,.assemblyItem,.assemblyExpression,
  .assemblyMember,.assemblyCall,.assemblyLocalDefinition,.assemblyAssignment,.assemblyIdentifierOrList,
  .assemblyIdentifierList,.assemblyStackAssignment,.labelDefinition,.assemblySwitch,.assemblyCase,
  .assemblyFunctionDefinition,.assemblyFunctionReturns,.assemblyFor,.assemblyIf,.assemblyLiteral,
  .subAssembly,.tupleExpression,.typeNameExpression,.numberLiteral,.identifier,.hexLiteral,
  .overrideSpecifier,.stringLiteral]

def name : Rule → String
  | .sourceUnit => "sourceUnit"
  | .pragmaDirective => "pragmaDirective"
  | .pragmaName => "pragmaName"
  | .pragmaValue => "pragmaValue"
  | .version => "version"
  | .versionOperator => "versionOperator"
  | .versionConstraint => "versionConstraint"
  | .importDeclaration => "importDeclaration"
  | .importDirective => "importDirective"
  | .importPath => "importPath"
  | .contractDefinition => "contractDefinition"
  | .inheritanceSpecifier => "inheritanceSpecifier"
  | .contractPart => "contractPart"
  | .stateVariableDeclaration => "stateVariableDeclaration"
  | .fileLevelConstant => "fileLevelConstant"
  | .customErrorDefinition => "customErrorDefinition"
  | .typeDefinition => "typeDefinition"
  | .usingForDeclaration => "usingForDeclaration"
  | .structDefinition => "structDefinition"
  | .modifierDefinition => "modifierDefinition"
  | .modifierInvocation => "modifierInvocation"
  | .functionDefinition => "functionDefinition"
  | .functionDescriptor => "functionDescriptor"
  | .returnParameters => "returnParameters"
  | .modifierList => "modifierList"
  | .eventDefinition => "eventDefinition"
  | .enumValue => "enumValue"
  | .enumDefinition => "enumDefinition"
  | .parameterList => "parameterList"
  | .parameter => "parameter"
  | .eventParameterList => "eventParameterList"
  | .eventParameter => "eventParameter"
  | .functionTypeParameterList => "functionTypeParameterList"
  | .functionTypeParameter => "functionTypeParameter"
  | .variableDeclaration => "variableDeclaration"
  | .typeName => "typeName"
  | .userDefinedTypeName => "userDefinedTypeName"
  | .mappingKey => "mappingKey"
  | .mapping => "mapping"
  | .functionTypeName => "functionTypeName"
  | .storageLocation => "storageLocation"
  | .stateMutability => "stateMutability"
  | .block => "block"
  | .statement => "statement"
  | .expressionStatement => "expressionStatement"
  | .ifStatement => "ifStatement"
  | .tryStatement => "tryStatement"
  | .catchClause => "catchClause"
  | .whileStatement => "whileStatement"
  | .simpleStatement => "simpleStatement"
  | .uncheckedStatement => "uncheckedStatement"
  | .forStatement => "forStatement"
  | .inlineAssemblyStatement => "inlineAssemblyStatement"
  | .doWhileStatement => "doWhileStatement"
  | .continueStatement => "continueStatement"
  | .breakStatement => "breakStatement"
  | .returnStatement => "returnStatement"
  | .throwStatement => "throwStatement"
  | .emitStatement => "emitStatement"
  | .revertStatement => "revertStatement"
  | .variableDeclarationStatement => "variableDeclarationStatement"
  | .variableDeclarationList => "variableDeclarationList"
  | .identifierList => "identifierList"
  | .elementaryTypeName => "elementaryTypeName"
  | .expression => "expression"
  | .primaryExpression => "primaryExpression"
  | .expressionList => "expressionList"
  | .nameValueList => "nameValueList"
  | .nameValue => "nameValue"
  | .functionCallArguments => "functionCallArguments"
  | .functionCall => "functionCall"
  | .assemblyBlock => "assemblyBlock"
  | .assemblyItem => "assemblyItem"
  | .assemblyExpression => "assemblyExpression"
  | .assemblyMember => "assemblyMember"
  | .assemblyCall => "assemblyCall"
  | .assemblyLocalDefinition => "assemblyLocalDefinition"
  | .assemblyAssignment => "assemblyAssignment"
  | .assemblyIdentifierOrList => "assemblyIdentifierOrList"
  | .assemblyIdentifierList => "assemblyIdentifierList"
  | .assemblyStackAssignment => "assemblyStackAssignment"
  | .labelDefinition => "labelDefinition"
  | .assemblySwitch => "assemblySwitch"
  | .assemblyCase => "assemblyCase"
  | .assemblyFunctionDefinition => "assemblyFunctionDefinition"
  | .assemblyFunctionReturns => "assemblyFunctionReturns"
  | .assemblyFor => "assemblyFor"
  | .assemblyIf => "assemblyIf"
  | .assemblyLiteral => "assemblyLiteral"
  | .subAssembly => "subAssembly"
  | .tupleExpression => "tupleExpression"
  | .typeNameExpression => "typeNameExpression"
  | .numberLiteral => "numberLiteral"
  | .identifier => "identifier"
  | .hexLiteral => "hexLiteral"
  | .overrideSpecifier => "overrideSpecifier"
  | .stringLiteral => "stringLiteral"

def ofName? (name : String) : Option Rule :=
  all.find? (·.name == name)

end Rule

end SolReader
