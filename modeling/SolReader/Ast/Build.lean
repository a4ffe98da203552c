import SolReader.Ast.Definitions
import SolReader.Parse.Step

namespace SolReader

def Phrase.meaning (phrase : Phrase) : Rule → Meaning
  | .sourceUnit => phrase.sourceUnit
  | .pragmaDirective => phrase.pragmaDirective
  | .importDirective => phrase.importDirective
  | .contractDefinition => phrase.contractDefinition
  | .inheritanceSpecifier => phrase.inheritanceSpecifier
  | .contractPart => phrase.contractPart
  | .stateVariableDeclaration => phrase.stateVariableDeclaration
  | .fileLevelConstant => phrase.fileLevelConstant
  | .customErrorDefinition => phrase.customErrorDefinition
  | .typeDefinition => phrase.typeDefinition
  | .usingForDeclaration => phrase.usingForDeclaration
  | .structDefinition => phrase.structDefinition
  | .modifierDefinition => phrase.modifierDefinition
  | .modifierInvocation => phrase.modifierInvocation
  | .functionDefinition => phrase.functionDefinition
  | .returnParameters => Part.meaningOf (phrase.first? .parameterList)
  | .eventDefinition => phrase.eventDefinition
  | .enumValue => phrase.named "EnumValue"
  | .enumDefinition => phrase.enumDefinition
  | .parameterList => phrase.parameterList
  | .parameter => phrase.parameter
  | .eventParameterList => phrase.eventParameterList
  | .eventParameter => phrase.eventParameter
  | .functionTypeParameter => phrase.functionTypeParameter
  | .variableDeclaration => phrase.variableDeclaration
  | .typeName => phrase.typeName
  | .userDefinedTypeName => phrase.userDefinedTypeName
  | .mapping => phrase.mapping
  | .functionTypeName => phrase.functionTypeName
  | .block => phrase.block
  | .statement | .simpleStatement | .assemblyExpression => Part.meaningAt phrase 0
  | .expressionStatement => phrase.expressionStatement
  | .ifStatement => phrase.ifStatement
  | .tryStatement => phrase.tryStatement
  | .catchClause => phrase.catchClause
  | .whileStatement => phrase.whileLoop "WhileStatement"
  | .uncheckedStatement => phrase.uncheckedStatement
  | .forStatement => phrase.forStatement
  | .inlineAssemblyStatement => phrase.inlineAssemblyStatement
  | .doWhileStatement => phrase.whileLoop "DoWhileStatement"
  | .returnStatement => phrase.returnStatement
  | .throwStatement => phrase.throwStatement
  | .emitStatement => phrase.emitStatement
  | .revertStatement => phrase.revertStatement
  | .variableDeclarationStatement => phrase.variableDeclarationStatement
  | .variableDeclarationList => phrase.variableDeclarationList
  | .identifierList => phrase.identifierList
  | .elementaryTypeName => phrase.elementaryTypeName
  | .expression => phrase.expression
  | .primaryExpression => phrase.primaryExpression
  | .functionCall => phrase.functionCall
  | .assemblyBlock => phrase.assemblyBlock
  | .assemblyItem => phrase.assemblyItem
  | .assemblyMember => phrase.assemblyMember
  | .assemblyCall => phrase.assemblyCall
  | .assemblyLocalDefinition => phrase.assignment "AssemblyLocalDefinition"
  | .assemblyAssignment => phrase.assignment "AssemblyAssignment"
  | .assemblyStackAssignment => phrase.named "AssemblyStackAssignment"
  | .labelDefinition => phrase.named "LabelDefinition"
  | .assemblySwitch => phrase.assemblySwitch
  | .assemblyCase => phrase.assemblyCase
  | .assemblyFunctionDefinition => phrase.assemblyFunctionDefinition
  | .assemblyFor => phrase.assemblyFor
  | .assemblyIf => phrase.assemblyIf
  | .assemblyLiteral => phrase.assemblyLiteral
  | .tupleExpression => phrase.tupleExpression
  | .numberLiteral => phrase.numberLiteral
  | .identifier => phrase.identifier
  | _ => phrase.lastMeaning

namespace Tree

mutual

-- A tree with the meanings of all its pieces. A token means its text and an error means nothing.
def understood (located : Bool) : Tree → Part
  | .leaf token => .mk (.leaf token) [] (.ok (.text token.text))
  | .error token => .mk (.error token) [] (.ok .null)
  | .node rule start stop children =>
    let tree := .node rule start stop children
    let parts := allUnderstood located children
    .mk tree parts (Phrase.meaning ⟨tree,parts,located⟩ rule)

def allUnderstood (located : Bool) : List Tree → List Part
  | [] => []
  | tree :: trees => tree.understood located :: allUnderstood located trees

end

def meaning (located : Bool) (tree : Tree) : Meaning :=
  (tree.understood located).meaning

end Tree

def parse (text start : String) (located : Bool) : Meaning × List Diagnostic :=
  match Rule.ofName? start with
  | none => (.error (.unknownRule start),[])
  | some rule =>
    let reading := Reading.ofText rule text
    (reading.tree.meaning located,reading.diagnostics)

end SolReader
