import SolReader.Grammar.Form

namespace SolReader

namespace Form

def tok (kind : Kind) : Form Unit := .token () kind

def among (kinds : List Kind) : Form Unit := .oneOf () (.ofList kinds)

def sub (rule : Rule) : Form Unit := .call () rule 0

def subAt (rule : Rule) (level : Nat) : Form Unit := .call () rule level

def row : List (Form Unit) → Form Unit
  | [] => .skip
  | [form] => form
  | form :: rest => .seq form (row rest)

def pick (options : List (Form Unit)) : Form Unit := .choice () options

def opt (parts : List (Form Unit)) : Form Unit := .optional () (row parts)

def many (parts : List (Form Unit)) : Form Unit := .loop .many () () (row parts)

def many1 (parts : List (Form Unit)) : Form Unit := .loop .atLeastOne () () (row parts)

def commaList (form : Form Unit) : Form Unit := row [form,many [tok .comma,form]]

-- One round of the loop of a rule that begins with itself.
def suffix (level : Nat) (parts : List (Form Unit)) : Form Unit := row (.wrap () level :: parts)

end Form

open Form

-- The operators that take an operand on either side, with their levels and the level asked of the right operand.
def Rule.binaryOperators : List (Form Unit) := [
  suffix 14 [tok .starStar,subAt .expression 15],
  suffix 13 [among [.star,.slash,.percent],subAt .expression 14],
  suffix 12 [among [.plus,.minus],subAt .expression 13],
  suffix 11 [among [.shl,.shr],subAt .expression 12],
  suffix 10 [tok .amp,subAt .expression 11],
  suffix 9 [tok .caret,subAt .expression 10],
  suffix 8 [tok .pipe,subAt .expression 9],
  suffix 7 [among [.ge,.gt,.lt,.le],subAt .expression 8],
  suffix 6 [among [.eqEq,.bangEq],subAt .expression 7],
  suffix 5 [tok .andAnd,subAt .expression 6],
  suffix 4 [tok .orOr,subAt .expression 5],
  suffix 3 [tok .question,sub .expression,tok .colon,subAt .expression 4],
  suffix 2 [among [.assign,.pipeAssign,.caretAssign,.ampAssign,.shlAssign,.shrAssign,.plusAssign,.minusAssign,
    .starAssign,.slashAssign,.percentAssign],subAt .expression 3]]

def Rule.postfixForms : List (Form Unit) := [
  suffix 27 [among [.plusPlus,.minusMinus]],
  suffix 25 [tok .lbracket,sub .expression,tok .rbracket],
  suffix 24 [tok .lbracket,opt [sub .expression],tok .colon,opt [sub .expression],tok .rbracket],
  suffix 23 [tok .dot,sub .identifier],
  suffix 22 [tok .lbrace,sub .nameValueList,tok .rbrace],
  suffix 21 [tok .lparen,sub .functionCallArguments,tok .rparen]]

def Rule.body : Rule → Form Unit
  | .sourceUnit => row [
      many [pick [sub .pragmaDirective,sub .importDirective,sub .contractDefinition,sub .enumDefinition,
        sub .structDefinition,sub .functionDefinition,sub .fileLevelConstant,sub .customErrorDefinition,
        sub .typeDefinition]],
      tok .eof]
  | .pragmaDirective => row [tok .kwPragma,sub .pragmaName,sub .pragmaValue,tok .semicolon]
  | .pragmaName => sub .identifier
  | .pragmaValue => pick [sub .version,sub .expression]
  | .version => row [sub .versionConstraint,many [opt [tok .orOr],sub .versionConstraint]]
  | .versionOperator => among [.caret,.tilde,.ge,.gt,.lt,.le,.assign]
  | .versionConstraint => pick [
      row [opt [sub .versionOperator],tok .versionLiteral],
      row [opt [sub .versionOperator],tok .decimalNumber]]
  | .importDeclaration => row [sub .identifier,opt [tok .kwAs,sub .identifier]]
  | .importDirective => pick [
      row [tok .kwImport,sub .importPath,opt [tok .kwAs,sub .identifier],tok .semicolon],
      row [tok .kwImport,pick [tok .star,sub .identifier],opt [tok .kwAs,sub .identifier],tok .kwFrom,
        sub .importPath,tok .semicolon],
      row [tok .kwImport,tok .lbrace,commaList (sub .importDeclaration),tok .rbrace,tok .kwFrom,sub .importPath,
        tok .semicolon]]
  | .importPath => tok .stringFragment
  | .contractDefinition => row [
      opt [tok .kwAbstract],among [.kwContract,.kwInterface,.kwLibrary],sub .identifier,
      opt [tok .kwIs,commaList (sub .inheritanceSpecifier)],
      tok .lbrace,many [sub .contractPart],tok .rbrace]
  | .inheritanceSpecifier => row [
      sub .userDefinedTypeName,opt [tok .lparen,opt [sub .expressionList],tok .rparen]]
  | .contractPart => pick [
      sub .stateVariableDeclaration,sub .usingForDeclaration,sub .structDefinition,sub .modifierDefinition,
      sub .functionDefinition,sub .eventDefinition,sub .enumDefinition,sub .customErrorDefinition,
      sub .typeDefinition]
  | .stateVariableDeclaration => row [
      sub .typeName,
      many [pick [tok .kwPublic,tok .kwInternal,tok .kwPrivate,tok .kwConstant,tok .kwImmutable,
        sub .overrideSpecifier]],
      sub .identifier,opt [tok .assign,sub .expression],tok .semicolon]
  | .fileLevelConstant => row [
      sub .typeName,tok .kwConstant,sub .identifier,tok .assign,sub .expression,tok .semicolon]
  | .customErrorDefinition => row [tok .kwError,sub .identifier,sub .parameterList,tok .semicolon]
  | .typeDefinition => row [tok .kwType,sub .identifier,tok .kwIs,sub .elementaryTypeName,tok .semicolon]
  | .usingForDeclaration => row [
      tok .kwUsing,sub .identifier,tok .kwFor,pick [tok .star,sub .typeName],tok .semicolon]
  | .structDefinition => row [
      tok .kwStruct,sub .identifier,tok .lbrace,
      opt [sub .variableDeclaration,tok .semicolon,many [sub .variableDeclaration,tok .semicolon]],
      tok .rbrace]
  | .modifierDefinition => row [
      tok .kwModifier,sub .identifier,opt [sub .parameterList],
      many [pick [tok .kwVirtual,sub .overrideSpecifier]],pick [tok .semicolon,sub .block]]
  | .modifierInvocation => row [sub .identifier,opt [tok .lparen,opt [sub .expressionList],tok .rparen]]
  | .functionDefinition => row [
      sub .functionDescriptor,sub .parameterList,sub .modifierList,opt [sub .returnParameters],
      pick [tok .semicolon,sub .block]]
  | .functionDescriptor => pick [
      row [tok .kwFunction,opt [sub .identifier]],tok .kwConstructor,tok .kwFallback,tok .kwReceive]
  | .returnParameters => row [tok .kwReturns,sub .parameterList]
  | .modifierList => many [pick [
      tok .kwExternal,tok .kwPublic,tok .kwInternal,tok .kwPrivate,tok .kwVirtual,sub .stateMutability,
      sub .modifierInvocation,sub .overrideSpecifier]]
  | .eventDefinition => row [
      tok .kwEvent,sub .identifier,sub .eventParameterList,opt [tok .kwAnonymous],tok .semicolon]
  | .enumValue => sub .identifier
  | .enumDefinition => row [
      tok .kwEnum,sub .identifier,tok .lbrace,opt [sub .enumValue],many [tok .comma,sub .enumValue],tok .rbrace]
  | .parameterList => row [tok .lparen,opt [commaList (sub .parameter)],tok .rparen]
  | .parameter => row [sub .typeName,opt [sub .storageLocation],opt [sub .identifier]]
  | .eventParameterList => row [tok .lparen,opt [commaList (sub .eventParameter)],tok .rparen]
  | .eventParameter => row [sub .typeName,opt [tok .kwIndexed],opt [sub .identifier]]
  | .functionTypeParameterList => row [tok .lparen,opt [commaList (sub .functionTypeParameter)],tok .rparen]
  | .functionTypeParameter => row [sub .typeName,opt [sub .storageLocation]]
  | .variableDeclaration => row [sub .typeName,opt [sub .storageLocation],sub .identifier]
  | .typeName => row [
      pick [sub .elementaryTypeName,sub .userDefinedTypeName,sub .mapping,sub .functionTypeName,
        row [tok .kwAddress,tok .kwPayable]],
      many [suffix 3 [tok .lbracket,opt [sub .expression],tok .rbracket]]]
  | .userDefinedTypeName => row [sub .identifier,many [tok .dot,sub .identifier]]
  | .mappingKey => pick [sub .elementaryTypeName,sub .userDefinedTypeName]
  | .mapping => row [tok .kwMapping,tok .lparen,sub .mappingKey,tok .fatArrow,sub .typeName,tok .rparen]
  | .functionTypeName => row [
      tok .kwFunction,sub .functionTypeParameterList,
      many [pick [tok .kwInternal,tok .kwExternal,sub .stateMutability]],
      opt [tok .kwReturns,sub .functionTypeParameterList]]
  | .storageLocation => among [.kwMemory,.kwStorage,.kwCalldata]
  | .stateMutability => among [.kwConstant,.kwPayable,.kwPure,.kwView]
  | .block => row [tok .lbrace,many [sub .statement],tok .rbrace]
  | .statement => pick [
      sub .ifStatement,sub .tryStatement,sub .whileStatement,sub .forStatement,sub .block,
      sub .inlineAssemblyStatement,sub .doWhileStatement,sub .continueStatement,sub .breakStatement,
      sub .returnStatement,sub .throwStatement,sub .emitStatement,sub .simpleStatement,sub .uncheckedStatement,
      sub .revertStatement]
  | .expressionStatement => row [sub .expression,tok .semicolon]
  | .ifStatement => row [
      tok .kwIf,tok .lparen,sub .expression,tok .rparen,sub .statement,opt [tok .kwElse,sub .statement]]
  | .tryStatement => row [
      tok .kwTry,sub .expression,opt [sub .returnParameters],sub .block,many1 [sub .catchClause]]
  | .catchClause => row [tok .kwCatch,opt [opt [sub .identifier],sub .parameterList],sub .block]
  | .whileStatement => row [tok .kwWhile,tok .lparen,sub .expression,tok .rparen,sub .statement]
  | .simpleStatement => pick [sub .variableDeclarationStatement,sub .expressionStatement]
  | .uncheckedStatement => row [tok .kwUnchecked,sub .block]
  | .forStatement => row [
      tok .kwFor,tok .lparen,pick [sub .simpleStatement,tok .semicolon],
      pick [sub .expressionStatement,tok .semicolon],opt [sub .expression],tok .rparen,sub .statement]
  | .inlineAssemblyStatement => row [tok .kwAssembly,opt [tok .stringFragment],sub .assemblyBlock]
  | .doWhileStatement => row [
      tok .kwDo,sub .statement,tok .kwWhile,tok .lparen,sub .expression,tok .rparen,tok .semicolon]
  | .continueStatement => row [tok .kwContinue,tok .semicolon]
  | .breakStatement => row [tok .kwBreak,tok .semicolon]
  | .returnStatement => row [tok .kwReturn,opt [sub .expression],tok .semicolon]
  | .throwStatement => row [tok .kwThrow,tok .semicolon]
  | .emitStatement => row [tok .kwEmit,sub .functionCall,tok .semicolon]
  | .revertStatement => row [tok .kwRevert,sub .functionCall,tok .semicolon]
  | .variableDeclarationStatement => row [
      pick [row [tok .kwVar,sub .identifierList],sub .variableDeclaration,
        row [tok .lparen,sub .variableDeclarationList,tok .rparen]],
      opt [tok .assign,sub .expression],tok .semicolon]
  | .variableDeclarationList => row [
      opt [sub .variableDeclaration],many [tok .comma,opt [sub .variableDeclaration]]]
  | .identifierList => row [
      tok .lparen,many [opt [sub .identifier],tok .comma],opt [sub .identifier],tok .rparen]
  | .elementaryTypeName => among [
      .kwAddress,.kwVar,.kwBool,.kwString,.kwByte,.intType,.uintType,.bytesType,.fixedType,.ufixedType]
  | .expression => row [
      pick [
        row [tok .kwNew,sub .typeName],
        row [tok .lparen,sub .expression,tok .rparen],
        row [among [.plusPlus,.minusMinus],subAt .expression 19],
        row [among [.plus,.minus],subAt .expression 18],
        row [among [.kwAfter,.kwDelete],subAt .expression 17],
        row [tok .bang,subAt .expression 16],
        row [tok .tilde,subAt .expression 15],
        sub .primaryExpression],
      many [pick (binaryOperators ++ postfixForms)]]
  | .primaryExpression => pick [
      tok .booleanLiteral,sub .numberLiteral,sub .hexLiteral,sub .stringLiteral,
      row [sub .identifier,opt [tok .lbracket,tok .rbracket]],tok .kwType,tok .kwPayable,sub .tupleExpression,
      row [sub .typeNameExpression,opt [tok .lbracket,tok .rbracket]]]
  | .expressionList => commaList (sub .expression)
  | .nameValueList => row [commaList (sub .nameValue),opt [tok .comma]]
  | .nameValue => row [sub .identifier,tok .colon,sub .expression]
  | .functionCallArguments => pick [
      row [tok .lbrace,opt [sub .nameValueList],tok .rbrace],opt [sub .expressionList]]
  | .functionCall => row [sub .expression,tok .lparen,sub .functionCallArguments,tok .rparen]
  | .assemblyBlock => row [tok .lbrace,many [sub .assemblyItem],tok .rbrace]
  | .assemblyItem => pick [
      sub .identifier,sub .assemblyBlock,sub .assemblyExpression,sub .assemblyLocalDefinition,
      sub .assemblyAssignment,sub .assemblyStackAssignment,sub .labelDefinition,sub .assemblySwitch,
      sub .assemblyFunctionDefinition,sub .assemblyFor,sub .assemblyIf,tok .kwBreak,tok .kwContinue,tok .kwLeave,
      sub .subAssembly,sub .numberLiteral,sub .stringLiteral,sub .hexLiteral]
  | .assemblyExpression => pick [sub .assemblyCall,sub .assemblyLiteral,sub .assemblyMember]
  | .assemblyMember => row [sub .identifier,tok .dot,sub .identifier]
  | .assemblyCall => row [
      pick [tok .kwReturn,tok .kwAddress,tok .kwByte,sub .identifier],
      opt [tok .lparen,opt [sub .assemblyExpression],many [tok .comma,sub .assemblyExpression],tok .rparen]]
  | .assemblyLocalDefinition => row [
      tok .kwLet,sub .assemblyIdentifierOrList,opt [tok .colonAssign,sub .assemblyExpression]]
  | .assemblyAssignment => row [sub .assemblyIdentifierOrList,tok .colonAssign,sub .assemblyExpression]
  | .assemblyIdentifierOrList => pick [
      sub .identifier,sub .assemblyMember,row [tok .lparen,sub .assemblyIdentifierList,tok .rparen]]
  | .assemblyIdentifierList => commaList (sub .identifier)
  | .assemblyStackAssignment => row [tok .assignColon,sub .identifier]
  | .labelDefinition => row [sub .identifier,tok .colon]
  | .assemblySwitch => row [tok .kwSwitch,sub .assemblyExpression,many [sub .assemblyCase]]
  | .assemblyCase => pick [
      row [tok .kwCase,sub .assemblyLiteral,sub .assemblyBlock],row [tok .kwDefault,sub .assemblyBlock]]
  | .assemblyFunctionDefinition => row [
      tok .kwFunction,sub .identifier,tok .lparen,opt [sub .assemblyIdentifierList],tok .rparen,
      opt [sub .assemblyFunctionReturns],sub .assemblyBlock]
  | .assemblyFunctionReturns => row [tok .arrow,sub .assemblyIdentifierList]
  | .assemblyFor => row [
      tok .kwFor,pick [sub .assemblyBlock,sub .assemblyExpression],sub .assemblyExpression,
      pick [sub .assemblyBlock,sub .assemblyExpression],sub .assemblyBlock]
  | .assemblyIf => row [tok .kwIf,sub .assemblyExpression,sub .assemblyBlock]
  | .assemblyLiteral => pick [sub .stringLiteral,tok .decimalNumber,tok .hexNumber,sub .hexLiteral]
  | .subAssembly => row [tok .kwAssembly,sub .identifier,sub .assemblyBlock]
  | .tupleExpression => pick [
      row [tok .lparen,opt [sub .expression],many [tok .comma,opt [sub .expression]],tok .rparen],
      row [tok .lbracket,opt [commaList (sub .expression)],tok .rbracket]]
  | .typeNameExpression => pick [sub .elementaryTypeName,sub .userDefinedTypeName]
  | .numberLiteral => row [among [.decimalNumber,.hexNumber],opt [tok .numberUnit]]
  | .identifier => among [
      .kwFrom,.kwError,.kwCalldata,.kwRevert,.kwCallback,.kwLeave,.kwPayable,.kwConstructor,.kwReceive,
      .identifier]
  | .hexLiteral => many1 [tok .hexFragment]
  | .overrideSpecifier => row [
      tok .kwOverride,opt [tok .lparen,commaList (sub .userDefinedTypeName),tok .rparen]]
  | .stringLiteral => many1 [tok .stringFragment]

end SolReader
