namespace SolReader

-- The kinds stand in the order in which a message lists them.
inductive Kind where
  | eof | kwPragma | semicolon | orOr | caret | tilde | ge | gt | lt | le | assign | kwAs | kwImport | star
  | kwFrom | lbrace | comma | rbrace | kwAbstract | kwContract | kwInterface | kwLibrary | kwIs | lparen
  | rparen | kwError | kwUsing | kwFor | kwStruct | kwModifier | kwFunction | kwReturns | kwEvent | kwEnum
  | lbracket | rbracket | kwAddress | dot | kwMapping | fatArrow | kwMemory | kwStorage | kwCalldata | kwIf
  | kwElse | kwTry | kwCatch | kwWhile | kwUnchecked | kwAssembly | kwDo | kwReturn | kwThrow | kwEmit
  | kwRevert | kwVar | kwBool | kwString | kwByte | plusPlus | minusMinus | kwNew | colon | plus | minus
  | kwAfter | kwDelete | bang | starStar | slash | percent | shl | shr | amp | pipe | eqEq | bangEq | andAnd
  | question | pipeAssign | caretAssign | ampAssign | shlAssign | shrAssign | plusAssign | minusAssign
  | starAssign | slashAssign | percentAssign | kwLet | colonAssign | assignColon | kwSwitch | kwCase
  | kwDefault | arrow | kwCallback | kwOverride | intType | uintType | bytesType | fixedType | ufixedType
  | booleanLiteral | decimalNumber | hexNumber | numberUnit | hexFragment | reservedWord | kwAnonymous
  | kwBreak | kwConstant | kwImmutable | kwContinue | kwLeave | kwExternal | kwIndexed | kwInternal | kwPayable
  | kwPrivate | kwPublic | kwVirtual | kwPure | kwType | kwView | kwConstructor | kwFallback | kwReceive
  | identifier | stringFragment | versionLiteral | whitespace | blockComment | lineComment
  deriving DecidableEq, Repr, Inhabited

namespace Kind

def all : List Kind := [
  .eof,.kwPragma,.semicolon,.orOr,.caret,.tilde,.ge,.gt,.lt,.le,.assign,.kwAs,.kwImport,.star,
  .kwFrom,.lbrace,.comma,.rbrace,.kwAbstract,.kwContract,.kwInterface,.kwLibrary,.kwIs,.lparen,
  .rparen,.kwError,.kwUsing,.kwFor,.kwStruct,.kwModifier,.kwFunction,.kwReturns,.kwEvent,.kwEnum,
  .lbracket,.rbracket,.kwAddress,.dot,.kwMapping,.fatArrow,.kwMemory,.kwStorage,.kwCalldata,.kwIf,
  .kwElse,.kwTry,.kwCatch,.kwWhile,.kwUnchecked,.kwAssembly,.kwDo,.kwReturn,.kwThrow,.kwEmit,
  .kwRevert,.kwVar,.kwBool,.kwString,.kwByte,.plusPlus,.minusMinus,.kwNew,.colon,.plus,.minus,
  .kwAfter,.kwDelete,.bang,.starStar,.slash,.percent,.shl,.shr,.amp,.pipe,.eqEq,.bangEq,.andAnd,
  .question,.pipeAssign,.caretAssign,.ampAssign,.shlAssign,.shrAssign,.plusAssign,.minusAssign,
  .starAssign,.slashAssign,.percentAssign,.kwLet,.colonAssign,.assignColon,.kwSwitch,.kwCase,
  .kwDefault,.arrow,.kwCallback,.kwOverride,.intType,.uintType,.bytesType,.fixedType,.ufixedType,
  .booleanLiteral,.decimalNumber,.hexNumber,.numberUnit,.hexFragment,.reservedWord,.kwAnonymous,
  .kwBreak,.kwConstant,.kwImmutable,.kwContinue,.kwLeave,.kwExternal,.kwIndexed,.kwInternal,.kwPayable,
  .kwPrivate,.kwPublic,.kwVirtual,.kwPure,.kwType,.kwView,.kwConstructor,.kwFallback,.kwReceive,
  .identifier,.stringFragment,.versionLiteral,.whitespace,.blockComment,.lineComment]

def spelling? : Kind → Option String
  | .kwPragma => "pragma"
  | .semicolon => ";"
  | .orOr => "||"
  | .caret => "^"
  | .tilde => "~"
  | .ge => ">="
  | .gt => ">"
  | .lt => "<"
  | .le => "<="
  | .assign => "="
  | .kwAs => "as"
  | .kwImport => "import"
  | .star => "*"
  | .kwFrom => "from"
  | .lbrace => "\x7b"
  | .comma => ","
  | .rbrace => "\x7d"
  | .kwAbstract => "abstract"
  | .kwContract => "contract"
  | .kwInterface => "interface"
  | .kwLibrary => "library"
  | .kwIs => "is"
  | .lparen => "("
  | .rparen => ")"
  | .kwError => "error"
  | .kwUsing => "using"
  | .kwFor => "for"
  | .kwStruct => "struct"
  | .kwModifier => "modifier"
  | .kwFunction => "function"
  | .kwReturns => "returns"
  | .kwEvent => "event"
  | .kwEnum => "enum"
  | .lbracket => "["
  | .rbracket => "]"
  | .kwAddress => "address"
  | .dot => "."
  | .kwMapping => "mapping"
  | .fatArrow => "=>"
  | .kwMemory => "memory"
  | .kwStorage => "storage"
  | .kwCalldata => "calldata"
  | .kwIf => "if"
  | .kwElse => "else"
  | .kwTry => "try"
  | .kwCatch => "catch"
  | .kwWhile => "while"
  | .kwUnchecked => "unchecked"
  | .kwAssembly => "assembly"
  | .kwDo => "do"
  | .kwReturn => "return"
  | .kwThrow => "throw"
  | .kwEmit => "emit"
  | .kwRevert => "revert"
  | .kwVar => "var"
  | .kwBool => "bool"
  | .kwString => "string"
  | .kwByte => "byte"
  | .plusPlus => "++"
  | .minusMinus => "--"
  | .kwNew => "new"
  | .colon => ":"
  | .plus => "+"
  | .minus => "-"
  | .kwAfter => "after"
  | .kwDelete => "delete"
  | .bang => "!"
  | .starStar => "**"
  | .slash => "/"
  | .percent => "%"
  | .shl => "<<"
  | .shr => ">>"
  | .amp => "&"
  | .pipe => "|"
  | .eqEq => "=="
  | .bangEq => "!="
  | .andAnd => "&&"
  | .question => "?"
  | .pipeAssign => "|="
  | .caretAssign => "^="
  | .ampAssign => "&="
  | .shlAssign => "<<="
  | .shrAssign => ">>="
  | .plusAssign => "+="
  | .minusAssign => "-="
  | .starAssign => "*="
  | .slashAssign => "/="
  | .percentAssign => "%="
  | .kwLet => "let"
  | .colonAssign => ":="
  | .assignColon => "=:"
  | .kwSwitch => "switch"
  | .kwCase => "case"
  | .kwDefault => "default"
  | .arrow => "->"
  | .kwCallback => "callback"
  | .kwOverride => "override"
  | .kwAnonymous => "anonymous"
  | .kwBreak => "break"
  | .kwConstant => "constant"
  | .kwImmutable => "immutable"
  | .kwContinue => "continue"
  | .kwLeave => "leave"
  | .kwExternal => "external"
  | .kwIndexed => "indexed"
  | .kwInternal => "internal"
  | .kwPayable => "payable"
  | .kwPrivate => "private"
  | .kwPublic => "public"
  | .kwVirtual => "virtual"
  | .kwPure => "pure"
  | .kwType => "type"
  | .kwView => "view"
  | .kwConstructor => "constructor"
  | .kwFallback => "fallback"
  | .kwReceive => "receive"
  | _ => none

def title? : Kind → Option String
  | .eof => "EOF"
  | .intType => "Int"
  | .uintType => "Uint"
  | .bytesType => "Byte"
  | .fixedType => "Fixed"
  | .ufixedType => "Ufixed"
  | .booleanLiteral => "BooleanLiteral"
  | .decimalNumber => "DecimalNumber"
  | .hexNumber => "HexNumber"
  | .numberUnit => "NumberUnit"
  | .hexFragment => "HexLiteralFragment"
  | .reservedWord => "ReservedKeyword"
  | .kwAnonymous => "AnonymousKeyword"
  | .kwBreak => "BreakKeyword"
  | .kwConstant => "ConstantKeyword"
  | .kwImmutable => "ImmutableKeyword"
  | .kwContinue => "ContinueKeyword"
  | .kwLeave => "LeaveKeyword"
  | .kwExternal => "ExternalKeyword"
  | .kwIndexed => "IndexedKeyword"
  | .kwInternal => "InternalKeyword"
  | .kwPayable => "PayableKeyword"
  | .kwPrivate => "PrivateKeyword"
  | .kwPublic => "PublicKeyword"
  | .kwVirtual => "VirtualKeyword"
  | .kwPure => "PureKeyword"
  | .kwType => "TypeKeyword"
  | .kwView => "ViewKeyword"
  | .kwConstructor => "ConstructorKeyword"
  | .kwFallback => "FallbackKeyword"
  | .kwReceive => "ReceiveKeyword"
  | .identifier => "Identifier"
  | .stringFragment => "StringLiteralFragment"
  | .versionLiteral => "VersionLiteral"
  | .whitespace => "WS"
  | .blockComment => "COMMENT"
  | .lineComment => "LINE_COMMENT"
  | _ => none

def code (kind : Kind) : Int :=
  if kind = .eof then -1 else kind.ctorIdx

def name (kind : Kind) : String :=
  match kind.spelling? with
  | some text => "'" ++ text ++ "'"
  | none => kind.title?.getD ""

def expectation (kind : Kind) : String :=
  if kind = .eof then "<EOF>" else kind.name

-- What a made-up token is called. A kind with many spellings that is listed before the last of the fixed words has no
-- name of its own there.
def placeholder (kind : Kind) : String :=
  if kind.spelling?.isNone && kind ≠ .eof && kind.ctorIdx ≤ Kind.kwReceive.ctorIdx then "<INVALID>" else kind.name

def isHidden (kind : Kind) : Bool :=
  kind = .blockComment || kind = .lineComment

end Kind

end SolReader
