import SolReader.KindSet
import SolReader.Text.Pattern

namespace SolReader.Lexicon

open Pattern

def digit : Pattern := among [('0','9')]

def hexDigit : Pattern := among [('0','9'),('A','F'),('a','f')]

def grouped (d : Pattern) : Pattern :=
  d.andThen (.star ((optional (one '_')).andThen d))

def digits : Pattern := many1 digit

def sized (stem : String) (sizes : List Nat) : Pattern :=
  (word stem).andThen (optional (words (sizes.map toString)))

def bitSizes : List Nat := (List.range 32).map fun n => 8 * (n + 1)

def byteSizes : List Nat := (List.range 32).map (· + 1)

def scaled (stem : String) : Pattern :=
  (word stem).andThen (optional (sequence [digits,one 'x',digits]))

def decimalNumber : Pattern :=
  sequence [
    (grouped digit).orElse (sequence [optional (grouped digit),one '.',grouped digit]),
    optional (sequence [among [('E','E'),('e','e')],grouped digit])]

def hexNumber : Pattern :=
  sequence [one '0',among [('X','X'),('x','x')],grouped hexDigit]

def quotedHex (quote : Char) : Pattern :=
  sequence [one quote,optional (grouped hexDigit),one quote]

def hexFragment : Pattern :=
  (word "hex").andThen ((quotedHex '"').orElse (quotedHex '\''))

-- A string in the given quotes: no line end and no bare quote inside, and a backslash takes the next character with it
-- whatever that is.
def quotedString (quote : Char) : Pattern :=
  let plain := Pattern.char (.except ['\n','\r',quote,'\\'])
  let escaped := (one '\\').andThen (.char .any)
  sequence [one quote,.star (plain.orElse escaped),one quote]

def stringFragment : Pattern :=
  (optional (word "unicode")).andThen ((quotedString '"').orElse (quotedString '\''))

def identifierStart : Pattern := among [('$','$'),('A','Z'),('_','_'),('a','z')]

def identifierPart : Pattern := among [('$','$'),('0','9'),('A','Z'),('_','_'),('a','z')]

def identifier : Pattern := identifierStart.andThen (.star identifierPart)

def versionLiteral : Pattern :=
  sequence [digits,one '.',digits,optional ((one '.').andThen digits)]

def whitespace : Pattern := many1 (among [('\t','\n'),('\x0c','\r'),(' ',' ')])

-- A comment runs to the first `*/` after its opening, so the inside never holds one.
def blockComment : Pattern :=
  let inside := (Pattern.char (.except ['*'])).orElse
    ((many1 (one '*')).andThen (.char (.except ['*','/'])))
  sequence [word "/*",.star inside,many1 (one '*'),one '/']

def lineComment : Pattern :=
  (word "//").andThen (.star (.char (.except ['\n','\r'])))

def numberUnits : List String :=
  ["wei","gwei","szabo","finney","ether","seconds","minutes","hours","days","weeks","years"]

def reservedWords : List String :=
  ["abstract","after","case","catch","default","final","in","inline","let","match","null","of",
   "relocatable","static","switch","try","typeof"]

def pattern (kind : Kind) : Pattern :=
  match kind.spelling? with
  | some text => word text
  | none =>
    match kind with
    | .intType => sized "int" bitSizes
    | .uintType => sized "uint" bitSizes
    | .bytesType => sized "bytes" byteSizes
    | .fixedType => scaled "fixed"
    | .ufixedType => scaled "ufixed"
    | .booleanLiteral => words ["true","false"]
    | .decimalNumber => decimalNumber
    | .hexNumber => hexNumber
    | .numberUnit => words numberUnits
    | .hexFragment => hexFragment
    | .reservedWord => words reservedWords
    | .identifier => identifier
    | .stringFragment => stringFragment
    | .versionLiteral => versionLiteral
    | .whitespace => whitespace
    | .blockComment => blockComment
    | .lineComment => lineComment
    | _ => .never

def rules : List (Kind × Pattern) :=
  Kind.all.map fun kind => (kind,pattern kind)

end SolReader.Lexicon
