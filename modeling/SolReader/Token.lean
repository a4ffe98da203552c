import SolReader.Kind

namespace SolReader

-- A place in a text. Lines count from one and columns from zero, and only a line feed starts a line.
structure Place where
  line : Nat
  column : Nat
  deriving DecidableEq, Repr, Inhabited

namespace Place

def start : Place := ⟨1,0⟩

def step (place : Place) (c : Char) : Place :=
  if c = '\n' then ⟨place.line + 1,0⟩ else ⟨place.line,place.column + 1⟩

def advance (place : Place) (text : List Char) : Place :=
  text.foldl step place

end Place

structure Token where
  kind : Kind
  text : String
  place : Place
  offset : Nat
  -- How many characters of the text it covers; none for the end of the text and for made-up tokens.
  width : Nat
  deriving DecidableEq, Repr, Inhabited

namespace Token

def last (token : Token) : Int :=
  (token.offset + token.width : Nat) - 1

def endOfText (place : Place) (offset : Nat) : Token :=
  ⟨.eof,"<EOF>",place,offset,0⟩

def madeUp (kind : Kind) (place : Place) : Token :=
  ⟨kind,"<missing " ++ kind.placeholder ++ ">",place,0,0⟩

end Token

end SolReader
