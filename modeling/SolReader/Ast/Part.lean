import SolReader.Ast.Fault

namespace SolReader

abbrev Meaning := Except Fault Value

-- A piece of the parse tree with its meaning.  A fault below counts only where the meaning is asked for.
inductive Part where
  | mk (tree : Tree) (parts : List Part) (meaning : Meaning)

namespace Part

def tree : Part → Tree
  | .mk tree _ _ => tree

def parts : Part → List Part
  | .mk _ parts _ => parts

def meaning : Part → Meaning
  | .mk _ _ meaning => meaning

def text (part : Part) : String := part.tree.text

def rule? (part : Part) : Option Rule := part.tree.rule?

def kind? (part : Part) : Option Kind :=
  match part.tree with
  | .leaf token | .error token => some token.kind
  | .node _ _ _ _ => none

end Part

structure Phrase where
  tree : Tree
  parts : List Part
  located : Bool

namespace Phrase

def text (phrase : Phrase) : String := phrase.tree.text

def all (rule : Rule) (parts : List Part) : List Part :=
  parts.filter (·.rule? == some rule)

def allOf (phrase : Phrase) (rule : Rule) : List Part := all rule phrase.parts

def first? (phrase : Phrase) (rule : Rule) : Option Part := (phrase.allOf rule).head?

def token? (phrase : Phrase) (kind : Kind) : Option Part := phrase.parts.find? (·.kind? == some kind)

def count (phrase : Phrase) : Except Fault Nat :=
  if phrase.parts.isEmpty then .error (.uncountable .nothing) else .ok phrase.parts.length

def child? (phrase : Phrase) (index : Nat) : Except Fault (Option Part) := do
  let _ ← phrase.count
  return phrase.parts[index]?

end Phrase

namespace Part

def textOf (part? : Option Part) : Except Fault String :=
  match part? with
  | some part => .ok part.text
  | none => .error (.noPart .nothing "getText")

def optionalText (part? : Option Part) : Value :=
  .ofOption (part?.map text)

def meaningOf (part? : Option Part) : Meaning :=
  match part? with
  | some part => part.meaning
  | none => .ok .null

def meanings (parts : List Part) : Except Fault (List Value) :=
  parts.mapM meaning

def listOf (parts : List Part) : Meaning := do
  return .list (← meanings parts)

def within (part? : Option Part) (rule : Rule) (asked : String) : Except Fault (List Part) :=
  match part? with
  | some part => .ok (Phrase.all rule part.parts)
  | none => .error (.noPart .nothing asked)

def textAt (phrase : Phrase) (index : Nat) : Except Fault String := do
  textOf (← phrase.child? index)

def meaningAt (phrase : Phrase) (index : Nat) : Meaning := do
  meaningOf (← phrase.child? index)

end Part

namespace Phrase

-- Where a phrase stands: the places at which its first and its last token begin.
def location : Tree → Meaning
  | .node _ start stop _ =>
    match stop with
    | some stop => .ok (.record [("start",place start.place),("end",place stop.place)])
    | none => .error (.noPart .nothing "line")
  | .leaf _ | .error _ => .ok .null
where
  place (place : Place) : Value := .record [("line",.number place.line),("column",.number place.column)]

-- A node of the given type. Its place comes last.
def node (phrase : Phrase) (type : String) (fields : Fields) : Meaning := do
  let fields := ("type",.text type) :: fields
  if phrase.located then return .node (fields ++ [("loc",← location phrase.tree)])
  else return .node fields

-- The meaning of a phrase that has none of its own is that of its last part; all the others are asked too.
def lastMeaning (phrase : Phrase) : Meaning := do
  return ((← Part.meanings phrase.parts).getLast?).getD .null

end Phrase

end SolReader
