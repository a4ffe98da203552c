import SolReader.Grammar.Member
import SolReader.Tree

namespace SolReader

inductive Found where
  | one (text : Option String)
  | many (texts : List String)
  deriving DecidableEq, Repr

namespace Tree

-- Whether a child is the given part. Error leaves count as tokens of their kind.
def isMember (member : Member) : Tree → Bool
  | .leaf token | .error token => member = .token token.kind
  | .node rule _ _ _ => member = .phrase rule

def found (children : List Tree) (member : Member) (isList : Bool) : Found :=
  let texts := (children.filter (isMember member)).map text
  if isList then .many texts else .one texts.head?

mutual

def phrases : Tree → List Tree
  | .node rule start stop children => .node rule start stop children :: allPhrases children
  | .leaf _ | .error _ => []

def allPhrases : List Tree → List Tree
  | [] => []
  | tree :: trees => tree.phrases ++ allPhrases trees

end

def answers : Tree → List (String × Found)
  | .node rule _ _ children => rule.members.map fun (name,member,isList) => (name,found children member isList)
  | .leaf _ | .error _ => []

end Tree

end SolReader
