import SolReader.Token
import SolReader.Grammar.Rule

namespace SolReader

-- Tokens that recovery dropped or made up are error leaves.
inductive Tree where
  | leaf (token : Token)
  | error (token : Token)
  -- `start` is the token at which the phrase began; `stop` is the last one taken when it was left, if any had been.
  | node (rule : Rule) (start : Token) (stop : Option Token) (children : List Tree)
  deriving Repr, Inhabited

namespace Tree

mutual

def tokens : Tree → List Token
  | .leaf token => [token]
  | .error token => [token]
  | .node _ _ _ children => allTokens children

def allTokens : List Tree → List Token
  | [] => []
  | tree :: trees => tree.tokens ++ allTokens trees

end

def text (tree : Tree) : String :=
  String.join (tree.tokens.map Token.text)

def rule? : Tree → Option Rule
  | .node rule _ _ _ => some rule
  | _ => none

def children : Tree → List Tree
  | .node _ _ _ children => children
  | _ => []

end Tree

end SolReader
