import SolReader.Tree

namespace SolReader

inductive Event where
  | enter (rule : Rule)
  | exit (rule : Rule)
  | token (text : String)
  | error (text : String)
  deriving DecidableEq, Repr

namespace Tree

mutual

def events : Tree → List Event
  | .leaf token => [.token token.text]
  | .error token => [.error token.text]
  | .node rule _ _ children => .enter rule :: allEvents children ++ [.exit rule]

def allEvents : List Tree → List Event
  | [] => []
  | tree :: trees => tree.events ++ allEvents trees

end

end Tree

def Rule.title (rule : Rule) : String :=
  rule.name.capitalize

namespace Event

def line : Event → String
  | .enter rule => "enter " ++ rule.title
  | .exit rule => "exit " ++ rule.title
  | .token text => "t " ++ text
  | .error text => "e " ++ text

-- Whether a walk that is interested only in rules with the given titles reports the event. Errors are always reported.
def concerns (titles : List String) : Event → Bool
  | .enter rule | .exit rule => titles.contains rule.title
  | .token _ => false
  | .error _ => true

end Event

end SolReader
