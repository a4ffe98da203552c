import SolReader.Grammar.Body

namespace SolReader

inductive Member where
  | phrase (rule : Rule)
  | token (kind : Kind)
  deriving DecidableEq, Repr

namespace Member

def name? : Member → Option String
  | .phrase rule => rule.name
  | .token kind => kind.title?

-- How often parts can occur at most; twice stands for any number of times.
abbrev Counts := List (Member × Nat)

def Counts.get (counts : Counts) (member : Member) : Nat :=
  (counts.lookup member).getD 0

def Counts.combine (f : Nat → Nat → Nat) (left right : Counts) : Counts :=
  let members := left.map Prod.fst ++ (right.map Prod.fst).filter fun member => (left.lookup member).isNone
  members.map fun member => (member,f (left.get member) (right.get member))

end Member

namespace Form

open Member (Counts)

def grows {α : Type} : Form α → Bool
  | .wrap _ _ => true
  | .seq first _ => first.grows
  | .choice _ (option :: _) => option.grows
  | _ => false

mutual

def counts {α : Type} (self : Rule) : Form α → Counts
  | .token _ kind => [(.token kind,1)]
  | .oneOf _ kinds => kinds.toList.map fun kind => (.token kind,1)
  | .call _ rule _ => [(.phrase rule,1)]
  | .wrap _ _ => [(.phrase self,1)]
  | .skip => []
  | .seq first second => Counts.combine (· + ·) (first.counts self) (second.counts self)
  | .choice _ options => mostCounts self options
  | .optional _ body => body.counts self
  | .loop _ _ _ body => (body.counts self).map fun (member,count) => (member,2 * count)

def mostCounts {α : Type} (self : Rule) : List (Form α) → Counts
  | [] => []
  | form :: forms => Counts.combine max (form.counts self) (mostCounts self forms)

end

end Form

namespace Rule

-- The forms a phrase of the rule can have; in a rule that begins with itself each round makes a phrase.
def variants (rule : Rule) : List (Form Unit) :=
  match rule.body with
  | .seq first (.loop rounds entry back round) =>
    if round.grows then [first,round] else [.seq first (.loop rounds entry back round)]
  | body => [body]

def members (rule : Rule) : List (String × Member × Bool) :=
  (Form.mostCounts rule rule.variants).filterMap fun (member,count) =>
    member.name?.map fun name => (name,member,decide (count > 1))

end Rule

end SolReader
