import SolReader.Grammar.Labelled

namespace SolReader

structure Next where
  kinds : KindSet
  -- Nothing at all is possible too.
  ends : Bool
  deriving DecidableEq, Repr, Inhabited

namespace Next

def never : Next := ⟨∅,false⟩

def nothing : Next := ⟨∅,true⟩

def andThen (first second : Next) : Next :=
  if first.ends then ⟨first.kinds ∪ second.kinds,second.ends⟩ else first

def orElse (first second : Next) : Next :=
  ⟨first.kinds ∪ second.kinds,first.ends || second.ends⟩

end Next

namespace Form

mutual

def next {α : Type} (ofRule : Rule → Next) : Form α → Next
  | .token _ kind => ⟨.ofList [kind],false⟩
  | .oneOf _ kinds => ⟨kinds,false⟩
  | .call _ rule _ => ofRule rule
  | .wrap _ _ | .skip => .nothing
  | .seq first second =>
    -- the second part is looked at only where the first can be empty, which keeps this from running round in circles
    let front := first.next ofRule
    if front.ends then front.andThen (second.next ofRule) else front
  | .choice _ options => anyNext ofRule options
  | .optional _ body => (body.next ofRule).orElse .nothing
  | .loop .atLeastOne _ _ body => body.next ofRule
  | .loop _ _ _ body => (body.next ofRule).orElse .nothing

def anyNext {α : Type} (ofRule : Rule → Next) : List (Form α) → Next
  | [] => .never
  | form :: forms => (form.next ofRule).orElse (anyNext ofRule forms)

end

end Form

namespace Rule

def nextWithin : (depth : Nat) → Rule → Next
  | 0, _ => .never
  | depth + 1, rule => rule.body.next (nextWithin depth)

def nextTable : Array Next :=
  (Rule.all.map (nextWithin Rule.all.length)).toArray

def next (rule : Rule) : Next :=
  nextTable.getD rule.ctorIdx .never

end Rule

def Todo.next (todo : Todo) : Next :=
  todo.foldr (fun form after => (form.next Rule.next).andThen after) .nothing

end SolReader
