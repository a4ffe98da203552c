import SolReader.Grammar.Next
import SolReader.Prediction.Stacks

namespace SolReader

structure Head where
  label : Label
  kinds : KindSet
  -- The level of the `wrap` passed on the way: the head starts another round of a loop of a rule that begins with
  -- itself.
  level : Option Nat
  deriving DecidableEq, Repr, Inhabited

-- The parts of the grammar that can take the next token, each with the calls entered on the way.
inductive Reach where
  -- The heads in the rule itself, the calls that can be entered and what they reach, whether the end of the rule can be
  -- reached without a token, and the level of a `wrap` just passed.
  | mk (heads : List Head) (calls : List (Label × Reach)) (ends : Bool) (level : Option Nat)
  deriving Repr, Inhabited

namespace Reach

def heads : Reach → List Head
  | .mk heads _ _ _ => heads

def calls : Reach → List (Label × Reach)
  | .mk _ calls _ _ => calls

def ends : Reach → Bool
  | .mk _ _ ends _ => ends

def level : Reach → Option Nat
  | .mk _ _ _ level => level

def never : Reach := .mk [] [] false none

def nothing : Reach := .mk [] [] true none

def head (label : Label) (kinds : KindSet) : Reach := .mk [⟨label,kinds,none⟩] [] false none

def wrapping (level : Nat) : Reach := .mk [] [] true (some level)

def andThen (first second : Reach) : Reach :=
  if first.ends then
    .mk (first.heads ++ second.heads.map fun head => { head with level := head.level <|> first.level })
      (first.calls ++ second.calls) second.ends (first.level <|> second.level)
  else first

def orElse (first second : Reach) : Reach :=
  .mk (first.heads ++ second.heads) (first.calls ++ second.calls) (first.ends || second.ends) none

def within (site : Label) (reach : Reach) : Reach :=
  .mk [] [(site,reach)] reach.ends none

def isLeveled (reach : Reach) : Bool :=
  reach.heads.any (·.level.isSome)

mutual

def kinds : Reach → KindSet
  | .mk heads calls _ _ => heads.foldl (fun set head => set ∪ head.kinds) (kindsOfCalls calls)

def kindsOfCalls : List (Label × Reach) → KindSet
  | [] => ∅
  | (_,reach) :: calls => reach.kinds ∪ kindsOfCalls calls

end

end Reach

namespace Form

mutual

def reach (ofRule : Rule → Reach) : Form Label → Reach
  | .token label kind => .head label (.ofList [kind])
  | .oneOf label kinds => .head label kinds
  | .call label rule _ => (ofRule rule).within label
  | .wrap _ level => .wrapping level
  | .skip => .nothing
  | .seq first second =>
    let front := first.reach ofRule
    if front.ends then front.andThen (second.reach ofRule) else front
  | .choice _ options => anyReach ofRule options
  | .optional _ body => (body.reach ofRule).orElse .nothing
  | .loop .atLeastOne _ _ body => body.reach ofRule
  | .loop _ _ _ body => (body.reach ofRule).orElse .nothing

def anyReach (ofRule : Rule → Reach) : List (Form Label) → Reach
  | [] => .never
  | form :: forms => (form.reach ofRule).orElse (anyReach ofRule forms)

end

end Form

namespace Rule

def reachWithin : (depth : Nat) → Rule → Reach
  | 0, _ => .never
  | depth + 1, rule => rule.form.reach (reachWithin depth)

def reachTable : Array Reach :=
  (Rule.all.map (reachWithin Rule.all.length)).toArray

def reach (rule : Rule) : Reach :=
  reachTable.getD rule.ctorIdx .never

end Rule

def Todo.reach : Todo → Reach
  | [] => .nothing
  | form :: rest =>
    let front := form.reach Rule.reach
    if front.ends then front.andThen (Todo.reach rest) else front

namespace Label

def afterTable : Array (Array Reach) :=
  Grammar.tabulate .never fun todo =>
    match todo with
    | .token label _ :: rest | .oneOf label _ :: rest | .call label _ _ :: rest => some (label,Todo.reach rest)
    | _ => none

def after (label : Label) : Reach :=
  Grammar.entry afterTable label .never

-- A call of a rule by itself with which a round, or the rule's first part, is complete.
def closingCall? : Todo → Option (Label × Bool)
  | [.call label callee _,.loop _ _ _ body] =>
    some (label,callee == label.rule && (body.reach fun _ => .never).isLeveled)
  | _ => none

def closingTable : Array (Array Bool) :=
  Grammar.tabulate false closingCall?

def isClosing (label : Label) : Bool :=
  Grammar.entry closingTable label false

end Label

namespace Rule

def callerTable : Array (List (Label × Nat)) :=
  (Rule.all.map fun callee => (Grammar.places.filterMap fun todo => match todo with
    | .call label rule level :: _ => if rule == callee then some (label,level) else none
    | _ => none).reverse).toArray

def callers (rule : Rule) : List (Label × Nat) :=
  callerTable.getD rule.ctorIdx []

end Rule

end SolReader
