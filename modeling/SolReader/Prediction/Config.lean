import SolReader.Prediction.Reach

namespace SolReader

-- One way of reading on.  If stacks are open, an empty stack means that nothing is known about the callers, and the end
-- of a rule leads to every place that calls the rule.  If they are closed, the empty stack is the end of everything.
structure Config where
  label : Label
  kinds : KindSet
  option : Nat
  -- The binding level at which the way was entered, if that is still to be compared with the level asked for.
  guard : Option Nat
  pending : Stacks
  outside : Bool
  -- On its way out it left a call that asks for no level.
  lifted : Bool
  deriving Repr, Inhabited

namespace Config

def isFinal (config : Config) : Bool :=
  config.label % Label.span == Label.span - 1

def precedes (left right : Config) : Bool :=
  left.label < right.label ||
    (left.label == right.label &&
      (left.option < right.option || (left.option == right.option && left.guard.getD 0 ≤ right.guard.getD 0)))

def sameWay (left right : Config) : Bool :=
  left.label == right.label && left.option == right.option && left.guard == right.guard

def join (isOpen : Bool) (left right : Config) : Config :=
  { left with
    pending := left.pending.union isOpen right.pending
    outside := left.outside || right.outside
    lifted := left.lifted || right.lifted }

def joinNeighbours (isOpen : Bool) (configs : List Config) : List Config :=
  configs.foldr
    (fun config joined => match joined with
      | next :: rest => if config.sameWay next then config.join isOpen next :: rest else config :: next :: rest
      | [] => [config])
    []

def insert (config : Config) : List Config → List Config
  | [] => [config]
  | next :: rest => if config.precedes next then config :: next :: rest else next :: insert config rest

def gather (isOpen : Bool) (configs : List Config) : List Config :=
  joinNeighbours isOpen (configs.foldr insert [])

def atHead (way : Config) (pending : Stacks) (head : Head) : Config :=
  { way with label := head.label, kinds := head.kinds, pending }

mutual

def descend (way : Config) (pending : Stacks) : Reach → List Config
  | .mk heads calls _ _ => heads.map (way.atHead pending) ++ descendAll way pending calls

def descendAll (way : Config) (pending : Stacks) : List (Label × Reach) → List Config
  | [] => []
  | (site,reach) :: calls => descend way (pending.call site) reach ++ descendAll way pending calls

end

-- The ways on from a place whose calls are `pending`. A loop of a rule that begins with itself starts no new round
-- under calls that each complete a round of the same rule: the caller will start that round.
def enter (way : Config) (reach : Reach) (pending : Stacks) : List Config :=
  let covered := reach.isLeveled && pending.allTops Label.isClosing
  let heads := if covered then reach.heads.filter (·.level.isNone) else reach.heads
  heads.map (way.atHead pending) ++ descendAll way pending reach.calls

end Config

namespace Rule

-- The rules whose ends can be reached from the ends in `frontier`, those in `seen` included. Each comes with a mark
-- that says whether a call of `marked` that asks for no level was left on the way.
def endsFrom (marked : Option Rule) : (fuel : Nat) → (frontier seen : List (Rule × Bool)) → List (Rule × Bool)
  | 0, _, seen => seen
  | fuel + 1, frontier, seen =>
    let reached := frontier.flatMap fun (rule,mark) =>
      (rule.callers.filter fun (site,_) => (Label.after site).ends).map fun (site,level) =>
        (site.rule,mark || (level == 0 && marked == some rule))
    let fresh := (reached.eraseDups).filter fun rule => !seen.contains rule
    if fresh.isEmpty then seen else endsFrom marked fuel fresh (seen ++ fresh)

-- Every way on from the end of a rule about whose callers nothing is known.
def outward (marked : Option Rule) (rule : Rule) : List Config :=
  let blank : Config := ⟨0,∅,0,none,.empty,true,false⟩
  (endsFrom marked (2 * Rule.all.length) [(rule,false)] [(rule,false)]).flatMap fun (rule,mark) =>
    if rule.callers.isEmpty then [{ blank with label := .final rule, lifted := mark }]
    else rule.callers.flatMap fun (site,level) =>
      { blank with lifted := mark || (level == 0 && marked == some rule) }.enter (Label.after site) .empty

def outwardTable : Array (List Config) :=
  (Rule.all.map fun rule => Config.gather true (outward none rule)).toArray

end Rule

namespace Config

def leave (isOpen : Bool) (way : Config) (rule : Rule) : Stacks → List Config
  | .nil => []
  | .bottom others =>
    (if isOpen then
      (Rule.outwardTable.getD rule.ctorIdx []).map fun config =>
        { config with option := way.option, guard := way.guard }
    else [{ way with label := .final rule, kinds := ∅, pending := .empty }]) ++ leave isOpen way rule others
  | .push site below others =>
    let reach := Label.after site
    way.enter reach below ++ (if reach.ends then leave isOpen way site.rule below else []) ++
      leave isOpen way rule others

def shift (isOpen : Bool) (way : Config) : List Config :=
  let reach := Label.after way.label
  way.enter reach way.pending ++ (if reach.ends then way.leave isOpen way.label.rule way.pending else [])

end Config

end SolReader
