import SolReader.Prediction.Config

namespace SolReader

structure Decision where
  rule : Rule
  options : List Reach
  isRecursive : Bool
  start : List Config
  tests : Option (List KindSet)
  deriving Repr, Inhabited

namespace Decision

def optionHeads (option : Nat) (reach : Reach) (pending : Stacks) : List Config :=
  let way : Config := ⟨0,∅,option,none,pending,false,false⟩
  reach.heads.map (fun head => { way.atHead pending head with guard := head.level }) ++
    way.descendAll pending reach.calls

def openStart (rule : Rule) (isRecursive : Bool) (options : List Reach) : List Config :=
  let beyond := Rule.outward (if isRecursive then some rule else none) rule
  Config.gather true <| (options.zipIdx 1).flatMap fun (reach,option) =>
    optionHeads option reach .empty ++ (if reach.ends then beyond.map ({ · with option }) else [])

def kindsBeyond (rule : Rule) : KindSet × Bool :=
  let sites := (Rule.endsFrom none Rule.all.length [(rule,false)] [(rule,false)]).flatMap (·.1.callers)
  let reaches := sites.map fun (site,_) => Label.after site
  (reaches.foldl (fun set reach => set ∪ reach.kinds) ∅,reaches.any Reach.isLeveled)

def disjoint : List KindSet → Bool
  | [] => true
  | set :: sets => sets.all (fun other => (set.inter other).isEmpty) && disjoint sets

-- The sets of kinds that tell the options apart. Levels of binding cannot be told by a token.
def tokenTests (rule : Rule) (options : List Reach) : Option (List KindSet) :=
  let (beyond,leveled) := kindsBeyond rule
  let sets := options.map fun reach => if reach.ends then reach.kinds ∪ beyond else reach.kinds
  let byLevel := options.any fun reach => reach.isLeveled || (reach.ends && leveled)
  if !byLevel && disjoint sets then some sets else none

def make (rule : Rule) (isRecursive : Bool) (options : List Reach) : Decision :=
  ⟨rule,options,isRecursive,openStart rule isRecursive options,tokenTests rule options⟩

def ofTodo? : Todo → Option (Label × Decision)
  | .choice label options :: rest =>
    some (label,make label.rule false (options.map fun option => Todo.reach (option :: rest)))
  | .optional label body :: rest =>
    some (label,make label.rule false [Todo.reach (body :: rest),Todo.reach rest])
  | .loop .again entry back body :: rest =>
    let round := Todo.reach (body :: .loop .again entry back body :: rest)
    some (entry,make entry.rule round.isLeveled [round,Todo.reach rest])
  | _ => none

def table : Array (Array (Option Decision)) :=
  Grammar.tabulate none fun todo => (ofTodo? todo).map fun (label,decision) => (label,some decision)

def get (label : Label) : Decision :=
  (Grammar.entry table label none).getD default

end Decision

end SolReader
