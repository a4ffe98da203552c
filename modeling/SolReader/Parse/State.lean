import SolReader.Diagnostic
import SolReader.Tree
import SolReader.Prediction.Forecast

namespace SolReader

structure Frame where
  rule : Rule
  level : Nat
  site : Option Label
  start : Token
  built : List Tree
  todo : Todo
  deriving Repr, Inhabited

-- The tokens ahead. The last of them is the end of the text, which is never passed.
structure Input where
  current : Token
  later : List Token
  deriving DecidableEq, Repr, Inhabited

namespace Input

def ahead (input : Input) : List Token := input.current :: input.later

-- The token after the current one; at the end of the text that is the end again.
def second (input : Input) : Token := input.later.headD input.current

def advance (input : Input) : Input :=
  match input.later with
  | [] => input
  | token :: later => ⟨token,later⟩

def atEnd (input : Input) : Bool := input.later.isEmpty

end Input

structure Parse where
  frame : Frame
  callers : List Frame
  input : Input
  previous : Option Token
  taken : Nat
  -- An error was reported and no token has matched since; until then nothing more is reported.
  recovering : Bool
  -- Where a rule was last given up, by the number of tokens taken and the labels at which that happened since a token
  -- matched.
  failedAfter : Option Nat
  failedLabels : List Label
  -- The ends of rounds at which more tokens are accepted since tokens were dropped there.
  widened : List (Label × KindSet)
  looked : Nat
  diagnostics : List Diagnostic
  deriving Repr, Inhabited

namespace Frame

def «open» (rule : Rule) (level : Nat) (site : Option Label) (start : Token) : Frame :=
  ⟨rule,level,site,start,[],[rule.form]⟩

def add (frame : Frame) (tree : Tree) : Frame :=
  { frame with built := tree :: frame.built }

def close (frame : Frame) (stop : Option Token) : Tree :=
  .node frame.rule frame.start stop frame.built.reverse

end Frame

namespace Parse

def start (rule : Rule) (input : Input) : Parse :=
  ⟨.open rule 0 none input.current,[],input,none,0,false,none,[],[],0,[]⟩

def goto (parse : Parse) (todo : Todo) : Parse :=
  { parse with frame := { parse.frame with todo } }

def add (parse : Parse) (tree : Tree) : Parse :=
  { parse with frame := parse.frame.add tree }

def look (parse : Parse) (distance : Nat) : Parse :=
  { parse with looked := max parse.looked (parse.taken + min distance parse.input.later.length) }

-- Takes the current token as a child, as an error while recovering. The end of the text becomes a child too but is not
-- passed.
def consume (parse : Parse) : Parse :=
  let token := parse.input.current
  let parse := parse.add (if parse.recovering then .error token else .leaf token)
  if parse.input.atEnd then parse
  else { parse with
    input := parse.input.advance, previous := some token, taken := parse.taken + 1 }.look 0

def settle (parse : Parse) : Parse :=
  { parse with recovering := false, failedAfter := none, failedLabels := [] }

def pending (parse : Parse) : Stacks :=
  (parse.frame :: parse.callers).foldr
    (fun frame below => match frame.site with
      | some site => .call site below
      | none => .empty)
    .empty

def next (parse : Parse) : Next :=
  match parse.frame.todo with
  | .loop .again _ back _ :: _ =>
    match parse.widened.lookup back with
    | some kinds => ⟨kinds,false⟩
    | none => parse.frame.todo.next
  | todo => todo.next

-- What can come next, looking on into the callers as long as a rule can end; where all of them can, the text can end
-- too.
def expecting (next : Next) : List Frame → KindSet
  | [] => if next.ends then next.kinds.insert .eof else next.kinds
  | caller :: callers => if next.ends then next.kinds ∪ expecting caller.todo.next callers else next.kinds

def expected (parse : Parse) : KindSet :=
  expecting parse.next parse.callers

def resumable (parse : Parse) : KindSet :=
  parse.callers.foldl (fun set caller => set ∪ caller.todo.next.kinds) ∅

end Parse

end SolReader
