import SolReader.Parse.Recovery

namespace SolReader

inductive Step where
  | more (parse : Parse)
  | finished (tree : Tree) (parse : Parse)
  deriving Repr, Inhabited

namespace Parse

def leave (parse : Parse) : Step :=
  let tree := parse.frame.close parse.previous
  match parse.callers with
  | [] => .finished tree parse
  | caller :: callers => .more { parse with frame := caller.add tree, callers }

-- Takes a token of one of the given kinds and goes on with `rest`. A single kind that is missing is made up as an error
-- leaf.
def take (source : List Token) (parse : Parse) (label : Label) (kinds : KindSet) (isSet : Bool) (rest : Todo) : Parse :=
  if kinds.contains parse.input.current.kind then (parse.settle.consume).goto rest
  else match parse.dropOne? with
    | (parse,true) => parse.consume.goto rest
    | (parse,false) =>
      if (expecting (Todo.next rest) parse.callers).contains parse.input.current.kind then
        let token := parse.madeUp
        let parse := parse.report parse.input.current.place (.missing parse.expected parse.input.current.text)
        (if isSet then parse else parse.add (.error token)).goto rest
      else parse.fail source label .mismatched

-- Picks an option of a decision. A loop or an optional part that is told by one token is passed by whenever that token
-- does not come.
def pick (parse : Parse) (decision : Decision) (mayPass : Bool) : Parse × Except Cause Nat :=
  let current := parse.input.current
  match decision.tests with
  | some tests =>
    match tests.findIdx? (·.contains current.kind) with
    | some index => (parse,.ok (if mayPass then min index 1 + 1 else index + 1))
    | none => (parse,if mayPass then .ok 2 else .error (.noOption current))
  | none =>
    let forecast := decision.forecast parse.frame.level parse.pending parse.input.ahead
    let offending := parse.input.ahead.getD forecast.looked current
    (parse.look forecast.looked,match forecast.option with
      | some option => .ok option
      | none => .error (.noOption offending))

def follow (source : List Token) (parse : Parse) (label : Label) (decision : Decision) (mayPass : Bool)
    (options : List Todo) : Parse :=
  match parse.pick decision mayPass with
  | (parse,.ok option) => parse.goto (options.getD (option - 1) [])
  | (parse,.error cause) => parse.fail source label cause

def branch (source : List Token) (parse : Parse) (label key : Label) (mayPass : Bool) (options : List Todo) : Parse :=
  parse.follow source label (Decision.get key) mayPass options

def enter (source : List Token) (parse : Parse) (label : Label) (mayPass : Bool) (options : List Todo) : Parse :=
  match parse.checkEntry with
  | (parse,true) => parse.branch source label label mayPass options
  | (parse,false) => parse.fail source label .mismatched

def step (source : List Token) (parse : Parse) : Step :=
  match parse.frame.todo with
  | [] => parse.leave
  | .skip :: rest => .more (parse.goto rest)
  | .seq first second :: rest => .more (parse.goto (first :: second :: rest))
  | .token label kind :: rest => .more (parse.take source label (.ofList [kind]) false rest)
  | .oneOf label kinds :: rest => .more (parse.take source label kinds true rest)
  | .call label rule level :: rest =>
    let parse := parse.goto rest
    .more { parse with
      frame := .open rule level (some label) parse.input.current, callers := parse.frame :: parse.callers }
  | .wrap label level :: rest =>
    let frame := { parse.frame with built := [parse.frame.close parse.previous] }
    let wrapped := { parse with frame }
    .more (if parse.frame.level ≤ level then wrapped.goto rest
      else wrapped.fail source label (.noOption parse.input.current))
  | .choice label options :: rest => .more (parse.enter source label false (options.map (· :: rest)))
  | .optional label body :: rest => .more (parse.enter source label true [body :: rest,rest])
  | .loop .many entry back body :: rest =>
    .more (parse.enter source entry true [body :: .loop .again entry back body :: rest,rest])
  | .loop .atLeastOne entry back body :: rest =>
    .more (match parse.checkEntry with
      | (parse,true) => parse.goto (body :: .loop .again entry back body :: rest)
      | (parse,false) => parse.fail source entry .mismatched)
  | .loop .again entry back body :: rest =>
    .more ((parse.checkRound back).branch source back entry true [body :: .loop .again entry back body :: rest,rest])

-- Runs a number of steps. The frames that are still open at the end are closed as they are.
def run (source : List Token) : (fuel : Nat) → Parse → Tree × Parse × Bool
  | 0, parse =>
    let tree := parse.callers.foldl (fun tree caller => (caller.add tree).close parse.previous)
      (parse.frame.close parse.previous)
    (tree,parse,false)
  | fuel + 1, parse =>
    match parse.step source with
    | .more parse => run source fuel parse
    | .finished tree parse => (tree,parse,true)

end Parse

-- More steps than a frame can take while the current token stays the same.
def Parse.limit : Nat := 10000000

structure Reading where
  tree : Tree
  diagnostics : List Diagnostic
  complete : Bool
  -- The ends of rounds at which more tokens are accepted from now on, in texts read later too.
  widened : List (Label × KindSet)
  deriving Repr, Inhabited

namespace Reading

-- The steps allowed for a text of so many tokens. Between two tokens a rule is given up at most once at each label, and
-- until that happens every open frame takes fewer steps than `Parse.limit`.
def budget (tokens : Nat) : Nat :=
  let phases := (tokens + 1) * (Label.span * Rule.all.length + 2)
  Parse.limit + phases * Parse.limit * (Parse.limit + 1 + phases * Parse.limit)

end Reading

-- Reads tokens as a phrase of a rule, with what earlier readings have widened.  `source` holds the comments too.
def Parse.resumed (widened : List (Label × KindSet)) (source : List Token) (rule : Rule) (input : Input) :
    Tree × Parse × Bool :=
  { Parse.start rule input with widened }.run source (Reading.budget input.later.length)

def Parse.outcome (source : List Token) (rule : Rule) (input : Input) : Tree × Parse × Bool :=
  resumed [] source rule input

namespace Reading

-- The reading of a text cut into pieces: unreadable stretches are reported as far as the text was looked at, and before
-- everything else.
def ofOutcome (pieces : List Piece) : Tree × Parse × Bool → Reading
  | (tree,parse,complete) =>
    ⟨tree,(unreadBefore parse.looked pieces).map Diagnostic.ofUnread ++ parse.diagnostics.reverse,complete,
      parse.widened⟩

def resumed (widened : List (Label × KindSet)) (rule : Rule) (text : String) : Reading :=
  match (tokens text).filter (!·.kind.isHidden) with
  | [] => ⟨default,[],false,widened⟩
  | current :: later => ofOutcome (pieces text) (Parse.resumed widened (tokens text) rule ⟨current,later⟩)

def ofText (rule : Rule) (text : String) : Reading := resumed [] rule text

end Reading

end SolReader
