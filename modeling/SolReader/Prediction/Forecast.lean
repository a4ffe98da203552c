import SolReader.Token
import SolReader.Prediction.Decision

namespace SolReader

-- The outcome of looking ahead: the option, unless none is possible, and how many tokens beyond the current one were
-- looked at.
structure Forecast where
  option : Option Nat
  looked : Nat
  deriving DecidableEq, Repr

namespace Config

def allows (level : Nat) (config : Config) : Bool :=
  config.guard.all (level ≤ ·)

def soleOption? : List Config → Option Nat
  | [] => none
  | config :: rest => if rest.all (·.option == config.option) then some config.option else none

def leastOption? (configs : List Config) : Option Nat :=
  (configs.map (·.option)).min?

def groups (configs : List Config) : List (List Config) :=
  configs.splitBy fun left right => left.label == right.label

-- Two options that stand at the same place under the same calls cannot be told apart any more. That settles nothing
-- while some place still belongs to one option alone.
def conflict (configs : List Config) : Bool :=
  configs.all isFinal ||
    ((groups configs).any (fun group => group.any fun left => group.any fun right =>
        left.option < right.option && left.pending == right.pending) &&
      (groups configs).all (fun group => (soleOption? group).isNone))

-- The option that comes first at every place and under all calls, if it is everywhere the same.
def prevailing? (configs : List Config) : Option Nat :=
  let firsts := (groups configs).flatMap fun group =>
    group.filter fun config => group.all fun other => config.option ≤ other.option || other.pending != config.pending
  soleOption? firsts

-- The option of a way that had reached the end of the rule, those that the level allows first.
def finished? (level : Nat) (configs : List Config) : Option Nat :=
  let done := configs.filter fun config => config.outside || (config.isFinal && config.pending.hasEmpty)
  leastOption? (done.filter (allows level)) <|> leastOption? (done.filter fun config => !config.allows level)

-- The ways on after a token. Where stacks are open an ended way can take only the end of the text; where they are
-- closed it is kept as long as no other way ends.
def advance (isOpen : Bool) (kind : Kind) (configs : List Config) : List Config :=
  let moved := gather isOpen ((configs.filter (·.kinds.contains kind)).flatMap (shift isOpen))
  let moved := if kind = .eof then moved.filter isFinal else moved
  let ended := configs.filter isFinal
  if isOpen then (if kind = .eof then gather isOpen (moved ++ ended) else moved)
  else if moved.any isFinal then moved
  else gather isOpen (moved ++ ended)

def settled? (isOpen : Bool) (kind : Kind) (configs : List Config) : Option Nat :=
  if kind = .eof || (!isOpen && configs.any isFinal) then none
  else soleOption? (configs.filter (·.kinds.contains kind))

end Config

namespace Decision

-- The ways of reading on with nothing known about the callers. Another round is taken only where the level allows, and
-- it takes precedence over reading the same thing after the end of the rule.
def startOpen (decision : Decision) (level : Nat) : List Config :=
  if decision.isRecursive then
    let rounds := (decision.start.filter fun config => config.option == 1 && config.allows level).map
      ({ · with guard := none })
    let exits := decision.start.filter fun config => config.option != 1 &&
      (config.lifted || !rounds.any fun round => round.label == config.label && round.pending == config.pending)
    rounds ++ exits
  else decision.start

def startClosed (decision : Decision) (level : Nat) (pending : Stacks) : List Config :=
  Config.gather false <| (decision.options.zipIdx 1).flatMap fun (reach,option) =>
    let way : Config := ⟨0,∅,option,none,pending,false,false⟩
    ((optionHeads option reach pending).filter (·.allows level)).map ({ · with guard := none }) ++
      (if reach.ends then way.leave false decision.rule pending else [])

def foresee (level : Nat) : (configs : List Config) → (looked : Nat) → List Token → Forecast
  | configs, looked, [] => ⟨Config.finished? level configs,looked⟩
  | configs, looked, token :: rest =>
    match Config.settled? false token.kind configs with
    | some option => ⟨some option,looked⟩
    | none =>
      let next := Config.advance false token.kind configs
      if next.isEmpty then ⟨Config.finished? level configs,looked⟩
      else match Config.soleOption? next <|> Config.prevailing? next with
        | some option => ⟨some option,looked⟩
        | none => if rest.isEmpty then ⟨none,looked⟩ else foresee level next (looked + 1) rest

def allowed? (level : Nat) (configs : List Config) : Option Nat :=
  Config.soleOption? (configs.filter (·.allows level))

-- Follows the ways with nothing known about the callers, and turns to the open calls at a conflict.
def glance (level : Nat) (closed : Unit → Forecast) :
    (configs : List Config) → (looked : Nat) → List Token → Forecast
  | configs, looked, [] => ⟨Config.finished? level configs,looked⟩
  | configs, looked, token :: rest =>
    match Config.settled? true token.kind configs with
    | some _ => ⟨allowed? level (configs.filter (·.kinds.contains token.kind)),looked⟩
    | none =>
      let next := Config.advance true token.kind configs
      if next.isEmpty then ⟨Config.finished? level configs,looked⟩
      else if (Config.soleOption? next).isSome then ⟨allowed? level next,looked⟩
      else if Config.conflict next then
        if next.any (·.guard.isSome) && (allowed? level next).isSome then ⟨allowed? level next,looked⟩
        else
          let forecast := closed ()
          { forecast with looked := max looked forecast.looked }
      else if rest.isEmpty then ⟨none,looked⟩ else glance level closed next (looked + 1) rest

def forecast (decision : Decision) (level : Nat) (pending : Stacks) (ahead : List Token) : Forecast :=
  glance level (fun _ => foresee level (decision.startClosed level pending) 0 ahead) (decision.startOpen level) 0 ahead

end Decision

end SolReader
