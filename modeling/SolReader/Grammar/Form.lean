import SolReader.KindSet
import SolReader.Grammar.Rule

namespace SolReader

-- How a loop goes on: any number of rounds, at least one, or any number after a round has just ended.
inductive Rounds where
  | many | atLeastOne | again
  deriving DecidableEq, Repr, Inhabited

-- Every part at which something can happen carries a label, so a place of the grammar is known by its label alone.  A rule
-- that begins with itself is its first part and a loop whose rounds start with `wrap`.
inductive Form (α : Type) where
  | token (label : α) (kind : Kind)
  | oneOf (label : α) (kinds : KindSet)
  | call (label : α) (rule : Rule) (level : Nat)
  | wrap (label : α) (level : Nat)
  | skip
  | seq (first second : Form α)
  | choice (label : α) (options : List (Form α))
  | optional (label : α) (body : Form α)
  -- A loop is labelled where it is entered and where a round ends.
  | loop (rounds : Rounds) (entry back : α) (body : Form α)
  deriving Repr, Inhabited

namespace Form

def fresh : StateM Nat Nat := do
  let label ← get
  set (label + 1)
  return label

mutual

def numbered {α : Type} : Form α → StateM Nat (Form Nat)
  | .token _ kind => return .token (← fresh) kind
  | .oneOf _ kinds => return .oneOf (← fresh) kinds
  | .call _ rule level => return .call (← fresh) rule level
  | .wrap _ level => return .wrap (← fresh) level
  | .skip => return .skip
  | .seq first second => do
    let first ← numbered first
    return .seq first (← numbered second)
  | .choice _ options => do
    let label ← fresh
    return .choice label (← allNumbered options)
  | .optional _ body => do
    let label ← fresh
    return .optional label (← numbered body)
  | .loop rounds _ _ body => do
    let entry ← fresh
    let back ← fresh
    return .loop rounds entry back (← numbered body)

def allNumbered {α : Type} : List (Form α) → StateM Nat (List (Form Nat))
  | [] => return []
  | form :: rest => do
    let form ← numbered form
    return form :: (← allNumbered rest)

end

end Form

end SolReader
