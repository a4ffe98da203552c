import SolReader.Grammar.Labelled

namespace SolReader

-- A list of different tops, in increasing order, each with the set of stacks below it.  The empty stack comes first if
-- it is a member.
inductive Stacks where
  | nil
  | bottom (others : Stacks)
  | push (site : Label) (below others : Stacks)
  deriving Repr, Inhabited

namespace Stacks

-- Compares two sets. Sets are built from shared pieces, and a piece is not compared with itself.
def decideEq : (left right : Stacks) → Decidable (left = right)
  | .nil, .nil => .isTrue rfl
  | .nil, .bottom _ | .nil, .push _ _ _ | .bottom _, .nil | .bottom _, .push _ _ _ | .push _ _ _, .nil
  | .push _ _ _, .bottom _ => .isFalse (by simp)
  | .bottom others, .bottom others' =>
    match withPtrEqDecEq others others' fun _ => decideEq others others' with
    | .isTrue same => .isTrue (by rw [same])
    | .isFalse different => .isFalse (by simpa using different)
  | .push site below others, .push site' below' others' =>
    if sites : site = site' then
      match withPtrEqDecEq below below' fun _ => decideEq below below' with
      | .isFalse different => .isFalse (by simp [different])
      | .isTrue same =>
        match withPtrEqDecEq others others' fun _ => decideEq others others' with
        | .isFalse different => .isFalse (by simp [different])
        | .isTrue rest => .isTrue (by rw [sites,same,rest])
    else .isFalse (by simp [sites])

instance : DecidableEq Stacks := fun left right => withPtrEqDecEq left right fun _ => decideEq left right

def empty : Stacks := .bottom .nil

def call (site : Label) (below : Stacks) : Stacks := .push site below .nil

def hasEmpty : Stacks → Bool
  | .bottom _ => true
  | _ => false

-- The union of two sets. If the empty stack is open, it stands for every stack, and so takes up all others.
def union (isOpen : Bool) : Stacks → Stacks → Stacks
  | .nil, right => right
  | left, .nil => left
  | .bottom left, .bottom right => if isOpen then empty else .bottom (union isOpen left right)
  | .bottom left, right => if isOpen then empty else .bottom (union isOpen left right)
  | left, .bottom right => if isOpen then empty else .bottom (union isOpen left right)
  | .push site below others, .push site' below' others' =>
    if site = site' then
      .push site (if below = below' then below else union isOpen below below') (union isOpen others others')
    else if site < site' then .push site below (union isOpen others (.push site' below' others'))
    else .push site' below' (union isOpen (.push site below others) others')
termination_by left right => sizeOf left + sizeOf right

def allTops (test : Label → Bool) : Stacks → Bool
  | .nil => false
  | .bottom _ => false
  | .push site _ .nil => test site
  | .push site _ others => test site && others.allTops test

end Stacks

end SolReader
