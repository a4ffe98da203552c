import SolReader.Token
import SolReader.Token.Lexicon

namespace SolReader

structure Munch where
  best : Option (Kind × Nat)
  -- How many characters were read until no rule was left, the last of them included.
  read : Nat
  deriving DecidableEq, Repr

-- Reads on with the rules that are still possible. `count` characters have been read and `best` is the longest match
-- among them.
def Munch.from (live : List (Kind × Pattern)) (count : Nat) (best : Option (Kind × Nat)) : List Char → Munch
  | [] => ⟨best,count⟩
  | c :: rest =>
    match (live.map fun (kind,pattern) => (kind,pattern.derive c)).filter (fun rule => !rule.2.isNever) with
    | [] => ⟨best,count + 1⟩
    | next =>
      let best := match next.find? (·.2.nullable) with
        | some (kind,_) => some (kind,count + 1)
        | none => best
      Munch.from next (count + 1) best rest

structure Unread where
  place : Place
  text : String
  deriving DecidableEq, Repr

inductive Piece where
  | token (token : Token)
  | unread (region : Unread)
  deriving DecidableEq, Repr

namespace Piece

def scan (place : Place) (offset : Nat) (cs : List Char) : List Piece :=
  match cs with
  | [] => [.token (.endOfText place offset)]
  | c :: rest =>
    let munch := Munch.from Lexicon.rules 0 none (c :: rest)
    -- every rule needs a character, so at least `c` is taken
    let more := (munch.best.elim munch.read (·.2)) - 1
    let taken := c :: rest.take more
    let next := scan (place.advance taken) (offset + taken.length) (rest.drop more)
    match munch.best with
    | none => .unread ⟨place,String.ofList taken⟩ :: next
    | some (.whitespace,_) => next
    | some (kind,_) => .token ⟨kind,String.ofList taken,place,offset,taken.length⟩ :: next
termination_by cs.length
decreasing_by
  simp only [List.length_cons,List.length_drop]
  omega

def token? : Piece → Option Token
  | .token found => some found
  | .unread _ => none

def unread? : Piece → Option Unread
  | .token _ => none
  | .unread region => some region

end Piece

def pieces (text : String) : List Piece :=
  Piece.scan .start 0 text.toList

def tokens (text : String) : List Token :=
  (pieces text).filterMap Piece.token?

def unreadRegions (text : String) : List Unread :=
  (pieces text).filterMap Piece.unread?

-- The unreadable stretches met on the way to the grammar's token number `count`, counted from zero.
def unreadBefore : Nat → List Piece → List Unread
  | _, [] => []
  | count, .unread region :: rest => region :: unreadBefore count rest
  | count, .token token :: rest =>
    if token.kind.isHidden then unreadBefore count rest
    else match count with
      | 0 => []
      | count + 1 => unreadBefore count rest

end SolReader
