import SolReader.Outline.Report

namespace SolReader

-- A step as it is asked for. Positions below zero count from the end.
inductive PathStep where
  | field (name : String)
  | position (index : Int)
  deriving DecidableEq, Repr

inductive Spot where
  | field (name : String)
  | position (index : Nat)
  deriving DecidableEq, Repr

def position? (size : Nat) (index : Int) : Option Nat :=
  let counted := if index < 0 then index + size else index
  if 0 ≤ counted && counted < size then some counted.toNat else none

namespace Value

def entryAt (value : Value) (index : Int) : Except Fault (Nat × Value) :=
  match value with
  | .list items =>
    match (position? items.length index).bind fun place => items[place]?.map (place,·) with
    | some found => .ok found
    | none => .error (.outOfRange .list)
  | .text content =>
    match (position? content.length index).bind fun place =>
        content.toList[place]?.map fun character => (place,Value.text character.toString) with
    | some found => .ok found
    | none => .error (.outOfRange .text)
  | .record _ | .node _ => .error (.noEntry index)
  | other => .error (.unindexed other.shape)

def step (value : Value) : PathStep → Except Fault (Spot × Value)
  | .field name => do return (.field name,← value.part name)
  | .position index => do
    let (place,found) ← value.entryAt index
    return (.position place,found)

def follow (value : Value) : List PathStep → Except Fault (List Spot × Value)
  | [] => .ok ([],value)
  | next :: steps => do
    let (place,inner) ← value.step next
    let (places,found) ← inner.follow steps
    return (place :: places,found)

def putAt (value : Value) (new : Value) : List Spot → Value
  | [] => new
  | .field name :: places =>
    match value with
    | .node fields => .node (fields.map fun (other,inner) =>
        if other == name then (other,inner.putAt new places) else (other,inner))
    | other => other
  | .position index :: places =>
    match value with
    | .list items => .list (items.zipIdx.map fun (inner,position) =>
        if position == index then inner.putAt new places else inner)
    | other => other

mutual

-- The pairs of places below `here` that hold one and the same thing: the initial value of a state variable stands both
-- in its declaration and in the variable declared.
def shared (here : List Spot) : Value → List (List Spot × List Spot)
  | .node fields =>
    let below := sharedFields here fields
    if Value.isOf ["StateVariableDeclaration"] fields then
      (here ++ [.field "variables",.position 0,.field "expression"],here ++ [.field "initialValue"]) :: below
    else below
  | .list items => sharedItems here 0 items
  | _ => []

def sharedFields (here : List Spot) : List (String × Value) → List (List Spot × List Spot)
  | [] => []
  | (name,value) :: fields => value.shared (here ++ [.field name]) ++ sharedFields here fields

def sharedItems (here : List Spot) (index : Nat) : List Value → List (List Spot × List Spot)
  | [] => []
  | item :: items => item.shared (here ++ [.position index]) ++ sharedItems here (index + 1) items

end

end Value

end SolReader
