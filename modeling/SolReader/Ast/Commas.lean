import SolReader.Ast.Fault

namespace SolReader.Commas

-- The slots of the rest of a list; `atSlot` says that a slot has just been opened.
def slotsFrom {α : Type} (isComma : α → Bool) : (atSlot : Bool) → List α → Except Fault (List (Option α))
  | true, [] => .ok [none]
  | false, [] => .ok []
  | true, element :: rest =>
    if isComma element then do return none :: (← slotsFrom isComma true rest)
    else do return some element :: (← slotsFrom isComma false rest)
  | false, element :: rest =>
    if isComma element then slotsFrom isComma true rest else .error .expectedComma

def slots {α : Type} (isComma : α → Bool) : List α → Except Fault (List (Option α))
  | [] => .ok []
  | elements => slotsFrom isComma true elements

end SolReader.Commas
