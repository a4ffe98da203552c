import SolReader.Ast.Display
import SolReader.Text.Blank

namespace SolReader

def lineWidth : Nat := 80

structure Slot where
  indent : Nat
  kept : Nat
  deriving Repr

namespace Slot

def fits (slot : Slot) (text : String) : Bool :=
  text.length + slot.indent + slot.kept ≤ lineWidth

-- The entries inside brackets begin one column later; only the last one is followed by the bracket.
def entry (slot : Slot) (isLast : Bool) : Slot :=
  ⟨slot.indent + 1,if isLast then slot.kept + 1 else 1⟩

def after (slot : Slot) (text : String) : Slot :=
  { slot with indent := slot.indent + text.length }

def newLine (slot : Slot) : String :=
  "\n" ++ "".pushn ' ' slot.indent

def alone (slot : Slot) : Slot :=
  { slot with kept := 0 }

end Slot

namespace Pretty

def quote (text : List Char) : String :=
  String.ofList (Text.quoted text)

-- Joins words as long as they fit. The last word of a text has to leave room for what follows.
def pack (slot : Slot) (isLast : Bool) (current : List Char) : List (List Char) → List (List Char)
  | [] => if current.isEmpty then [] else [current]
  | word :: words =>
    let candidate := current ++ word
    let room := if isLast && words.isEmpty then slot else slot.alone
    if room.fits (quote candidate) then pack slot isLast candidate words
    else (if current.isEmpty then [] else [current]) ++ pack slot isLast word words

def pieces (slot : Slot) : List (List Char) → List (List Char)
  | [] => []
  | line :: lines =>
    let room := if lines.isEmpty then slot else slot.alone
    (if room.fits (quote line) then [line] else pack slot lines.isEmpty [] (Text.words line)) ++ pieces slot lines

def text (slot : Slot) (content : String) : String :=
  if content.isEmpty then quote []
  else slot.newLine.intercalate ((pieces slot (Text.lines content.toList)).map quote)

mutual

def layout (slot : Slot) : Value → String
  | .text content =>
    let line := quote content.toList
    if slot.fits line then line else text slot content
  | .list items =>
    let line := (Value.list items).display
    if slot.fits line then line else "[" ++ layoutItems slot items ++ "]"
  | .record fields =>
    let line := (Value.record fields).display
    if slot.fits line then line else "\x7b" ++ layoutFields slot fields ++ "\x7d"
  | .node fields =>
    let line := (Value.node fields).display
    if slot.fits line then line else "\x7b" ++ layoutFields slot fields ++ "\x7d"
  | other => other.display

def layoutItems (slot : Slot) : List Value → String
  | [] => ""
  | [item] => layout (slot.entry true) item
  | item :: items =>
    layout (slot.entry false) item ++ "," ++ (slot.entry false).newLine ++ layoutItems slot items

def layoutFields (slot : Slot) : List (String × Value) → String
  | [] => ""
  | [(name,value)] =>
    let label := quote name.toList ++ ": "
    label ++ layout ((slot.entry true).after label) value
  | (name,value) :: fields =>
    let label := quote name.toList ++ ": "
    label ++ layout ((slot.entry false).after label) value ++ "," ++ (slot.entry false).newLine ++
      layoutFields slot fields

end

end Pretty

def Value.pretty (value : Value) : String :=
  Pretty.layout ⟨0,0⟩ value.sorted

end SolReader
