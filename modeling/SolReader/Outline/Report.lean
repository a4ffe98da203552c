import SolReader.Ast.Display
import SolReader.Outline

namespace SolReader

def Value.part (value : Value) (name : String) : Except Fault Value :=
  match value with
  | .node fields => Fields.demand fields name
  | other => .error (.noPart other.shape name)

namespace Outline

def line (level : Nat) (text : String) : String :=
  "".pushn '\t' level ++ text ++ "\n"

def item (level : Nat) (text : String) : String :=
  line level ("* " ++ text)

def commaJoined (values : List Value) : Except Fault String := do
  let texts ← values.zipIdx.mapM fun (value,position) => match value with
    | .text content => Except.ok content
    | other => .error (.notText position other.shape)
  return ",".intercalate texts

def entries : Value → Except Fault (List Value)
  | .list items => .ok items
  | other => .error (.uncountable other.shape)

def listing (level : Nat) (title : String) {α : Type} (table : Table α) (entry : Key → α → Except Fault String) :
    Except Fault String := do
  let items ← table.mapM fun (key,value) => entry key value
  return line level ("=== " ++ title) ++ String.join (items.map (item (level + 2)))

def nameOnly {α : Type} (key : Key) (_ : α) : Except Fault String :=
  .ok key.display

def functionEntry (key : Key) (member : Callable) : Except Fault String := do
  let restrictions := match member.traits with
    | some traits => [traits.visibility,traits.stateMutability].filter Value.isTruthy
    | none => []
  return key.display ++ "\t\t (" ++ (← commaJoined restrictions) ++ ")"

namespace Contract

def baseNames (contract : Contract) : Except Fault String := do
  let bases ← entries (← contract.node.demand "baseContracts")
  commaJoined (← bases.mapM fun base => do (← base.part "baseName").part "namePath")

def report (contract : Contract) (key : Key) (level : Nat) : Except Fault String := do
  let bases ← contract.baseNames
  let enums ← Outline.listing level "Enums" contract.enums nameOnly
  let structs ← Outline.listing level "Structs" contract.structs nameOnly
  let stateVars ← Outline.listing level "statevars" contract.stateVars nameOnly
  let modifiers ← Outline.listing level "modifiers" contract.modifiers nameOnly
  let functions ← Outline.listing level "functions" contract.functions functionEntry
  return line 0 ("=== contract: " ++ key.display) ++ line level ("=== Inherited Contracts: " ++ bases) ++
    enums ++ structs ++ stateVars ++ modifiers ++ functions

end Contract

-- An outline as text. Every contract is indented one level deeper than the one before it.
def report (outline : Outline) : Except Fault String := do
  let contracts ← outline.contracts.zipIdx.mapM fun ((key,contract),position) =>
    contract.report key (position + 1)
  let listed (nodes : List Fields) : String := String.join (nodes.map fun node => item 1 (Value.node node).display)
  return line 0 "=== pragmas ===" ++ listed outline.pragmas ++ line 0 "=== imports ===" ++ listed outline.imports ++
    String.join contracts

end Outline

end SolReader
