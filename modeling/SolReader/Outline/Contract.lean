import SolReader.Outline.Member

namespace SolReader.Outline

inductive Named where
  | node (fields : Fields)
  | callable (member : Callable)
  | event (member : EventEntry)
  deriving Repr, Inhabited

structure Contract where
  node : Fields
  name : Value
  stateVars : Table Fields
  names : Table Named
  enums : Table Fields
  structs : Table Fields
  events : Table EventEntry
  modifiers : Table Callable
  functions : Table Callable
  maker : Option Callable
  deriving Repr, Inhabited

namespace Contract

def bare (node : Fields) (name : Value) : Contract :=
  ⟨node,name,[],[],[],[],[],[],[],none⟩

def addEnum (contract : Contract) (node : Fields) : Except Fault Contract := do
  let key ← node.key
  return { contract with enums := contract.enums.insert key node, names := contract.names.insert key (.node node) }

def addStruct (contract : Contract) (node : Fields) : Except Fault Contract := do
  let key ← node.key
  return { contract with structs := contract.structs.insert key node, names := contract.names.insert key (.node node) }

-- Every variable declared inside the declaration counts as a state variable.
def addStateVars (contract : Contract) (node : Fields) : Except Fault Contract :=
  (Value.node node).foldOf ["VariableDeclaration"] (fun (contract : Contract) (declared : Fields) => do
    let key ← declared.key
    return { contract with
      stateVars := contract.stateVars.insert key declared
      names := contract.names.insert key (.node declared) }) contract

def addEvent (contract : Contract) (node : Fields) : Except Fault Contract := do
  let member ← EventEntry.ofNode node
  let key ← node.key
  return { contract with
    names := contract.names.insert key (.event member)
    events := contract.events.insert key member }

def addModifier (contract : Contract) (node : Fields) : Except Fault Contract := do
  let key ← node.key
  let member ← Callable.ofNode node none
  return { contract with
    names := contract.names.insert key (.callable member)
    modifiers := contract.modifiers.insert key member }

def addFunction (contract : Contract) (node : Fields) : Except Fault Contract := do
  let traits ← Traits.ofNode node
  let key ← node.key
  let member ← Callable.ofNode node (some traits)
  return { contract with
    names := contract.names.insert key (.callable member)
    functions := contract.functions.insert key member
    maker := if traits.isConstructor.isTruthy then some member else contract.maker }

def add (contract : Contract) (node : Fields) : Except Fault Contract := do
  match ← node.typeName with
  | "EnumDefinition" => contract.addEnum node
  | "StructDefinition" => contract.addStruct node
  | "StateVariableDeclaration" => contract.addStateVars node
  | "EventDefinition" => contract.addEvent node
  | "FunctionDefinition" => contract.addFunction node
  | "ModifierDefinition" => contract.addModifier node
  | _ => return contract

def ofNode (node : Fields) : Except Fault Contract := do
  (Value.node node).fold add (bare node (← node.demand "name"))

end Contract

end SolReader.Outline
