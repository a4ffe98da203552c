import SolReader.Outline.Table

namespace SolReader

def Fields.demand (fields : Fields) (name : String) : Except Fault Value :=
  match fields.get? name with
  | some value => .ok value
  | none => .error (.noField name)

namespace Outline

structure Traits where
  visibility : Value
  stateMutability : Value
  isConstructor : Value
  isFallback : Value
  isReceive : Value
  deriving Repr, Inhabited

def Traits.ofNode (node : Fields) : Except Fault Traits := do
  let visibility ← node.demand "visibility"
  let stateMutability ← node.demand "stateMutability"
  let isConstructor ← node.demand "isConstructor"
  let isFallback ← node.demand "isFallback"
  let isReceive ← node.demand "isReceive"
  return ⟨visibility,stateMutability,isConstructor,isFallback,isReceive⟩

structure Callable where
  node : Fields
  traits : Option Traits
  arguments : Table Fields
  returns : Table Fields
  -- Arguments, results and the variables of the body, of which the later ones win.
  declarations : Table Fields
  identifiers : List Fields
  deriving Repr, Inhabited

def Callable.ofNode (node : Fields) (traits : Option Traits) : Except Fault Callable := do
  let arguments ← (← node.demand "parameters").tableOf "Parameter"
  let returns ← match node.get? "returnParameters" with
    | some results => if results.isTruthy then results.tableOf "Parameter" else pure []
    | none => pure []
  let locals ← (← node.demand "body").tableOf "VariableDeclaration"
  let identifiers ← (Value.node node).visited ["Identifier","AssemblyCall"]
  return ⟨node,traits,arguments,returns,(arguments.update returns).update locals,identifiers⟩

structure EventEntry where
  node : Fields
  arguments : Table Fields
  deriving Repr, Inhabited

def EventEntry.ofNode (node : Fields) : Except Fault EventEntry := do
  return ⟨node,← (Value.node node).tableOf "VariableDeclaration"⟩

end Outline

end SolReader
