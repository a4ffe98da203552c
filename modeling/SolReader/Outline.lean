import SolReader.Outline.Contract

namespace SolReader

structure Outline where
  imports : List Fields
  pragmas : List Fields
  contracts : Table Outline.Contract
  current : Option Outline.Contract
  deriving Repr, Inhabited

namespace Outline

def bare : Outline := ⟨[],[],[],none⟩

-- Adds a contract. Its name has to be usable before its members are looked at.
def addContract (outline : Outline) (node : Fields) : Except Fault Outline := do
  let key ← node.key
  let contract ← Contract.ofNode node
  return { outline with contracts := outline.contracts.insert key contract, current := some contract }

def add (outline : Outline) (node : Fields) : Except Fault Outline := do
  match ← node.typeName with
  | "PragmaDirective" => return { outline with pragmas := outline.pragmas ++ [node] }
  | "ImportDirective" => return { outline with imports := outline.imports ++ [node] }
  | "ContractDefinition" => outline.addContract node
  | _ => return outline

def ofValue (value : Value) : Except Fault Outline :=
  value.fold add bare

end Outline

end SolReader
