import SolReader.Ast.Fault

namespace SolReader

structure Trace where
  nodes : List Fields
  fault : Option Fault
  deriving Repr, Inhabited

namespace Trace

def empty : Trace := ⟨[],none⟩

def append (first second : Trace) : Trace :=
  if first.fault.isSome then first else ⟨first.nodes ++ second.nodes,second.fault⟩

end Trace

def Fields.childless : List String := ["type","name","loc"]

def Fields.typeName (fields : Fields) : Except Fault String :=
  match fields.get? "type" with
  | some (.text name) => .ok name
  | some other => .error (.untyped other.shape)
  | none => .error (.noField "type")

namespace Value

mutual

def trace : Value → Trace
  | .node fields =>
    match Fields.typeName fields with
    | .ok _ => Trace.append ⟨[fields],none⟩ (traceFields fields)
    | .error fault => ⟨[],some fault⟩
  | _ => .empty

def traceFields : List (String × Value) → Trace
  | [] => .empty
  | (name,value) :: fields =>
    if Fields.childless.contains name then traceFields fields
    else (match value with
      | .list items => traceItems items
      | value => trace value).append (traceFields fields)

def traceItems : List Value → Trace
  | [] => .empty
  | item :: items => (trace item).append (traceItems items)

end

-- Visits a value with a step for each node. A fault of a step comes before any fault found later in the value.
def fold {σ : Type} (value : Value) (step : σ → Fields → Except Fault σ) (start : σ) : Except Fault σ := do
  let trace := value.trace
  let result ← trace.nodes.foldlM step start
  match trace.fault with
  | some fault => throw fault
  | none => return result

def foldOf {σ : Type} (value : Value) (types : List String) (step : σ → Fields → Except Fault σ) (start : σ) :
    Except Fault σ :=
  value.fold (fun state node => do
    if types.contains (← Fields.typeName node) then step state node else return state) start

def isOf (types : List String) (node : Fields) : Bool :=
  match Fields.typeName node with
  | .ok name => types.contains name
  | .error _ => false

def visited (value : Value) (types : List String) : Except Fault (List Fields) :=
  let trace := value.trace
  match trace.fault with
  | some fault => .error fault
  | none => .ok (trace.nodes.filter (isOf types))

-- What a visit gives back: nothing for a node, and anything else as it is.
def afterVisit : Value → Value
  | .node _ => .null
  | other => other

end Value

end SolReader
