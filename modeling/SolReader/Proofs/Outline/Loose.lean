import SolReader.Outline.Report
import SolReader.Proofs.Ast.Layout
import SolReader.Proofs.Outline.Members

namespace SolReader

open List

-- Where both computations have results, the results are related.
def Agrees {α β : Type} (related : α → β → Prop) (one : Except Fault α) (two : Except Fault β) : Prop :=
  ∀ value other, one = .ok value → two = .ok other → related value other

namespace Agrees

variable {α β γ δ : Type} {related : α → β → Prop} {also : γ → δ → Prop}

theorem any (one : Except Fault α) (two : Except Fault β) : Agrees (fun _ _ => True) one two := fun _ _ _ _ => trivial

theorem ok {value : α} {other : β} (pair : related value other) : Agrees related (.ok value) (.ok other) := by
  rintro _ _ ⟨⟩ ⟨⟩
  exact pair

theorem same (outcome : Except Fault α) : Agrees Eq outcome outcome := by
  rintro _ _ first second
  exact Except.ok.inj (first.symm.trans second)

theorem each {one : Except Fault α} {two : Except Fault β} {first : α → Prop} {second : β → Prop} (own : Yields first one)
    (own' : Yields second two) : Agrees (fun value other => first value ∧ second other) one two :=
  fun value other left right => ⟨own value left,own' other right⟩

theorem bind {one : Except Fault α} {two : Except Fault β} {next : α → Except Fault γ} {next' : β → Except Fault δ}
    (first : Agrees related one two) (second : ∀ value other, related value other → Agrees also (next value) (next' other)) :
    Agrees also (one >>= next) (two >>= next') := by
  intro value other left right
  cases one with
  | error fault => cases left
  | ok before =>
    cases two with
    | error fault => cases right
    | ok before' => exact second before before' (first _ _ rfl rfl) value other left right

theorem after {one two : Except Fault α} {next : α → Except Fault γ} {next' : α → Except Fault δ} (agree : one = two)
    (each : ∀ value, Agrees also (next value) (next' value)) : Agrees also (one >>= next) (two >>= next') := by
  rw [agree]
  refine (Agrees.same two).bind ?_
  rintro value _ rfl
  exact each value

theorem foldlM {step : γ → α → Except Fault γ} {step' : δ → β → Except Fault δ} {items : List α} {others : List β}
    (paired : List.Forall₂ related items others) {state : γ} {state' : δ} (start : also state state')
    (each : ∀ state state' item other, also state state' → related item other →
      Agrees also (step state item) (step' state' other)) :
    Agrees also (items.foldlM step state) (others.foldlM step' state') := by
  induction paired generalizing state state' with
  | nil => exact .ok start
  | cons pair _ ih =>
    rw [foldlM_cons,foldlM_cons]
    exact (each _ _ _ _ start pair).bind fun _ _ next => ih next

theorem mapM {each : α → Except Fault γ} {each' : β → Except Fault δ} {items : List α} {others : List β}
    (paired : List.Forall₂ related items others) (steps : ∀ item other, related item other → Agrees also (each item) (each' other)) :
    Agrees (List.Forall₂ also) (items.mapM each) (others.mapM each') := by
  induction paired with
  | nil => exact .ok .nil
  | cons pair _ ih =>
    rw [mapM_cons,mapM_cons]
    exact (steps _ _ pair).bind fun _ _ first => ih.bind fun _ _ rest => .ok (.cons first rest)

end Agrees

-- The values are the same apart from the places in pieces of the parse tree.
def Value.Twin (value other : Value) : Prop := value.loose = other.loose

def Fields.Twin (node other : Fields) : Prop := Value.looseFields node = Value.looseFields other

namespace Fields

theorem key_loose (node : Fields) : key (Value.looseFields node) = node.key := by
  rw [key,key,Value.get?_looseFields]
  cases node.get? "name" with
  | none => rfl
  | some value =>
    cases value with
    | tree piece => cases piece <;> rfl
    | _ => rfl

theorem typeName_loose (node : Fields) : typeName (Value.looseFields node) = node.typeName := by
  rw [typeName,typeName,Value.get?_looseFields]
  cases node.get? "type" with
  | none => rfl
  | some value =>
    cases value with
    | tree piece => cases piece <;> rfl
    | _ => rfl

variable {node other : Fields} (twin : node.Twin other)

include twin

theorem Twin.key : node.key = other.key := by rw [← key_loose node,twin,key_loose]

theorem Twin.nameKey : node.nameKey = other.nameKey := by
  have named (node : Fields) : node.nameKey = node.key.toOption.getD .null := by
    rw [Fields.nameKey,read,Fields.key]
    cases node.get? "name" <;> rfl
  rw [named,named,twin.key]

theorem Twin.typeName : node.typeName = other.typeName := by rw [← typeName_loose node,twin,typeName_loose]

theorem Twin.demand (name : String) : Agrees Value.Twin (node.demand name) (other.demand name) := by
  have found : (node.get? name).map Value.loose = (other.get? name).map Value.loose := by
    rw [← Value.get?_looseFields,← Value.get?_looseFields,twin]
  intro value value' one two
  unfold Fields.demand at one two
  split at one <;> cases one
  split at two <;> cases two
  simp_all [Value.Twin]

end Fields

def Trace.loose (trace : Trace) : Trace := ⟨trace.nodes.map Value.looseFields,trace.fault⟩

theorem Trace.loose_append (first second : Trace) : (first.append second).loose = first.loose.append second.loose := by
  rw [append,append]
  cases faulty : first.fault.isSome <;> simp [loose,faulty]

namespace Value

theorem isTruthy_loose (value : Value) : value.loose.isTruthy = value.isTruthy := by
  cases value with
  | list items => cases items <;> rfl
  | record fields => cases fields <;> rfl
  | node fields => cases fields <;> rfl
  | _ => rfl

mutual

theorem trace_loose : (value : Value) → value.loose.trace = value.trace.loose
  | .node fields => by
    rw [loose,trace,trace,Fields.typeName_loose]
    cases Fields.typeName fields with
    | error fault => rfl
    | ok type =>
      dsimp only
      rw [Trace.loose_append,traceFields_loose fields]
      rfl
  | .null | .bool _ | .number _ | .text _ | .list _ | .record _ | .tree _ => rfl

theorem traceFields_loose : (fields : List (String × Value)) → traceFields (looseFields fields) = (traceFields fields).loose
  | [] => rfl
  | (name,value) :: fields => by
    have field : traceField value.loose = (traceField value).loose := by
      cases value with
      | list items => exact traceItems_loose items
      | node own => exact trace_loose (.node own)
      | _ => rfl
    rw [looseFields,traceFields_cons,traceFields_cons,traceFields_loose fields,field]
    split
    · rfl
    · rw [Trace.loose_append]

theorem traceItems_loose : (items : List Value) → traceItems (looseItems items) = (traceItems items).loose
  | [] => rfl
  | item :: items => by
    rw [looseItems,traceItems,traceItems,trace_loose item,traceItems_loose items,Trace.loose_append]

end

variable {value other : Value} {σ : Type} {related : σ → σ → Prop} {state state' : σ} {step : σ → Fields → Except Fault σ}

theorem Twin.fold (twin : value.Twin other) (start : related state state')
    (each : ∀ state state' node node', related state state' → node.Twin node' →
      Agrees related (step state node) (step state' node')) :
    Agrees related (value.fold step state) (other.fold step state') := by
  have traces : value.trace.loose = other.trace.loose := by rw [← trace_loose,twin,trace_loose]
  obtain ⟨nodes,faults⟩ := Trace.mk.inj traces
  refine (Agrees.foldlM (map_eq_iff_paired.mp nodes) start each).bind fun final final' good => ?_
  rw [faults]
  cases other.trace.fault with
  | none => exact .ok good
  | some fault => exact fun _ _ impossible => by cases impossible

theorem Twin.foldOf (twin : value.Twin other) (types : List String) (start : related state state')
    (each : ∀ state state' node node', related state state' → node.Twin node' →
      Agrees related (step state node) (step state' node')) :
    Agrees related (value.foldOf types step state) (other.foldOf types step state') := by
  refine twin.fold start fun state state' node node' good pair => .after pair.typeName fun type => ?_
  split
  · exact each state state' node node' good pair
  · exact .ok good

end Value

theorem Table.insert_alike {α β : Type} {change : α → β} {table other : Table α} {entry entry' : α}
    (same : table.mapEntries change = other.mapEntries change) (alike : change entry = change entry') (key : Key) :
    (table.insert key entry).mapEntries change = (other.insert key entry').mapEntries change := by
  rw [mapEntries_insert,mapEntries_insert,same,alike]

namespace Outline

-- What is printed of a function beside its name.
def Callable.restrictions (member : Callable) : List Value :=
  match member.traits with
  | some traits => [traits.visibility,traits.stateMutability].filter Value.isTruthy
  | none => []

-- The contracts are printed alike.
structure Contract.Twin (contract other : Contract) : Prop where
  node : contract.node.Twin other.node
  stateVars : contract.stateVars.mapEntries (fun _ => ()) = other.stateVars.mapEntries fun _ => ()
  enums : contract.enums.mapEntries (fun _ => ()) = other.enums.mapEntries fun _ => ()
  structs : contract.structs.mapEntries (fun _ => ()) = other.structs.mapEntries fun _ => ()
  modifiers : contract.modifiers.mapEntries (fun _ => ()) = other.modifiers.mapEntries fun _ => ()
  functions : contract.functions.mapEntries (·.restrictions.map Value.loose) =
    other.functions.mapEntries (·.restrictions.map Value.loose)

theorem Callable.restrictions_twin {member member' : Callable} {traits traits' : Traits} (own : member.traits = some traits)
    (own' : member'.traits = some traits') (visible : traits.visibility.Twin traits'.visibility)
    (mutable : traits.stateMutability.Twin traits'.stateMutability) :
    member.restrictions.map Value.loose = member'.restrictions.map Value.loose := by
  have loosened (values : List Value) : (values.filter Value.isTruthy).map Value.loose =
      (values.map Value.loose).filter Value.isTruthy := by
    rw [filter_map]
    exact congrArg (map Value.loose) (filter_congr fun value _ => value.isTruthy_loose.symm)
  rw [restrictions,restrictions,own,own']
  dsimp only
  rw [loosened,loosened,map_cons,map_cons,visible,map_cons,map_cons,mutable]

theorem Traits.ofNode_twin {node other : Fields} (pair : node.Twin other) :
    Agrees (fun one two => one.visibility.Twin two.visibility ∧ one.stateMutability.Twin two.stateMutability)
      (Traits.ofNode node) (Traits.ofNode other) := by
  refine (pair.demand _).bind fun _ _ visible => (pair.demand _).bind fun _ _ mutable => ?_
  exact (Agrees.any _ _).bind fun _ _ _ => (Agrees.any _ _).bind fun _ _ _ => (Agrees.any _ _).bind fun _ _ _ =>
    .ok ⟨visible,mutable⟩

theorem Callable.ofNode_traits (node : Fields) (traits : Option Traits) :
    Yields (fun member => member.traits = traits) (ofNode node traits) := by
  refine Yields.any.bind fun _ _ => Yields.any.bind fun _ _ => ?_
  dsimp only
  split
  on_goal 1 => split
  all_goals
    refine Yields.any.bind fun _ _ => Yields.any.bind fun _ _ => ?_
    exact Yields.any.bind fun _ _ => Yields.any.bind fun _ _ => .ok rfl

namespace Contract

variable {contract contract' : Contract} {node node' : Fields}

theorem Twin.add (twin : contract.Twin contract') (pair : node.Twin node') :
    Agrees Twin (contract.add node) (contract'.add node') := by
  refine .after pair.typeName fun type => ?_
  split
  · exact .after pair.key fun key => .ok {twin with enums := Table.insert_alike twin.enums rfl key}
  · exact .after pair.key fun key => .ok {twin with structs := Table.insert_alike twin.structs rfl key}
  · have inner : (Value.node node).Twin (.node node') := congrArg Value.node pair
    exact inner.foldOf _ twin fun _ _ _ _ twin pair => .after pair.key fun key =>
      .ok {twin with stateVars := Table.insert_alike twin.stateVars rfl key}
  · exact (Agrees.any _ _).bind fun _ _ _ => (Agrees.any _ _).bind fun _ _ _ => .ok {twin with}
  · refine (Traits.ofNode_twin pair).bind fun traits traits' alike => .after pair.key fun key => ?_
    refine (Agrees.each (Callable.ofNode_traits _ _) (Callable.ofNode_traits _ _)).bind fun member member' own => ?_
    have shown := Callable.restrictions_twin own.1 own.2 alike.1 alike.2
    exact .ok {twin with functions := Table.insert_alike twin.functions shown key}
  · refine .after pair.key fun key => (Agrees.any _ _).bind fun _ _ _ => ?_
    exact .ok {twin with modifiers := Table.insert_alike twin.modifiers rfl key}
  · exact .ok twin

theorem ofNode_twin (pair : node.Twin node') : Agrees Twin (ofNode node) (ofNode node') := by
  have inner : (Value.node node).Twin (.node node') := congrArg Value.node pair
  exact (Agrees.any _ _).bind fun _ _ _ => inner.fold ⟨pair,rfl,rfl,rfl,rfl,rfl⟩ fun _ _ _ _ twin pair => twin.add pair

end Contract

theorem commaJoined_loose (values : List Value) : commaJoined (values.map Value.loose) = commaJoined values := by
  rw [commaJoined,commaJoined,zipIdx_map,mapM_map]
  refine congrArg (fun each => values.zipIdx.mapM each >>= _) (funext fun entry => ?_)
  obtain ⟨value,position⟩ := entry
  cases value with
  | tree piece => cases piece <;> rfl
  | _ => rfl

theorem commaJoined_twin (alike : Forall₂ Value.Twin values others) : commaJoined values = commaJoined others := by
  rw [← commaJoined_loose values,← commaJoined_loose others]
  exact congrArg commaJoined (map_eq_iff_paired.mpr alike)

theorem entries_twin {value other : Value} (twin : value.Twin other) :
    Agrees (Forall₂ Value.Twin) (entries value) (entries other) := by
  intro items items' one two
  unfold entries at one two
  split at one <;> cases one
  split at two <;> cases two
  have alike := Value.list.inj twin
  rw [Value.looseItems_eq,Value.looseItems_eq] at alike
  exact map_eq_iff_paired.mp alike

theorem part_twin {value other : Value} (twin : value.Twin other) (name : String) :
    Agrees Value.Twin (value.part name) (other.part name) := by
  intro inner inner' one two
  unfold Value.part at one two
  split at one
  · split at two
    · exact Fields.Twin.demand (Value.node.inj twin) name inner inner' one two
    · cases two
  · cases one

theorem Contract.Twin.baseNames {contract other : Contract} (twin : contract.Twin other) :
    Agrees Eq contract.baseNames other.baseNames := by
  refine (twin.node.demand _).bind fun _ _ pair => (entries_twin pair).bind fun _ _ alike => ?_
  refine (Agrees.mapM alike fun _ _ base => (part_twin base _).bind fun _ _ named => part_twin named _).bind ?_
  intro names names' alike
  rw [commaJoined_twin alike]
  exact .same _

end Outline

end SolReader
