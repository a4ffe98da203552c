import SolReader.Proofs.Outline.Members

namespace SolReader

open List

namespace Outline

structure ContractSketch where
  node : Fields
  name : Value
  enums : Table Fields
  structs : Table Fields
  events : Table Fields
  modifiers : Table Signature
  functions : Table Signature
  maker : Option Signature

def isMaker (node : Fields) : Bool :=
  match node.read "isConstructor" with
  | .bool truth => truth
  | _ => false

-- The sketch of a contract that has these members.
def ContractSketch.ofMembers (node : Fields) (members : List Fields) : ContractSketch where
  node := node
  name := node.read "name"
  enums := .ofNodes id (members.filter (Value.isOf ["EnumDefinition"]))
  structs := .ofNodes id (members.filter (Value.isOf ["StructDefinition"]))
  events := .ofNodes id (members.filter (Value.isOf ["EventDefinition"]))
  modifiers := .ofNodes Signature.ofNode (members.filter (Value.isOf ["ModifierDefinition"]))
  functions := .ofNodes Signature.ofNode (members.filter (Value.isOf ["FunctionDefinition"]))
  maker := (members.filter isMaker).getLast?.map Signature.ofNode

def ContractSketch.ofNode (node : Fields) : ContractSketch :=
  .ofMembers node (node.members "subNodes")

structure Sketch where
  imports : List Fields
  pragmas : List Fields
  contracts : Table ContractSketch
  current : Option ContractSketch

def Sketch.ofItems (items : List Fields) : Sketch where
  imports := items.filter (Value.isOf ["ImportDirective"])
  pragmas := items.filter (Value.isOf ["PragmaDirective"])
  contracts := .ofNodes ContractSketch.ofNode (items.filter (Value.isOf ["ContractDefinition"]))
  current := (items.filter (Value.isOf ["ContractDefinition"])).getLast?.map ContractSketch.ofNode

def Sketch.ofValue (value : Value) : Sketch :=
  .ofItems (value.members "children")

-- What an outline says apart from what is found only by looking deep: state variables, what names stand for, the
-- arguments of events, and the variables and identifiers of bodies.
def Contract.sketch (contract : Contract) : ContractSketch where
  node := contract.node
  name := contract.name
  enums := contract.enums
  structs := contract.structs
  events := contract.events.mapEntries EventEntry.node
  modifiers := contract.modifiers.mapEntries Callable.signature
  functions := contract.functions.mapEntries Callable.signature
  maker := contract.maker.map Callable.signature

end Outline

def Outline.sketch (outline : Outline) : Outline.Sketch where
  imports := outline.imports
  pragmas := outline.pragmas
  contracts := outline.contracts.mapEntries Contract.sketch
  current := outline.current.map Contract.sketch

namespace Outline

variable {node : Fields} {tier : Nat} {value : Value}

theorem makers_checked : ∀ rule : Rule, (
    rule.makes.all fun made => made.1 == "FunctionDefinition" || !made.2.contains "isConstructor") = true := by
  decide

theorem not_isMaker (shaped : node.Shaped tier)
    (other : Value.isOf ["FunctionDefinition"] node = false) : isMaker node = false := by
  cases shaped with
  | @mk rule type fields place _ listed _ placed =>
    have typed : Fields.typeName (("type",.text type) :: fields ++ place) = .ok type := rfl
    rw [Value.isOf_eq typed] at other
    have checked := all_eq_true.mp (makers_checked rule) _ listed
    have absent : "isConstructor" ∉ fields.names := by simp_all
    have missing : Fields.get? fields "isConstructor" = none := by
      cases found : Fields.get? fields "isConstructor" with
      | none => rfl
      | some value => exact absurd (mem_map_of_mem (Fields.mem_of_get? found)) absent
    rw [isMaker,Fields.read,Fields.get?_made placed (by decide) (by decide),missing]
    rfl

-- One more member in a sketch.
def ContractSketch.add (sketch : ContractSketch) (node : Fields) : ContractSketch where
  node := sketch.node
  name := sketch.name
  enums := if Value.isOf ["EnumDefinition"] node then sketch.enums.insert node.nameKey node else sketch.enums
  structs := if Value.isOf ["StructDefinition"] node then sketch.structs.insert node.nameKey node else sketch.structs
  events := if Value.isOf ["EventDefinition"] node then sketch.events.insert node.nameKey node else sketch.events
  modifiers :=
    if Value.isOf ["ModifierDefinition"] node then sketch.modifiers.insert node.nameKey (.ofNode node) else sketch.modifiers
  functions :=
    if Value.isOf ["FunctionDefinition"] node then sketch.functions.insert node.nameKey (.ofNode node) else sketch.functions
  maker := if isMaker node then some (.ofNode node) else sketch.maker

theorem getLast?_filter {α : Type} (entry : Fields → α) (keep : Fields → Bool) (nodes : List Fields) (node : Fields) :
    ((nodes ++ [node]).filter keep).getLast?.map entry =
      if keep node then some (entry node) else (nodes.filter keep).getLast?.map entry := by
  cases kept : keep node with
  | true => simp [filter_append,kept]
  | false => simp [filter_append,kept]

theorem ContractSketch.ofMembers_concat (root : Fields) (nodes : List Fields) (node : Fields) :
    ofMembers root (nodes ++ [node]) = (ofMembers root nodes).add node := by
  simp only [ofMembers,add,Table.ofNodes_filter,getLast?_filter,id]

theorem ContractSketch.add_other (shaped : node.Shaped tier)
    (other : Value.isOf definitionTypes node = false) (sketch : ContractSketch) : sketch.add node = sketch := by
  obtain ⟨type,typed⟩ := shaped.typed
  have absent : type ∉ definitionTypes := by simpa [Value.isOf_eq typed] using other
  simp only [definitionTypes,mem_cons,not_mem_nil,or_false,not_or] at absent
  obtain ⟨enum,struct,event,function,modifier⟩ := absent
  have plain := not_isMaker shaped ((Value.isOf_eq typed _).trans (by simpa using function))
  simp [add,Value.isOf_eq typed,plain,enum,struct,event,function,modifier]

theorem ContractSketch.ofMembers_filter (root : Fields) (shaped : ∀ node ∈ nodes, node.Shaped tier) :
    ofMembers root (nodes.filter (Value.isOf definitionTypes)) = ofMembers root nodes := by
  induction nodes using List.reverseRecOn with
  | nil => rfl
  | append_singleton nodes node ih =>
    have same := ih fun earlier member => shaped earlier (mem_append_left _ member)
    have last := shaped node (mem_append_right _ mem_cons_self)
    rw [filter_append,ofMembers_concat]
    cases sort : Value.isOf definitionTypes node with
    | true => rw [filter_cons_of_pos sort,filter_nil,ofMembers_concat,same]
    | false => rw [filter_cons_of_neg (by simp [sort]),filter_nil,append_nil,same,add_other last sort]

-- What is known of a node inside a contract when it is met.
structure Met (node : Fields) : Prop where
  shaped : (Value.node node).All (Fields.Shaped 0)
  member : Value.isOf definitionTypes node = true → node.Member

namespace Met

variable {node : Fields} {type : String} (met : Met node)

include met

theorem own : node.Shaped 0 := met.shaped node mem_cons_self

theorem definition (typed : node.typeName = .ok type) (defines : definitionTypes.contains type = true) : node.Member :=
  met.member ((Value.isOf_eq typed _).trans defines)

theorem key (typed : node.typeName = .ok type) (defines : definitionTypes.contains type = true) :
    node.key = .ok node.nameKey := by
  obtain ⟨name,named⟩ := (met.definition typed defines).named ((Value.isOf_eq typed _).trans defines)
  exact Fields.key_eq named rfl

theorem plain (typed : node.typeName = .ok type) (other : type ≠ "FunctionDefinition") : isMaker node = false :=
  not_isMaker met.own ((Value.isOf_eq typed _).trans (by simpa using other))

end Met

namespace Contract

-- The contract with what a node defines has the sketch with that member.
def Extends (contract : Contract) (node : Fields) (outcome : Except Fault Contract) : Prop :=
  ∃ next, outcome = .ok next ∧ next.sketch = contract.sketch.add node

variable (contract : Contract) {node : Fields} (met : Met node)

include met

theorem addEnum_extends (typed : node.typeName = .ok "EnumDefinition") :
    contract.Extends node (contract.addEnum node) := by
  rw [addEnum,met.key typed rfl]
  refine ⟨_,rfl,?_⟩
  simp [sketch,ContractSketch.add,Value.isOf_eq typed,met.plain typed]

theorem addStruct_extends (typed : node.typeName = .ok "StructDefinition") :
    contract.Extends node (contract.addStruct node) := by
  rw [addStruct,met.key typed rfl]
  refine ⟨_,rfl,?_⟩
  simp [sketch,ContractSketch.add,Value.isOf_eq typed,met.plain typed]

theorem addEvent_extends (typed : node.typeName = .ok "EventDefinition") :
    contract.Extends node (contract.addEvent node) := by
  obtain ⟨declared,arguments⟩ := Value.tableOf_variables met.shaped
  rw [addEvent,EventEntry.ofNode,arguments,met.key typed rfl]
  refine ⟨_,rfl,?_⟩
  simp [sketch,ContractSketch.add,Value.isOf_eq typed,met.plain typed,Table.mapEntries_insert]

theorem addModifier_extends (typed : node.typeName = .ok "ModifierDefinition") :
    contract.Extends node (contract.addModifier node) := by
  obtain ⟨object,made,signature⟩ :=
    Callable.ofNode_signature (met.definition typed rfl) (Value.isOf_eq typed _) none
  rw [addModifier,met.key typed rfl,made]
  refine ⟨_,rfl,?_⟩
  simp [sketch,ContractSketch.add,Value.isOf_eq typed,met.plain typed,Table.mapEntries_insert,signature,
    Signature.ofNode]

theorem addFunction_extends (typed : node.typeName = .ok "FunctionDefinition") :
    contract.Extends node (contract.addFunction node) := by
  have member := met.definition typed rfl
  have truthy : (Traits.read node).isConstructor.isTruthy = isMaker node := by
    obtain ⟨truth,making⟩ := member.making (Value.isOf_eq typed _)
    rw [isMaker,Traits.read,Fields.read_eq making]
    cases truth <;> rfl
  obtain ⟨object,made,signature⟩ :=
    Callable.ofNode_signature member (Value.isOf_eq typed _) (some (.read node))
  rw [addFunction,Traits.ofNode_eq met.own typed,met.key typed rfl]
  simp only [bind,Except.bind,made,truthy]
  refine ⟨_,rfl,?_⟩
  cases maker : isMaker node <;>
    simp [sketch,ContractSketch.add,Value.isOf_eq typed,maker,Table.mapEntries_insert,signature,Signature.ofNode]

theorem addStateVars_extends (typed : node.typeName = .ok "StateVariableDeclaration") :
    contract.Extends node (contract.addStateVars node) := by
  have walked := (Value.node node).trace_over (met.shaped.imp fun _ own => own.typed)
  have shaped (inner : Fields) (visited : inner ∈ (Value.node node).trace.nodes) : inner.Shaped 0 :=
    met.shaped inner (walked.met inner visited)
  let Same (_ : List Fields) (state : Contract) : Prop := state.sketch = contract.sketch.add node
  refine @Value.foldOf_tracks Contract _ _ _ contract Same walked.complete (fun inner visited => ?_) ?_ ?_
  · exact (shaped inner visited).typed
  · intro inner visited declares _ state same
    rw [(shaped inner visited).key declares]
    exact ⟨_,rfl,same⟩
  · exact (ContractSketch.add_other met.own (Value.isOf_eq typed _) _).symm

theorem add_extends : contract.Extends node (contract.add node) := by
  obtain ⟨type,typed⟩ := met.own.typed
  rw [add,typed]
  dsimp only [bind,Except.bind]
  split
  · exact contract.addEnum_extends met typed
  · exact contract.addStruct_extends met typed
  · exact contract.addStateVars_extends met typed
  · exact contract.addEvent_extends met typed
  · exact contract.addFunction_extends met typed
  · exact contract.addModifier_extends met typed
  · rename_i enum struct _ event function modifier
    refine ⟨contract,rfl,(ContractSketch.add_other met.own ?_ _).symm⟩
    simp only [Value.isOf_eq typed,definitionTypes,contains_eq_mem,decide_eq_false_iff_not,mem_cons,
      not_mem_nil,or_false,not_or]
    exact ⟨enum,struct,event,function,modifier⟩

end Contract

theorem not_definition (shaped : node.Shaped 3) : Value.isOf definitionTypes node = false :=
  shaped.not_isOf (by decide)

theorem Contract.visit (contract : node.Contract) :
    (∀ inner ∈ (Value.node node).trace.nodes, Value.isOf definitionTypes inner = true → inner.Member) ∧
      (Value.node node).trace.nodes.filter (Value.isOf definitionTypes) =
        (node.members "subNodes").filter (Value.isOf definitionTypes) := by
  cases contract with
  | @mk name kind bases items place based members placed =>
    have member (own : Fields) (inside : .node own ∈ items) : own.Member := members _ inside own rfl
    have typed (own : Fields) (inside : .node own ∈ items) : (Value.node own).All Fields.Typed :=
      (member own inside).shaped.all_typed (member own inside).inside
    obtain ⟨complete,met⟩ := Value.traceItems_met typed
    have walked := Value.traceField_over (based.imp fun _ own => own.typed)
    have based (inner : Fields) (visited : inner ∈ (Value.traceField bases).nodes) :
        Value.isOf definitionTypes inner = false := not_definition (based inner (walked.met inner visited))
    rw [Value.trace_contract placed rfl,Trace.nodes_append rfl,Trace.nodes_append walked.complete]
    constructor
    · rw [cons_append,nil_append,forall_mem_cons,forall_mem_append]
      refine ⟨nofun,fun inner visited defines => ?_,fun inner visited defines => ?_⟩
      · rw [based inner visited] at defines
        cases defines
      · obtain ⟨own,inside,held⟩ := met inner visited
        rcases mem_cons.mp held with rfl | deeper
        · exact member inner inside
        · rw [not_definition ((member own inside).inside inner deeper)] at defines
          cases defines
    · have absent : (Value.traceField bases).nodes.filter (Value.isOf definitionTypes) = [] :=
        filter_eq_nil_iff.mpr fun inner visited => by simp [based inner visited]
      rw [cons_append,nil_append,filter_cons,if_neg nofun,filter_append,absent,nil_append,
        Value.traceItems_filter typed fun own inside inner held => not_definition ((member own inside).inside inner held)]
      rfl

theorem Contract.ofNode_sketch (item : node.Item) (contract : node.Contract) :
    ∃ object, Contract.ofNode node = .ok object ∧ object.sketch = .ofNode node := by
  have whole : (Value.node node).All (Fields.Shaped 0) :=
    Value.all_node (item.shaped.mono (by decide)) fun inner held => (item.inside inner held).mono (by decide)
  have walked := (Value.node node).trace_over (whole.imp fun _ own => own.typed)
  obtain ⟨definitions,parts⟩ := Contract.visit contract
  have met (inner : Fields) (visited : inner ∈ (Value.node node).trace.nodes) : Met inner :=
    ⟨fun deeper held => whole deeper (Value.nodes_within _ (walked.met inner visited) deeper held),
      definitions inner visited⟩
  obtain ⟨named,members⟩ : (∃ name, node.get? "name" = some name) ∧ ∀ own ∈ node.members "subNodes", own.Shaped 2 := by
    cases contract with
    | mk _ members => exact ⟨⟨_,rfl⟩,fun own inside => (members _ (Value.mem_members.mp inside) own rfl).shaped⟩
  obtain ⟨name,named⟩ := named
  let Tracks (done : List Fields) (state : Contract) : Prop := state.sketch = .ofMembers node done
  have step : ∀ inner ∈ (Value.node node).trace.nodes, ∀ done state, Tracks done state →
      ∃ next, Contract.add state inner = .ok next ∧ Tracks (done ++ [inner]) next := by
    intro inner visited done state tracks
    obtain ⟨next,added,extended⟩ := state.add_extends (met inner visited)
    rw [tracks,← ContractSketch.ofMembers_concat] at extended
    exact ⟨next,added,extended⟩
  have bare : Tracks [] (.bare node (node.read "name")) := rfl
  obtain ⟨object,folded,tracked⟩ := Value.fold_tracks walked.complete step bare
  rw [Contract.ofNode,Fields.demand_eq named]
  refine ⟨object,folded,?_⟩
  calc object.sketch
    _ = .ofMembers node (Value.node node).trace.nodes := tracked
    _ = .ofMembers node ((Value.node node).trace.nodes.filter (Value.isOf definitionTypes)) :=
      (ContractSketch.ofMembers_filter node fun inner visited => (met inner visited).own).symm
    _ = .ofMembers node ((node.members "subNodes").filter (Value.isOf definitionTypes)) := by rw [parts]
    _ = .ofMembers node (node.members "subNodes") := ContractSketch.ofMembers_filter node members

-- One more part of the source in a sketch.
def Sketch.add (sketch : Sketch) (node : Fields) : Sketch where
  imports := if Value.isOf ["ImportDirective"] node then sketch.imports ++ [node] else sketch.imports
  pragmas := if Value.isOf ["PragmaDirective"] node then sketch.pragmas ++ [node] else sketch.pragmas
  contracts :=
    if Value.isOf ["ContractDefinition"] node then sketch.contracts.insert node.nameKey (.ofNode node) else sketch.contracts
  current := if Value.isOf ["ContractDefinition"] node then some (.ofNode node) else sketch.current

theorem Sketch.ofItems_concat (nodes : List Fields) (node : Fields) :
    ofItems (nodes ++ [node]) = (ofItems nodes).add node := by
  have list (types : List String) : (nodes ++ [node]).filter (Value.isOf types) =
      if Value.isOf types node then nodes.filter (Value.isOf types) ++ [node] else nodes.filter (Value.isOf types) := by
    cases sort : Value.isOf types node <;> simp [filter_append,sort]
  simp only [ofItems,add,Table.ofNodes_filter,getLast?_filter]
  rw [list,list]

-- The types of what an outline keeps of a source.
def itemTypes : List String :=
  ["ImportDirective","PragmaDirective","ContractDefinition"]

theorem Sketch.ofItems_filter (nodes : List Fields) : ofItems (nodes.filter (Value.isOf itemTypes)) = ofItems nodes := by
  have narrow {type : String} (among : type ∈ itemTypes) :
      (nodes.filter (Value.isOf itemTypes)).filter (Value.isOf [type]) = nodes.filter (Value.isOf [type]) := by
    rw [filter_filter]
    refine filter_congr fun node _ => ?_
    rw [Value.isOf,Value.isOf]
    cases node.typeName with
    | error fault => rfl
    | ok own =>
      by_cases same : own = type
      · simp [same,among]
      · simp [same]
  simp only [ofItems,narrow (show "ImportDirective" ∈ itemTypes by decide),
    narrow (show "PragmaDirective" ∈ itemTypes by decide),narrow (show "ContractDefinition" ∈ itemTypes by decide)]

theorem add_sketch (outline : Outline) (typed : node.Typed)
    (contract : Value.isOf ["ContractDefinition"] node = true → node.Item) :
    ∃ next, outline.add node = .ok next ∧ next.sketch = outline.sketch.add node := by
  obtain ⟨type,typed⟩ := typed
  have isOf (types : List String) : Value.isOf types node = types.contains type := Value.isOf_eq typed types
  rw [add,typed]
  dsimp only [bind,Except.bind]
  split
  · exact ⟨_,rfl,by simp [sketch,Sketch.add,isOf]⟩
  · exact ⟨_,rfl,by simp [sketch,Sketch.add,isOf]⟩
  · have item := contract (isOf _)
    have known := item.contract (isOf _)
    obtain ⟨name,named⟩ : ∃ name, node.get? "name" = some (.text name) := by
      cases known
      exact ⟨_,rfl⟩
    obtain ⟨object,made,same⟩ := Contract.ofNode_sketch item known
    rw [addContract,Fields.key_eq named rfl,made]
    exact ⟨_,rfl,by simp [sketch,Sketch.add,isOf,Table.mapEntries_insert,same]⟩
  · rename_i pragma directive definition
    refine ⟨outline,rfl,?_⟩
    have absent : type ∉ itemTypes := by
      simp only [itemTypes,mem_cons,not_mem_nil,or_false,not_or]
      exact ⟨directive,pragma,definition⟩
    simp_all [sketch,Sketch.add,itemTypes]

theorem not_item (shaped : node.Shaped 2) : Value.isOf itemTypes node = false :=
  shaped.not_isOf (by decide)

theorem visit (source : value.Source) : value.trace.fault = none ∧
      (∀ node ∈ value.trace.nodes, node.Typed ∧ (Value.isOf ["ContractDefinition"] node = true → node.Item)) ∧
      value.trace.nodes.filter (Value.isOf itemTypes) = (value.members "children").filter (Value.isOf itemTypes) := by
  cases source with
  | @mk items place each placed =>
    have item (own : Fields) (inside : .node own ∈ items) : own.Item := each _ inside own rfl
    have typed (own : Fields) (inside : .node own ∈ items) : (Value.node own).All Fields.Typed :=
      (item own inside).shaped.all_typed (item own inside).inside
    obtain ⟨complete,met⟩ := Value.traceItems_met typed
    rw [Value.trace_list rfl placed,Trace.fault_append rfl,Trace.nodes_append rfl,cons_append,nil_append]
    refine ⟨complete,forall_mem_cons.mpr ⟨⟨⟨_,rfl⟩,nofun⟩,fun node visited => ?_⟩,?_⟩
    · obtain ⟨own,inside,held⟩ := met node visited
      refine ⟨typed own inside node held,fun contract => ?_⟩
      rcases mem_cons.mp held with rfl | deeper
      · exact item node inside
      · have other : Value.isOf ["ContractDefinition"] node = false :=
          ((item own inside).inside node deeper).not_isOf (by decide)
        rw [other] at contract
        cases contract
    · rw [filter_cons,if_neg nofun,
        Value.traceItems_filter typed fun own inside inner held => not_item ((item own inside).inside inner held)]
      rfl

theorem ofValue_sketch (source : value.Source) :
    ∃ outline, ofValue value = .ok outline ∧ outline.sketch = .ofValue value := by
  obtain ⟨complete,met,parts⟩ := visit source
  let Tracks (done : List Fields) (outline : Outline) : Prop := outline.sketch = .ofItems done
  have step : ∀ node ∈ value.trace.nodes, ∀ done outline, Tracks done outline →
      ∃ next, outline.add node = .ok next ∧ Tracks (done ++ [node]) next := by
    intro node visited done outline tracks
    obtain ⟨typed,item⟩ := met node visited
    obtain ⟨next,added,extended⟩ := outline.add_sketch typed item
    rw [tracks,← Sketch.ofItems_concat] at extended
    exact ⟨next,added,extended⟩
  have start : Tracks [] bare := rfl
  obtain ⟨outline,folded,tracked⟩ := Value.fold_tracks complete step start
  refine ⟨outline,folded,?_⟩
  calc outline.sketch
    _ = .ofItems value.trace.nodes := tracked
    _ = .ofItems (value.trace.nodes.filter (Value.isOf itemTypes)) := (Sketch.ofItems_filter _).symm
    _ = .ofItems ((value.members "children").filter (Value.isOf itemTypes)) := by rw [parts]
    _ = .ofItems (value.members "children") := Sketch.ofItems_filter _

end Outline

-- However much is wrong in a text, an outline can be made of its abstract tree, and it lists the parts of the source and
-- of the contracts as they stand there.
theorem parse_outline (text : String) (located : Bool) :
    ((parse text "sourceUnit" located).1 >>= Outline.ofValue).map Outline.sketch =
      (parse text "sourceUnit" located).1.map Outline.Sketch.ofValue := by
  have known : Rule.ofName? "sourceUnit" = some .sourceUnit := by decide
  obtain ⟨fitted,whole⟩ := Reading.ofText_fitted .sourceUnit text
  have means : (parse text "sourceUnit" located).1 = (Reading.ofText .sourceUnit text).tree.meaning located := by
    rw [parse,known]
  rw [means]
  cases result : (Reading.ofText .sourceUnit text).tree.meaning located with
  | error fault => rfl
  | ok value =>
    have source : value.Source := by
      rw [Tree.meaning_seen whole] at result
      exact fitted.sourceUnit whole value result
    obtain ⟨outline,made,same⟩ := Outline.ofValue_sketch source
    change (Outline.ofValue value).map Outline.sketch = .ok (Outline.Sketch.ofValue value)
    rw [made,← same]
    rfl

end SolReader
