import SolReader.Proofs.Outline.Trace

namespace SolReader

open List

namespace Fields

-- The value under a name, nothing if there is none.
def read (node : Fields) (name : String) : Value :=
  (node.get? name).getD .null

-- The nodes that stand in the list under a name.
def members (node : Fields) (name : String) : List Fields :=
  match node.read name with
  | .list items => items.filterMap Value.node?
  | _ => []

-- What a node is entered under.
def nameKey (node : Fields) : Key :=
  (Key.ofValue (node.read "name")).toOption.getD .null

end Fields

def Value.members (value : Value) (name : String) : List Fields :=
  match value with
  | .node fields => Fields.members fields name
  | _ => []

namespace Table

-- Nodes entered one after the other under their names.
def ofNodes {α : Type} (entry : Fields → α) (nodes : List Fields) : Table α :=
  nodes.foldl (fun table node => table.insert node.nameKey (entry node)) []

def mapEntries {α β : Type} (change : α → β) (table : Table α) : Table β :=
  table.map fun row => (row.1,change row.2)

end Table

namespace Outline

def Traits.read (node : Fields) : Traits where
  visibility := node.read "visibility"
  stateMutability := node.read "stateMutability"
  isConstructor := node.read "isConstructor"
  isFallback := node.read "isFallback"
  isReceive := node.read "isReceive"

-- What a function or a modifier shows to its callers.
structure Signature where
  node : Fields
  traits : Option Traits
  arguments : Table Fields
  returns : Table Fields

def Signature.ofNode (node : Fields) : Signature where
  node := node
  traits := if Value.isOf ["FunctionDefinition"] node then some (.read node) else none
  arguments := .ofNodes id ((node.read "parameters").members "parameters")
  returns := .ofNodes id ((node.read "returnParameters").members "parameters")

def Callable.signature (member : Callable) : Signature :=
  ⟨member.node,member.traits,member.arguments,member.returns⟩

end Outline

namespace Table

variable {α β : Type}

theorem ofNodes_concat (entry : Fields → α) (nodes : List Fields) (node : Fields) :
    ofNodes entry (nodes ++ [node]) = (ofNodes entry nodes).insert node.nameKey (entry node) := by
  rw [ofNodes,foldl_append]
  rfl

theorem ofNodes_filter (entry : Fields → α) (keep : Fields → Bool) (nodes : List Fields) (node : Fields) :
    ofNodes entry ((nodes ++ [node]).filter keep) =
      if keep node then (ofNodes entry (nodes.filter keep)).insert node.nameKey (entry node)
      else ofNodes entry (nodes.filter keep) := by
  cases kept : keep node with
  | true => simp [filter_append,kept,ofNodes_concat]
  | false => simp [filter_append,kept]

theorem mapEntries_insert (change : α → β) (table : Table α) (key : Key) (entry : α) :
    (table.insert key entry).mapEntries change = (table.mapEntries change).insert key (change entry) := by
  have same : (table.mapEntries change).any (fun row => row.1.same key) = table.any fun row => row.1.same key := by
    rw [mapEntries,any_map]
    rfl
  rw [insert,insert,same]
  split
  · rw [mapEntries,mapEntries,map_map,map_map]
    refine map_congr_left fun row _ => ?_
    simp only [Function.comp]
    split <;> rfl
  · rw [mapEntries,mapEntries,map_append]
    rfl

end Table

namespace Fields

variable {value : Value}
variable {node : Fields} {name : String}

theorem read_eq (found : node.get? name = some value) : node.read name = value := by
  rw [read,found]
  rfl

theorem demand_eq (found : node.get? name = some value) : node.demand name = .ok (node.read name) := by
  rw [demand,read_eq found,found]

theorem get?_of_mem (member : name ∈ node.names) : ∃ value, node.get? name = some value := by
  cases found : node.get? name with
  | some value => exact ⟨value,rfl⟩
  | none =>
    obtain ⟨field,inside,rfl⟩ := mem_map.mp member
    simpa using lookup_eq_none_iff.mp found field inside

theorem key_eq (found : node.get? "name" = some value) (simple : value.isSimple = true) :
    node.key = .ok node.nameKey := by
  rw [key,nameKey,read_eq found,found]
  cases value <;> first | rfl | cases simple

end Fields

namespace Fields.Shaped

variable {type name : String}
variable {node : Fields} {tier : Nat}

theorem has (shaped : node.Shaped tier) (typed : node.typeName = .ok type) {asked : List String}
    (always : ∀ rule : Rule, (rule.makes.all fun made => made.1 != type || asked.all made.2.contains) = true)
    (member : name ∈ asked) : ∃ value, node.get? name = some value := by
  cases shaped with
  | @mk rule own fields place _ listed =>
    cases (show Except.ok own = Except.ok type from typed)
    have checked := all_eq_true.mp (always rule) _ listed
    have among : name ∈ fields.names := by
      simp only [bne_self_eq_false,Bool.false_or,all_eq_true] at checked
      simpa using checked name member
    obtain ⟨field,inside,rfl⟩ := mem_map.mp among
    exact get?_of_mem (mem_map_of_mem (mem_cons_of_mem _ (mem_append_left _ inside)))

theorem word (shaped : node.Shaped tier) (typed : node.typeName = .ok type)
    (other : type ∉ Fields.nodeNamed) (asked : name ∈ Fields.words)
    (found : node.get? name = some value) : value.isSimple = true := by
  cases shaped with
  | @mk rule own fields place _ _ worded placed =>
    cases (show Except.ok own = Except.ok type from typed)
    have apart : ∀ name ∈ Fields.words, name ≠ "loc" ∧ name ≠ "type" := by decide
    rw [get?_made placed (apart name asked).1 (apart name asked).2] at found
    exact (worded _ (mem_of_get? found) asked).resolve_right other

theorem key (shaped : node.Shaped tier) (declares : Value.isOf ["VariableDeclaration"] node = true) :
    node.key = .ok node.nameKey := by
  obtain ⟨type,typed⟩ := shaped.typed
  rw [Value.isOf_eq typed] at declares
  cases (show type = "VariableDeclaration" by simpa using declares)
  have always : ∃ value, node.get? "name" = some value := shaped.has typed (by decide) (mem_singleton_self _)
  obtain ⟨name,found⟩ := always
  exact key_eq found (shaped.word typed (by decide) (by decide) found)

end Fields.Shaped

namespace Value

variable {value : Value}

theorem tableOf_eq (complete : value.trace.fault = none)
    (each : ∀ node ∈ value.trace.nodes, node.Typed ∧ (isOf [type] node = true → node.key = .ok node.nameKey)) :
    value.tableOf type = .ok (.ofNodes id (value.trace.nodes.filter (isOf [type]))) := by
  let Tracks (done : List Fields) (table : Table Fields) : Prop := table = .ofNodes id done
  have step : ∀ node ∈ value.trace.nodes, isOf [type] node = true → ∀ done table, Tracks done table → ∃ next,
      (do return table.insert (← node.key) node) = Except.ok next ∧ Tracks (done ++ [node]) next := by
    rintro node member sort done table rfl
    rw [(each node member).2 sort]
    exact ⟨_,rfl,(Table.ofNodes_concat id done node).symm⟩
  obtain ⟨table,folded,rfl⟩ := foldOf_tracks complete (fun node member => (each node member).1) step rfl
  exact folded

theorem tableOf_variables (shaped : value.All (Fields.Shaped tier)) :
    ∃ table, value.tableOf "VariableDeclaration" = .ok table := by
  have walked := value.trace_over (shaped.imp fun _ own => own.typed)
  refine ⟨_,tableOf_eq walked.complete fun node member => ?_⟩
  have own := shaped node (walked.met node member)
  exact ⟨own.typed,own.key⟩

theorem Parameters.tableOf (parameters : value.Parameters) :
    value.tableOf "Parameter" = .ok (.ofNodes id (value.members "parameters")) := by
  cases parameters with
  | missing => rfl
  | none => rfl
  | @listed items place each placed =>
    have parameter (own : Fields) (inside : .node own ∈ items) : own.Parameter := by
      obtain ⟨node,same,parameter⟩ := each _ inside
      cases same
      exact parameter
    have typed (own : Fields) (inside : .node own ∈ items) : (node own).All Fields.Typed :=
      (parameter own inside).shaped.all_typed (parameter own inside).inside
    have apart (own : Fields) (inside : .node own ∈ items) (inner : Fields) (held : inner ∈ fieldNodes own) :
        isOf ["Parameter"] inner = false := ((parameter own inside).inside inner held).not_isOf (by decide)
    obtain ⟨complete,met⟩ := traceItems_met typed
    have kept : (traceItems items).nodes.filter (isOf ["Parameter"]) = items.filterMap node? :=
      (traceItems_filter typed apart).trans
        (filter_eq_self.mpr fun own member => (parameter own (mem_members.mp member)).isParameter)
    rw [tableOf_eq]
    · rw [trace_list rfl placed,Trace.nodes_append rfl,cons_append,nil_append,filter_cons,
        if_neg nofun,kept]
      rfl
    · rw [trace_list rfl placed,Trace.fault_append rfl,complete]
    · rw [trace_list rfl placed,Trace.nodes_append rfl]
      refine forall_mem_cons.mpr ⟨⟨⟨_,rfl⟩,nofun⟩,fun node member => ?_⟩
      obtain ⟨own,inside,held⟩ := met node member
      refine ⟨typed own inside node held,fun isParameter => ?_⟩
      rcases mem_cons.mp held with rfl | deeper
      · obtain ⟨name,found,simple⟩ := (parameter node inside).named
        exact Fields.key_eq found simple
      · rw [apart own inside node deeper] at isParameter
        cases isParameter

end Value

namespace Outline

variable {node : Fields}

theorem Callable.ofNode_signature (member : node.Member)
    (callable : Value.isOf ["FunctionDefinition","ModifierDefinition"] node = true) (traits : Option Traits) :
    ∃ object, Callable.ofNode node traits = .ok object ∧ object.signature =
      ⟨node,traits,.ofNodes id ((node.read "parameters").members "parameters"),
        .ofNodes id ((node.read "returnParameters").members "parameters")⟩ := by
  obtain ⟨type,typed⟩ := member.shaped.typed
  rw [Value.isOf_eq typed] at callable
  have has (name : String) (asked : name ∈ ["parameters","body"]) : ∃ value, node.get? name = some value := by
    have either : type = "FunctionDefinition" ∨ type = "ModifierDefinition" := by simpa using callable
    rcases either with rfl | rfl
    · exact member.shaped.has typed (by decide) asked
    · exact member.shaped.has typed (by decide) asked
  obtain ⟨parameters,isParameters⟩ := has "parameters" (by decide)
  obtain ⟨body,isBody⟩ := has "body" (by decide)
  have signed := member.signed (Value.isOf_eq typed _ ▸ callable)
  have arguments := (signed "parameters" (by decide) parameters isParameters).tableOf
  obtain ⟨locals,declared⟩ : ∃ table, body.tableOf "VariableDeclaration" = .ok table := by
    refine Value.tableOf_variables fun inner held => member.inside inner ?_
    exact Value.mem_fieldNodes.mpr ⟨_,Fields.mem_of_get? isBody,held⟩
  have whole : (Value.node node).trace.fault = none :=
    (Value.trace_over _ (member.shaped.all_typed member.inside)).complete
  have identifiers (types : List String) : ∃ found, (Value.node node).visited types = .ok found := by
    rw [Value.visited,whole]
    exact ⟨_,rfl⟩
  obtain ⟨found,visited⟩ := identifiers ["Identifier","AssemblyCall"]
  rw [Callable.ofNode,Fields.demand_eq isParameters,Fields.demand_eq isBody,Fields.read_eq isParameters,
    Fields.read_eq isBody,visited]
  simp only [bind,Except.bind,pure,Except.pure,arguments,declared]
  -- Without results, or without a list of them, nothing is returned.
  cases results : node.get? "returnParameters" with
  | none =>
    refine ⟨_,rfl,?_⟩
    rw [Fields.read,results]
    rfl
  | some value =>
    rw [Fields.read_eq results]
    have returns := signed "returnParameters" (by decide) value results
    dsimp only
    split
    · rw [returns.tableOf]
      exact ⟨_,rfl,rfl⟩
    · rename_i nothing
      cases returns with
      | missing => exact ⟨_,rfl,rfl⟩
      | none => exact ⟨_,rfl,rfl⟩
      | listed each placed => exact absurd rfl nothing

theorem Traits.ofNode_eq (shaped : node.Shaped tier)
    (typed : node.typeName = .ok "FunctionDefinition") : Traits.ofNode node = .ok (.read node) := by
  have has (name : String)
      (asked : name ∈ ["visibility","stateMutability","isConstructor","isFallback","isReceive"]) :
      node.demand name = .ok (node.read name) := by
    obtain ⟨value,found⟩ := shaped.has typed (by decide) asked
    exact Fields.demand_eq found
  rw [Traits.ofNode,has _ (by decide),has _ (by decide),has _ (by decide),has _ (by decide),has _ (by decide)]
  rfl

end Outline

end SolReader
