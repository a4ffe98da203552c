import SolReader.Proofs.Outline.Sketch
import SolReader.Proofs.Outline.Tables

namespace SolReader

open List

variable {value : Value}

namespace Table

variable {α β : Type}

theorem keys_mapEntries (change : α → β) (table : Table α) : (table.mapEntries change).keys = table.keys := by
  rw [keys,mapEntries,map_map]
  rfl

theorem get?_mapEntries (change : α → β) (table : Table α) (key : Key) :
    (table.mapEntries change).get? key = (table.get? key).map change := by
  rw [get?,get?,mapEntries,List.find?_map,Option.map_map,Option.map_map]
  rfl

-- The table keeps nodes by their names, the names in the order in which they first come, and under each name what is
-- made of the last node of that name.  So a node is lost only to a later one, and none is lost if all names differ.
structure Lists (node : α → Fields) (nodes : List Fields) (table : Table α) : Prop where
  names : table.keys = (nodes.map Fields.nameKey).eraseDups
  latest : ∀ key, (table.get? key).map node = Fields.latest nodes key
  kept : ∀ own, (∃ row ∈ table, node row.2 = own) ↔ Fields.latest nodes own.nameKey = some own
  whole : table.length = nodes.length ↔ (nodes.map Fields.nameKey).Nodup

theorem get?_of_mem {table : Table α} (plain : ∀ key ∈ table.keys, key.amount? = none) (once : table.keys.Nodup)
    {row : Key × α} (member : row ∈ table) : table.get? row.1 = some row.2 := by
  induction table with
  | nil => cases member
  | cons first table ih =>
    obtain ⟨apart,later⟩ := nodup_cons.mp once
    rw [get?_cons]
    rcases mem_cons.mp member with rfl | inside
    · rw [if_pos (Key.same_refl _)]
    · have other : first.1 ≠ row.1 := fun same => apart (same ▸ mem_map_of_mem inside)
      rw [Key.same_plain (plain _ mem_cons_self),if_neg (by simpa using other)]
      exact ih (fun key held => plain key (mem_cons_of_mem _ held)) later inside

theorem Lists.of {node : α → Fields} {nodes : List Fields} {table : Table α}
    (plain : ∀ own ∈ nodes, own.nameKey.amount? = none) (names : table.keys = (nodes.map Fields.nameKey).eraseDups)
    (latest : ∀ key, (table.get? key).map node = Fields.latest nodes key) : Lists node nodes table where
  names := names
  latest := latest
  kept := by
    intro own
    constructor
    · rintro ⟨row,member,rfl⟩
      have plainly : ∀ key ∈ table.keys, key.amount? = none := by
        intro key held
        rw [names,mem_eraseDups] at held
        obtain ⟨named,inside,rfl⟩ := mem_map.mp held
        exact plain named inside
      have once : table.keys.Nodup := names ▸ Key.nodup_eraseDups _
      have last := latest row.1
      rw [get?_of_mem plainly once member,Option.map_some] at last
      obtain ⟨listed,same⟩ := Fields.mem_latest last.symm
      rw [Key.same_plain (plain _ listed),decide_eq_true_iff] at same
      rw [same]
      exact last.symm
    · intro last
      rw [← latest,Option.map_eq_some_iff] at last
      obtain ⟨entry,found,same⟩ := last
      obtain ⟨row,isRow,rfl⟩ := Option.map_eq_some_iff.mp found
      exact ⟨row,mem_of_find?_eq_some isRow,same⟩
  whole := by
    have entries : table.length = (nodes.map Fields.nameKey).eraseDups.length := by
      rw [← names,keys,length_map]
    rw [entries,← (Key.length_eraseDups _).2,length_map]

theorem ofNodes_lists {entry : Fields → α} {node : α → Fields} (back : ∀ own, node (entry own) = own)
    (plain : ∀ own ∈ nodes, own.nameKey.amount? = none) : Lists node nodes (ofNodes entry nodes) := by
  refine .of plain ?_ fun key => ?_
  · rw [keys_ofNodes,Key.firsts_plain]
    simpa using plain
  · have same : node ∘ entry = id := funext back
    rw [get?_ofNodes,Option.map_map,same,Option.map_id_fun,id]

theorem Lists.of_map {change : α → β} {made : β → Fields} {table : Table α}
    (plain : ∀ own ∈ nodes, own.nameKey.amount? = none) (lists : Lists made nodes (table.mapEntries change)) :
    Lists (made ∘ change) nodes table :=
  .of plain (by rw [← lists.names,keys_mapEntries]) fun key => by rw [← lists.latest,get?_mapEntries,Option.map_map]

end Table

theorem Value.nameKey_plain {name : Value} (simple : name.isSimple = true) :
    ((Key.ofValue name).toOption.getD .null).amount? = none := by
  cases name <;> first | rfl | cases simple

namespace Fields

variable {node : Fields}

theorem Member.plain (member : node.Member) (defines : Value.isOf Outline.definitionTypes node = true) :
    node.nameKey.amount? = none := by
  obtain ⟨name,named⟩ := member.named defines
  rw [nameKey,read_eq named]
  rfl

theorem Parameter.plain (parameter : node.Parameter) : node.nameKey.amount? = none := by
  obtain ⟨name,named,simple⟩ := parameter.named
  rw [nameKey,read_eq named]
  exact Value.nameKey_plain simple

end Fields

theorem Value.Parameters.lists (parameters : value.Parameters) :
    Table.Lists id (value.members "parameters") (.ofNodes id (value.members "parameters")) := by
  refine Table.ofNodes_lists (fun _ => rfl) fun own inside => ?_
  cases parameters with
  | missing => cases inside
  | none => cases inside
  | listed each placed =>
    obtain ⟨node,same,parameter⟩ := each _ (mem_members.mp inside)
    cases same
    exact parameter.plain

namespace Outline

variable {node : Fields}

-- What a function or a modifier shows to its callers are the parameters and the results of its node.
structure Callable.Shows (member : Callable) : Prop where
  arguments : member.arguments.Lists id ((member.node.read "parameters").members "parameters")
  returns : member.returns.Lists id ((member.node.read "returnParameters").members "parameters")

theorem Callable.shows {member : Callable} (shaped : node.Member)
    (callable : Value.isOf ["FunctionDefinition","ModifierDefinition"] node = true)
    (signed : member.signature = .ofNode node) : member.Shows := by
  have parameters (name : String) (asked : name ∈ ["parameters","returnParameters"]) : (node.read name).Parameters := by
    cases found : node.get? name with
    | none =>
      rw [Fields.read,found]
      exact .missing
    | some value =>
      rw [Fields.read_eq found]
      exact shaped.signed callable name asked value found
  have own : member.node = node := congrArg Signature.node signed
  have arguments : member.arguments = .ofNodes id ((node.read "parameters").members "parameters") :=
    congrArg Signature.arguments signed
  have returns : member.returns = .ofNodes id ((node.read "returnParameters").members "parameters") :=
    congrArg Signature.returns signed
  constructor
  · rw [arguments,own]
    exact (parameters "parameters" (by decide)).lists
  · rw [returns,own]
    exact (parameters "returnParameters" (by decide)).lists

-- The table keeps what is made of the members of one type.
structure Contract.Keeps (type : String) (members : List Fields) (table : Table Callable) : Prop where
  lists : table.Lists Callable.node (members.filter (Value.isOf [type]))
  shows : ∀ row ∈ table, row.2.Shows

theorem Contract.keeps {table : Table Callable}
    (shaped : ∀ node ∈ members, node.Member) (callable : type ∈ ["FunctionDefinition","ModifierDefinition"])
    (signed : table.mapEntries Callable.signature = .ofNodes Signature.ofNode (members.filter (Value.isOf [type]))) :
    Keeps type members table := by
  have defines : ∀ type ∈ ["FunctionDefinition","ModifierDefinition"], type ∈ definitionTypes := by decide
  have among (node : Fields) (inside : node ∈ members.filter (Value.isOf [type])) {types : List String}
      (listed : type ∈ types) : node.Member ∧ Value.isOf types node = true := by
    obtain ⟨member,sort⟩ := mem_filter.mp inside
    refine ⟨shaped node member,?_⟩
    obtain ⟨own,typed⟩ := (shaped node member).shaped.typed
    rw [Value.isOf_eq typed] at sort ⊢
    cases (show own = type by simpa using sort)
    simpa using listed
  constructor
  · have plain : ∀ own ∈ members.filter (Value.isOf [type]), own.nameKey.amount? = none := by
      intro own inside
      obtain ⟨member,sort⟩ := among own inside (defines type callable)
      exact member.plain sort
    have listed : Table.Lists Signature.node (members.filter (Value.isOf [type])) (table.mapEntries Callable.signature) := by
      rw [signed]
      exact Table.ofNodes_lists (fun _ => rfl) plain
    have kept := listed.of_map plain
    exact kept
  · intro row inside
    have entered : (row.1,row.2.signature) ∈ table.mapEntries Callable.signature := Table.mem_mapEntries inside
    rw [signed] at entered
    obtain ⟨node,held,_,same⟩ := Table.mem_ofNodes entered
    obtain ⟨member,sort⟩ := among node held callable
    exact Callable.shows member sort same

theorem Contract.keeps_members {contract : Contract} (known : node.Contract)
    (sketched : contract.sketch = .ofNode node) :
    contract.node = node ∧ Keeps "FunctionDefinition" (node.members "subNodes") contract.functions ∧
      Keeps "ModifierDefinition" (node.members "subNodes") contract.modifiers := by
  have members : ∀ own ∈ node.members "subNodes", own.Member := by
    cases known with
    | mk _ members => exact fun own inside => members _ (Value.mem_members.mp inside) own rfl
  exact ⟨congrArg ContractSketch.node sketched,keeps members (by decide) (congrArg ContractSketch.functions sketched),
    keeps members (by decide) (congrArg ContractSketch.modifiers sketched)⟩

theorem contract_source {value : Value} (source : value.Source) {outline : Outline} (sketched : outline.sketch = .ofValue value)
    {row : Key × Contract} (inside : row ∈ outline.contracts) :
    ∃ node ∈ value.members "children", node.Contract ∧ row.2.sketch = .ofNode node := by
  have entered : (row.1,row.2.sketch) ∈ outline.contracts.mapEntries Contract.sketch := Table.mem_mapEntries inside
  have listed : outline.contracts.mapEntries Contract.sketch = (Sketch.ofValue value).contracts :=
    congrArg Sketch.contracts sketched
  rw [listed] at entered
  obtain ⟨node,held,_,same⟩ := Table.mem_ofNodes entered
  obtain ⟨member,sort⟩ := mem_filter.mp held
  cases source with
  | mk each placed => exact ⟨node,member,(each _ (Value.mem_members.mp member) node rfl).contract sort,same⟩

end Outline

theorem parse_source (means : (parse text "sourceUnit" located).1 = .ok value) : value.Source := by
  have known : Rule.ofName? "sourceUnit" = some .sourceUnit := by decide
  obtain ⟨fitted,whole⟩ := Reading.ofText_fitted .sourceUnit text
  rw [parse,known] at means
  have meant : (Reading.ofText .sourceUnit text).tree.meaning located = .ok value := means
  rw [Tree.meaning_seen whole] at meant
  exact fitted.sourceUnit whole value meant

-- However much is wrong in a text, in its outline each contract keeps its functions and its modifiers by name, and each of
-- these its parameters and its results.
theorem parse_members {text : String} {located : Bool} {value : Value}
    (means : (parse text "sourceUnit" located).1 = .ok value) :
    ∃ outline, Outline.ofValue value = .ok outline ∧ ∀ row ∈ outline.contracts,
      row.2.node ∈ value.members "children" ∧
      Outline.Contract.Keeps "FunctionDefinition" (row.2.node.members "subNodes") row.2.functions ∧
      Outline.Contract.Keeps "ModifierDefinition" (row.2.node.members "subNodes") row.2.modifiers := by
  have source := parse_source means
  obtain ⟨outline,made,sketched⟩ := Outline.ofValue_sketch source
  refine ⟨outline,made,fun row inside => ?_⟩
  obtain ⟨node,member,known,same⟩ := Outline.contract_source source sketched inside
  obtain ⟨own,functions,modifiers⟩ := Outline.Contract.keeps_members known same
  rw [own]
  exact ⟨member,functions,modifiers⟩

-- How many parameters a node has.
def Fields.parameterCount (node : Fields) : Nat :=
  ((node.read "parameters").members "parameters").length

-- A state variable, and two functions of one name; the second has two parameters without names, and a variable.
def overloads : String :=
  "contract A\x7buint a;function f();function f(uint,uint)\x7bvar b;\x7d\x7d"

-- What is looked for in the outline of the text.
def overloaded (contract : Outline.Contract) : Bool :=
  match contract.functions with
  | [(_,function)] => contract.stateVars.keys = [.text "a"] &&
    ((contract.node.members "subNodes").filter (Value.isOf ["FunctionDefinition"])).map Fields.parameterCount = [0,2] &&
    function.node.parameterCount = 2 && function.arguments.keys = [.null] && function.declarations.keys = [.null,.text "b"]
  | _ => false

set_option maxRecDepth 100000 in
theorem overloads_read : reads (fun value => match Outline.ofValue value with
    | .ok ⟨_,_,[(_,contract)],_⟩ => overloaded contract
    | _ => false) overloads "sourceUnit" false = true := by
  decide +kernel

theorem overloads_outline : ∃ value outline row entry, parse overloads "sourceUnit" false = (.ok value,[]) ∧
    Outline.ofValue value = .ok outline ∧ outline.contracts = [row] ∧ row.2.functions = [entry] ∧
    row.2.stateVars.keys = [.text "a"] ∧
    ((row.2.node.members "subNodes").filter (Value.isOf ["FunctionDefinition"])).map Fields.parameterCount = [0,2] ∧
    entry.2.node.parameterCount = 2 ∧ entry.2.arguments.keys = [.null] ∧ entry.2.declarations.keys = [.null,.text "b"] := by
  obtain ⟨value,parsed,passed⟩ := reads_ok overloads_read
  split at passed
  · rename_i key contract _ made
    rw [overloaded] at passed
    split at passed
    · rename_i name function only
      simp only [Bool.and_eq_true,decide_eq_true_iff,and_assoc] at passed
      exact ⟨value,_,(key,contract),(name,function),parsed,made,rfl,only,passed⟩
    · cases passed
  · cases passed

-- In the outline of the text one function is kept: the first is lost to the second, and one of the parameters of that to
-- the other.
theorem overloads_members : ∃ value outline row, parse overloads "sourceUnit" false = (.ok value,[]) ∧
    Outline.ofValue value = .ok outline ∧ outline.contracts = [row] ∧
    Outline.Contract.Keeps "FunctionDefinition" (row.2.node.members "subNodes") row.2.functions ∧
    (∃ own ∈ row.2.node.members "subNodes", Value.isOf ["FunctionDefinition"] own = true ∧
      ∀ entry ∈ row.2.functions, entry.2.node ≠ own) ∧
    ∃ entry ∈ row.2.functions, entry.2.arguments.length ≠ entry.2.node.parameterCount := by
  obtain ⟨value,outline,row,entry,parsed,made,only,alone,_,counts,second,arguments,_⟩ := overloads_outline
  have means : (parse overloads "sourceUnit" false).1 = .ok value := by rw [parsed]
  obtain ⟨again,remade,each⟩ := parse_members means
  cases made.symm.trans remade
  refine ⟨value,outline,row,parsed,made,only,(each row (by simp [only])).2.1,?_,entry,by simp [alone],?_⟩
  · have filled : 0 ∈ ((row.2.node.members "subNodes").filter (Value.isOf ["FunctionDefinition"])).map
        Fields.parameterCount := by simp [counts]
    obtain ⟨own,inside,absent⟩ := mem_map.mp filled
    obtain ⟨member,sort⟩ := mem_filter.mp inside
    refine ⟨own,member,sort,fun other held same => ?_⟩
    rw [alone,mem_singleton] at held
    rw [← same,held,second] at absent
    cases absent
  · rw [second,← length_map (f := Prod.fst)]
    exact ne_of_eq_of_ne (congrArg List.length arguments) (by decide)

end SolReader
