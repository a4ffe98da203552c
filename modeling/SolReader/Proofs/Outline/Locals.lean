import SolReader.Proofs.Outline.Carried

namespace SolReader

open List Bool

namespace Tree

variable {rule other : Rule}
variable {tree : Tree} {located : Bool} {name : Key}

theorem Proper.yields_first (proper : tree.Proper rule) (once : rule.most (Member.isPhrase other) = some 1) :
    Yields (fun value => ∀ child ∈ tree.inner other, child.meaning located = .ok value)
      (Part.meaningOf ((tree.seen located).first? other)) := by
  intro value result child member
  rw [proper.first_eq member once] at result
  exact result

theorem Proper.yields_firstOrEmpty (proper : tree.Proper rule) (once : rule.most (Member.isPhrase other) = some 1) :
    Yields (fun value => ∀ child ∈ tree.inner other, child.meaning located = .ok value)
      (Phrase.meaningOrEmpty ((tree.seen located).first? other)) := by
  intro value result child member
  rw [proper.first_eq member once] at result
  exact result

-- The names of the parameters in the lists of a phrase.
def parameterNames (tree : Tree) : List Key :=
  (tree.inner .parameterList).flatMap fun list => (list.inner .parameter).flatMap names

theorem Proper.parameter_named (proper : tree.Proper .parameter) (named : name ∈ tree.names) :
    Yields (Value.IsNode fun node => node.nameKey = name) (tree.meaning located) := by
  obtain ⟨own,inside,rfl⟩ := mem_names.mp named
  rw [meaning_seen proper.rule_eq,Phrase.meaning,Phrase.parameter,proper.first_eq inside (by decide)]
  refine Yields.any.bind fun type _ => Phrase.yields_node fun place placed _ => ⟨_,rfl,Fields.nameKey_text ?_⟩
  rw [Fields.get?_made placed (by decide) (by decide),Part.optionalText,Option.map_some,Part.text,tree_understood]
  rfl

theorem Proper.parameterList_named (proper : tree.Proper .parameterList)
    (named : name ∈ (tree.inner .parameter).flatMap names) :
    Yields (fun value => ∃ node ∈ value.members "parameters", node.nameKey = name) (tree.meaning located) := by
  obtain ⟨parameter,inside,named⟩ := mem_flatMap.mp named
  rw [meaning_seen proper.rule_eq,Phrase.meaning,Phrase.parameterList]
  refine (listOf_carries inside).bind ?_
  rintro _ ⟨items,inner,rfl,means,listed⟩
  obtain ⟨node,rfl,isName⟩ := (proper.inner inside).parameter_named named inner means
  refine Phrase.yields_node fun place placed _ => ⟨node,?_,isName⟩
  exact Value.mem_members.mpr listed

theorem Proper.returnParameters_named (proper : tree.Proper .returnParameters) (named : name ∈ tree.parameterNames) :
    Yields (fun value => ∃ node ∈ value.members "parameters", node.nameKey = name) (tree.meaning located) := by
  obtain ⟨list,inside,named⟩ := mem_flatMap.mp named
  rw [meaning_seen proper.rule_eq,Phrase.meaning,proper.first_eq inside (by decide)]
  exact (proper.inner inside).parameterList_named named

-- The node of a function or a modifier has its body, its parameters and its results.
structure DefinitionNode (located : Bool) (definition : Tree) (node : Fields) : Prop where
  body : ∀ block ∈ definition.inner .block, ∃ value, block.meaning located = .ok value ∧ node.get? "body" = some value
  parameters : ∀ list ∈ definition.inner .parameterList, ∃ value, list.meaning located = .ok value ∧
    node.get? "parameters" = some value
  results : ∀ list ∈ definition.inner .returnParameters, ∃ value, list.meaning located = .ok value ∧
    node.get? "returnParameters" = some value

theorem Proper.functionDefinition_node (proper : tree.Proper .functionDefinition) :
    Yields (Value.IsNode (tree.DefinitionNode located)) (tree.meaning located) := by
  rw [meaning_seen proper.rule_eq,Phrase.meaning,Phrase.functionDefinition]
  refine Yields.any.bind fun name _ => (proper.yields_first (by decide)).bind fun parameters isParameters =>
    (proper.yields_firstOrEmpty (by decide)).bind fun results isResults =>
    (proper.yields_firstOrEmpty (by decide)).bind fun body isBody => Yields.any.bind fun _ _ => Yields.any.bind fun _ _ => ?_
  refine Phrase.yields_node fun place placed _ => ⟨_,rfl,fun block inside => ?_,fun list inside => ?_,fun list inside => ?_⟩
  · exact ⟨body,isBody block inside,Fields.get?_made placed (by decide) (by decide)⟩
  · exact ⟨parameters,isParameters list inside,Fields.get?_made placed (by decide) (by decide)⟩
  · exact ⟨results,isResults list inside,Fields.get?_made placed (by decide) (by decide)⟩

theorem Proper.modifierDefinition_node (proper : tree.Proper .modifierDefinition) :
    Yields (Value.IsNode (tree.DefinitionNode located)) (tree.meaning located) := by
  rw [meaning_seen proper.rule_eq,Phrase.meaning,Phrase.modifierDefinition]
  refine (proper.yields_firstOrEmpty (by decide)).bind fun parameters isParameters => Yields.any.bind fun _ _ =>
    (proper.yields_first (by decide)).bind fun body isBody => ?_
  refine Phrase.yields_node fun place placed _ => ⟨_,rfl,fun block inside => ?_,fun list inside => ?_,fun list inside => ?_⟩
  · exact ⟨body,isBody block inside,Fields.get?_made placed (by decide) (by decide)⟩
  · exact ⟨parameters,isParameters list inside,Fields.get?_made placed (by decide) (by decide)⟩
  · obtain ⟨level,derives⟩ := proper.derives
    have absent := derives.inner_le (show Rule.most _ (Member.isPhrase .returnParameters) = some 0 by decide)
    exact absurd (length_pos_of_mem inside) (by omega)

end Tree

namespace Table

variable {α : Type}

theorem mem_keys_iff {table : Table α} {key : Key} (plain : key.amount? = none) :
    key ∈ table.keys ↔ (table.get? key).isSome = true := by
  rw [isSome_get?]
  constructor
  · exact fun member => ⟨key,member,Key.same_refl key⟩
  · rintro ⟨held,member,same⟩
    have isKey := Key.same_symm same
    rw [Key.same_plain plain,decide_eq_true_iff] at isKey
    exact isKey ▸ member

theorem isSome_get?_update (table more : Table α) (key : Key) :
    ((table.update more).get? key).isSome = ((table.get? key).isSome || (more.get? key).isSome) := by
  induction more generalizing table with
  | nil => simp [update]
  | cons row more ih =>
    rw [update,foldl_cons]
    change (((table.insert row.1 row.2).update more).get? key).isSome = _
    rw [ih,get?_insert,get?_cons]
    split <;> simp

end Table

theorem Value.yields_tableOf (value : Value) (type : String) :
    Yields (fun table => table = .ofNodes id (value.trace.nodes.filter (isOf [type]))) (value.tableOf type) := by
  let Tracks (done : List Fields) (table : Table Fields) : Prop := table = .ofNodes id done
  refine @Value.yields_foldOf _ value _ _ Tracks _ (fun node _ _ done table tracks => ?_) rfl
  refine node.yields_key.bind ?_
  rintro _ rfl
  refine .ok ?_
  rw [show table = _ from tracks]
  exact (Table.ofNodes_concat id done node).symm

namespace Outline.Callable

-- What a function or a modifier made of the node declares is found under its name.
def Finds (node : Fields) (member : Callable) : Prop :=
  ∀ key, (member.arguments.get? key).isSome = true ∨ (member.returns.get? key).isSome = true ∨
    (∃ body, node.get? "body" = some body ∧ ∃ inner ∈ body.trace.nodes, Value.isOf ["VariableDeclaration"] inner = true ∧
      inner.nameKey.same key = true) → (member.declarations.get? key).isSome = true

theorem ofNode_finds (node : Fields) (traits : Option Traits) : Yields (Finds node) (ofNode node traits) := by
  have rest (arguments returns : Table Fields) : Yields (Finds node) (do
      let locals ← (← node.demand "body").tableOf "VariableDeclaration"
      let identifiers ← (Value.node node).visited ["Identifier","AssemblyCall"]
      return ⟨node,traits,arguments,returns,(arguments.update returns).update locals,identifiers⟩) := by
    refine Yields.chain fun body isBody => (body.yields_tableOf _).bind fun locals same => Yields.any.bind fun _ _ => .ok ?_
    intro key found
    rw [Table.isSome_get?_update,Table.isSome_get?_update,or_eq_true,or_eq_true]
    rcases found with argument | result | ⟨other,has,inner,met,sort,isKey⟩
    · exact .inl (.inl argument)
    · exact .inl (.inr result)
    · rw [Fields.demand_eq has,Fields.read_eq has] at isBody
      cases isBody
      rw [same,Table.get?_ofNodes,Option.isSome_map,Fields.latest,List.find?_isSome]
      exact .inr ⟨inner,mem_reverse.mpr (mem_filter.mpr ⟨met,sort⟩),isKey⟩
  rw [ofNode]
  refine Yields.any.bind fun _ _ => Yields.any.bind fun arguments _ => ?_
  split
  · split
    · exact Yields.any.bind fun returns _ => rest arguments returns
    · exact rest arguments []
  · exact rest arguments []

end Outline.Callable

namespace Tree

variable {name : Key} {rule : Rule} {contract : Tree}

-- The phrases that declare something for a function or a modifier, by the names that they declare.
def declaredNames (definition : Tree) : List Key :=
  definition.parameterNames ++ (definition.inner .returnParameters).flatMap parameterNames ++ definition.localNames

theorem plain_declaredNames {definition : Tree} (named : name ∈ definition.declaredNames) : name.amount? = none := by
  have own {tree : Tree} (inside : name ∈ tree.names) : name.amount? = none := by
    obtain ⟨_,_,rfl⟩ := mem_names.mp inside
    rfl
  simp only [declaredNames,parameterNames,localNames,statementNames,mem_append,mem_flatMap] at named
  rcases named with (⟨_,_,_,_,inside⟩ | ⟨_,_,_,_,_,_,inside⟩) |
    ⟨_,_,(⟨_,_,inside⟩ | ⟨_,_,inside⟩) | ⟨_,_,_,_,inside⟩⟩
  all_goals exact own inside

variable {definition : Tree} {located : Bool} {node : Fields}

theorem Proper.body_declares (proper : definition.Proper rule) (fitted : definition.Fitted)
    (isRule : rule ∈ [Rule.functionDefinition,.modifierDefinition]) (made : definition.DefinitionNode located node)
    (named : name ∈ definition.localNames) : ∃ body, node.get? "body" = some body ∧
      ∃ inner ∈ body.trace.nodes, Value.isOf ["VariableDeclaration"] inner = true ∧ inner.nameKey = name := by
  obtain ⟨statement,listed,named⟩ := mem_flatMap.mp named
  obtain ⟨inside,isStatement⟩ := mem_filter.mp listed
  have found : statement.rule? = some .variableDeclarationStatement := by simpa using isStatement
  have parts : ∀ rule ∈ [Rule.functionDefinition,.modifierDefinition], rule ≠ .variableDeclarationStatement ∧
      ∀ other ∈ rule.parts, other ∈ carriers ++ definers → other = .block := by decide
  obtain ⟨apart,only⟩ := parts rule isRule
  rcases phrases_cases inside with rfl | ⟨block,member,below⟩
  · exact absurd (Option.some.inj (proper.rule_eq.symm.trans found)) apart
  · rcases proper.child member with ⟨token,rfl,_⟩ | ⟨other,inner⟩
    · cases below
    · have isBlock : other = .block := by
        by_contra different
        refine (fitted.child member).undeclared (fun own isOwn outer => ?_) below found
        cases inner.same isOwn
        exact different (only other (fitted.suits proper.rule_eq member other isOwn) outer)
      subst isBlock
      obtain ⟨body,means,has⟩ := made.body block (mem_inner.mpr ⟨member,inner.rule_eq⟩)
      obtain ⟨value,meant,met⟩ := inner.carries_deep (fitted.child member) (by decide) below found body means
      obtain ⟨_,own⟩ := proper.phrases inside
      cases own.same found
      obtain ⟨declaration,visited,sort,isName⟩ := own.statement_declares (fitted.phrase inside) named value meant
      exact ⟨body,has,declaration,met _ visited,sort,isName⟩

theorem DefinitionNode.parameters_named (proper : definition.Proper rule)
    (made : definition.DefinitionNode located node) (named : name ∈ definition.parameterNames) :
    ∃ inner ∈ (node.read "parameters").members "parameters", inner.nameKey = name := by
  obtain ⟨list,inside,named⟩ := mem_flatMap.mp named
  obtain ⟨value,means,has⟩ := made.parameters list inside
  rw [Fields.read_eq has]
  exact (proper.inner inside).parameterList_named named value means

theorem DefinitionNode.results_named (proper : definition.Proper rule)
    (made : definition.DefinitionNode located node)
    (named : name ∈ (definition.inner .returnParameters).flatMap parameterNames) :
    ∃ inner ∈ (node.read "returnParameters").members "parameters", inner.nameKey = name := by
  obtain ⟨list,inside,named⟩ := mem_flatMap.mp named
  obtain ⟨value,means,has⟩ := made.results list inside
  rw [Fields.read_eq has]
  exact (proper.inner inside).returnParameters_named named value means

theorem Proper.defined (proper : contract.Proper .contractDefinition) (fitted : contract.Fitted)
    {own : Fields} (means : contract.meaning located = .ok (.node own)) (inside : node ∈ own.members "subNodes")
    (sort : Value.isOf ["FunctionDefinition"] node = true ∨ Value.isOf ["ModifierDefinition"] node = true) :
    ∃ definition ∈ contract.members, definition.meaning located = .ok (.node node) ∧
      (definition.rule? = some .functionDefinition ∨ definition.rule? = some .modifierDefinition) := by
  have functions (tree : Tree) (found : tree.rule? = some .functionDefinition) :
      Yields (Value.IsNode fun node => Value.isOf ["FunctionDefinition"] node = true) (tree.meaning located) := by
    rw [meaning_seen found,Phrase.meaning,Phrase.functionDefinition]
    exact Yields.any.bind fun _ _ => Yields.any.bind fun _ _ => Yields.any.bind fun _ _ => Yields.any.bind fun _ _ =>
      Yields.any.bind fun _ _ => Yields.any.bind fun _ _ => Phrase.yields_node fun _ _ _ => ⟨_,rfl,rfl⟩
  have modifiers (tree : Tree) (found : tree.rule? = some .modifierDefinition) :
      Yields (Value.IsNode fun node => Value.isOf ["ModifierDefinition"] node = true) (tree.meaning located) := by
    rw [meaning_seen found,Phrase.meaning,Phrase.modifierDefinition]
    exact Yields.any.bind fun _ _ => Yields.any.bind fun _ _ => Yields.any.bind fun _ _ =>
      Phrase.yields_node fun _ _ _ => ⟨_,rfl,rfl⟩
  rcases sort with function | modifier
  · obtain ⟨definition,member,meant⟩ := exists_paired (proper.members_paired fitted .functionDefinition
      "FunctionDefinition" (by decide) (by decide) means functions) (mem_filter.mpr ⟨inside,function⟩)
    obtain ⟨isMember,isRule⟩ := mem_filter.mp member
    exact ⟨definition,isMember,meant,.inl (by simpa using isRule)⟩
  · obtain ⟨definition,member,meant⟩ := exists_paired (proper.members_paired fitted .modifierDefinition
      "ModifierDefinition" (by decide) (by decide) means modifiers) (mem_filter.mpr ⟨inside,modifier⟩)
    obtain ⟨isMember,isRule⟩ := mem_filter.mp member
    exact ⟨definition,isMember,meant,.inr (by simpa using isRule)⟩

theorem Proper.ofMember {member : Tree} (proper : contract.Proper .contractDefinition)
    (inside : member ∈ contract.members) (found : member.rule? = some rule) : member.Proper rule := by
  obtain ⟨part,isPart,held⟩ := mem_flatMap.mp inside
  exact (proper.inner isPart).inner (mem_inner.mpr ⟨held,found⟩)

end Tree

namespace Outline

variable {member : Callable}

theorem Contract.callable_source {contract : Contract} {node : Fields} (known : node.Contract)
    (sketched : contract.sketch = .ofNode node) (inside : member ∈ contract.callables) :
    ∃ own ∈ node.members "subNodes", own.Member ∧ member.signature = .ofNode own ∧
      (Value.isOf ["FunctionDefinition"] own = true ∨ Value.isOf ["ModifierDefinition"] own = true) := by
  have members : ∀ own ∈ node.members "subNodes", own.Member := by
    cases known with
    | mk _ members => exact fun own inside => members _ (Value.mem_members.mp inside) own rfl
  rcases mem_callables.mp inside with ⟨row,held,rfl⟩ | ⟨row,held,rfl⟩ | maker
  · have entered : (row.1,row.2.signature) ∈ contract.functions.mapEntries Callable.signature := Table.mem_mapEntries held
    rw [show contract.functions.mapEntries Callable.signature = _ from congrArg ContractSketch.functions sketched] at entered
    obtain ⟨own,listed,_,same⟩ := Table.mem_ofNodes entered
    obtain ⟨isMember,sort⟩ := mem_filter.mp listed
    exact ⟨own,isMember,members own isMember,same,.inl sort⟩
  · have entered : (row.1,row.2.signature) ∈ contract.modifiers.mapEntries Callable.signature := Table.mem_mapEntries held
    rw [show contract.modifiers.mapEntries Callable.signature = _ from congrArg ContractSketch.modifiers sketched] at entered
    obtain ⟨own,listed,_,same⟩ := Table.mem_ofNodes entered
    obtain ⟨isMember,sort⟩ := mem_filter.mp listed
    exact ⟨own,isMember,members own isMember,same,.inr sort⟩
  · have made : contract.maker.map Callable.signature = _ := congrArg ContractSketch.maker sketched
    rw [maker,Option.map_some,eq_comm] at made
    obtain ⟨own,last,same⟩ := Option.map_eq_some_iff.mp made
    obtain ⟨isMember,isMaker⟩ := mem_filter.mp (mem_of_getLast? last)
    refine ⟨own,isMember,members own isMember,same.symm,.inl ?_⟩
    by_contra other
    rw [not_isMaker (members own isMember).shaped (eq_false_iff.mpr other)] at isMaker
    cases isMaker

theorem Callable.finds_names {traits : Option Traits} (made : ofNode member.node traits = .ok member)
    (shows : member.Shows) {rule : Rule} {definition : Tree} (proper : definition.Proper rule) (fitted : definition.Fitted)
    (isRule : rule ∈ [Rule.functionDefinition,.modifierDefinition]) {located : Bool}
    (isNode : definition.DefinitionNode located member.node) {name : Key} (named : name ∈ definition.declaredNames) :
    name ∈ member.declarations.keys := by
  have plain := Tree.plain_declaredNames named
  refine (Table.mem_keys_iff plain).mpr (ofNode_finds member.node traits member made name ?_)
  rw [Tree.declaredNames,mem_append,mem_append] at named
  rcases named with (argument | result) | inner
  · refine .inl ((Table.mem_keys_iff plain).mp ?_)
    rw [shows.arguments.names,mem_eraseDups,mem_map]
    exact isNode.parameters_named proper argument
  · refine .inr (.inl ((Table.mem_keys_iff plain).mp ?_))
    rw [shows.returns.names,mem_eraseDups,mem_map]
    exact isNode.results_named proper result
  · obtain ⟨body,has,declared,met,sort,isName⟩ := proper.body_declares fitted isRule isNode inner
    exact .inr (.inr ⟨body,has,declared,met,sort,isName ▸ Key.same_refl _⟩)

end Outline

-- In the outline of a text read without complaint, each function, modifier and constructor has all that its definition
-- declares for it.
theorem parse_locals {text : String} {located : Bool} {value : Value}
    (read : parse text "sourceUnit" located = (.ok value,[])) :
    ∃ outline, Outline.ofValue value = .ok outline ∧ ∀ row ∈ outline.contracts, ∀ member ∈ row.2.callables,
      ∃ contract ∈ (Reading.ofText .sourceUnit text).tree.inner .contractDefinition,
        contract.meaning located = .ok (.node row.2.node) ∧ ∃ definition ∈ contract.members,
          definition.meaning located = .ok (.node member.node) ∧
          (definition.rule? = some .functionDefinition ∨ definition.rule? = some .modifierDefinition) ∧
          ∀ name ∈ definition.declaredNames, name ∈ member.declarations.keys := by
  have means : (parse text "sourceUnit" located).1 = .ok value := by rw [read]
  have source := parse_source means
  obtain ⟨outline,made,sketched⟩ := Outline.ofValue_sketch source
  refine ⟨outline,made,fun row inside member isMember => ?_⟩
  obtain ⟨contract,isContract,meant⟩ := Outline.contract_tree means made inside
  obtain ⟨proper,fitted⟩ := contract_proper read isContract
  obtain ⟨node,_,known,same⟩ := Outline.contract_source source sketched inside
  have isNode : row.2.node = node := congrArg Outline.ContractSketch.node same
  obtain ⟨own,held,shaped,signed,sort⟩ := Outline.Contract.callable_source known same isMember
  have isOwn : member.node = own := congrArg Outline.Signature.node signed
  rw [← isNode] at held
  obtain ⟨definition,listed,defines,isRule⟩ := proper.defined fitted meant held sort
  refine ⟨contract,isContract,meant,definition,listed,isOwn ▸ defines,isRule,fun name named => ?_⟩
  obtain ⟨traits,making⟩ :=
    (Outline.Contract.ofNode_filled _ _ (Outline.ofValue_contracts made inside)).callables member isMember
  have shows : member.Shows := by
    refine Outline.Callable.shows shaped ?_ signed
    obtain ⟨type,typed⟩ := shaped.shaped.typed
    simp only [Value.isOf_eq typed] at sort ⊢
    rcases sort with function | modifier <;> simp_all
  have inner := fitted.ofMember listed
  rcases isRule with found | found
  · have own := proper.ofMember listed found
    obtain ⟨_,isMade,made⟩ := own.functionDefinition_node _ defines
    cases isMade
    exact Outline.Callable.finds_names making shows own inner (by simp) (isOwn ▸ made) named
  · have own := proper.ofMember listed found
    obtain ⟨_,isMade,made⟩ := own.modifierDefinition_node _ defines
    cases isMade
    exact Outline.Callable.finds_names making shows own inner (by simp) (isOwn ▸ made) named

-- The variable in the body of the second of two functions is among its declarations.
theorem overloads_locals : ∃ value outline row member, ∃ definition : Tree,
    parse overloads "sourceUnit" false = (.ok value,[]) ∧ Outline.ofValue value = .ok outline ∧ outline.contracts = [row] ∧
    member ∈ row.2.callables ∧ definition.meaning false = .ok (.node member.node) ∧
    member.declarations.keys = [.null,.text "b"] ∧ ∀ name ∈ definition.declaredNames, name ∈ [.null,.text "b"] := by
  obtain ⟨value,outline,row,entry,parsed,made,only,functions,_,_,_,_,keys⟩ := overloads_outline
  obtain ⟨again,remade,each⟩ := parse_locals parsed
  cases made.symm.trans remade
  have member : entry.2 ∈ row.2.callables :=
    Outline.Contract.mem_callables.mpr (.inl ⟨entry,by simp [functions],rfl⟩)
  obtain ⟨contract,_,_,definition,_,defines,_,declared⟩ := each row (by simp [only]) entry.2 member
  exact ⟨value,outline,row,entry.2,definition,parsed,made,only,member,defines,keys,keys ▸ declared⟩

end SolReader
