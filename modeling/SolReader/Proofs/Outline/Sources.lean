import SolReader.Proofs.Ast.Faults
import SolReader.Proofs.Reading.Definitions
import SolReader.Proofs.Outline.Callables
import SolReader.Proofs.Outline.Names

namespace SolReader

open List

variable {text : String} {located : Bool} {value : Value}

theorem exists_paired {α β : Type} {related : α → β → Prop} {items : List α} {values : List β}
    (paired : List.Forall₂ related items values) {value : β} (member : value ∈ values) : ∃ item ∈ items, related item value := by
  induction paired with
  | nil => cases member
  | cons first _ ih =>
    rcases mem_cons.mp member with rfl | later
    · exact ⟨_,mem_cons_self,first⟩
    · obtain ⟨item,inside,related⟩ := ih later
      exact ⟨item,mem_cons_of_mem _ inside,related⟩

namespace Tree

variable {located : Bool} {items : List Value}

-- No node of the type stands in what a tree means, if only outer rules make such nodes and nothing else has a phrase of an
-- outer rule for a part.
theorem Fitted.unmade {tree : Tree} (fitted : tree.Fitted) (outer : List Rule) (type : String)
    (closed : ∀ rule : Rule, (outer.contains rule || rule.parts.all fun inner => !outer.contains inner) = true)
    (unmade : ∀ rule : Rule, (outer.contains rule || rule.makes.all fun made => made.1 != type) = true)
    (root : ∀ rule, tree.rule? = some rule → rule ∉ outer) :
    Yields (Value.All fun node => Value.isOf [type] node = false) (tree.meaning located) := by
  let Fine (phrase : Tree) : Prop := phrase ∈ tree.phrases
  have kept (rule : Rule) (inner : (!outer.contains rule) = true) : ∀ part ∈ rule.parts, (!outer.contains part) = true := by
    have checked := closed rule
    rw [Bool.not_eq_true'] at inner
    rw [inner,Bool.false_or] at checked
    exact all_eq_true.mp checked
  refine fun value means => @Tree.nodes_hold (fun _ node => Value.isOf [type] node = false) Fine located
    (fun _ _ _ _ => id) ?_ tree (fun _ inside => inside) value means
  intro phrase rule found inside own fields place made placed _
  have within := fitted.within kept (fun rule found => by simpa using root rule found) inside found
  have checked := unmade rule
  rw [Bool.not_eq_true'] at within
  rw [within,Bool.false_or] at checked
  have other : own ≠ type := by simpa using all_eq_true.mp checked _ made.listed
  have typed : Fields.typeName (("type",.text own) :: fields ++ place) = .ok own := rfl
  rw [Value.isOf_eq typed]
  simpa using other

-- The names that are written in a phrase itself.
def names (tree : Tree) : List Key :=
  (tree.inner .identifier).map fun name => .text name.text

-- The phrases that are the members of a contract.
def members (contract : Tree) : List Tree :=
  (contract.inner .contractPart).flatMap children

theorem Proper.contractPart {part : Tree} (proper : part.Proper .contractPart) (located : Bool) :
    ∃ child, part.children = [child] ∧ part.meaning located = child.meaning located := by
  obtain ⟨level,derives⟩ := proper.derives
  have filled : 1 ≤ part.children.countP fun _ => true := derives.least_le fun _ => true
  have few := derives.le_most (show (Rule.contractPart.most fun _ => true) = Option.some 1 by decide)
  rw [countP_true] at filled few
  obtain ⟨child,only⟩ := length_eq_one_iff.mp (by omega : part.children.length = 1)
  refine ⟨child,only,?_⟩
  have parts : (part.seen located).parts = [child.understood located] := by simp [seen,only]
  rw [meaning_seen proper.rule_eq,Phrase.meaning,Phrase.contractPart,parts]
  rfl

theorem paired_children (proper : ∀ part ∈ parts, part.Proper .contractPart)
    (paired : List.Forall₂ (fun part value => part.meaning located = .ok value) parts items) :
    List.Forall₂ (fun member value => member.meaning located = .ok value) (parts.flatMap children) items := by
  induction paired with
  | nil => exact .nil
  | cons own _ ih =>
    obtain ⟨first,others⟩ := forall_mem_cons.mp proper
    obtain ⟨child,only,same⟩ := first.contractPart located
    rw [flatMap_cons,only]
    exact .cons (same ▸ own) (ih others)

-- The node of a contract: it lists what the contract is based on, and what its members mean.
inductive ContractNode (located : Bool) (contract : Tree) : Fields → Prop where
  | mk {name kind : String} {bases : Value} {items : List Value} {place : Fields}
      (based : Part.listOf ((contract.seen located).allOf .inheritanceSpecifier) = .ok bases)
      (members : List.Forall₂ (fun member value => member.meaning located = .ok value) contract.members items)
      (placed : ∀ field ∈ place, field.1 = "loc") :
      ContractNode located contract ([("type",.text "ContractDefinition"),("name",.text name),("baseContracts",bases),
        ("subNodes",.list items),("kind",.text kind)] ++ place)

theorem Proper.contract_node {contract : Tree} (proper : contract.Proper .contractDefinition)
    {node : Fields} (means : contract.meaning located = .ok (.node node)) : contract.ContractNode located node := by
  have listed : Yields (fun value => ∃ items, value = .list items ∧
      List.Forall₂ (fun member value => member.meaning located = .ok value) contract.members items)
      (Part.listOf ((contract.seen located).allOf .contractPart)) := by
    have parts : (contract.seen located).allOf .contractPart = (contract.inner .contractPart).map (understood located) :=
      all_understood located .contractPart contract
    rw [Part.listOf,parts,meanings_understood]
    exact (Yields.paired _).bind fun items paired => .ok ⟨items,rfl,paired_children (fun part => proper.inner) paired⟩
  have whole : Yields (Value.IfNode (contract.ContractNode located)) (contract.meaning located) := by
    rw [meaning_seen proper.rule_eq,Phrase.meaning,Phrase.contractDefinition]
    refine Yields.any.bind fun name _ => Yields.chain fun bases based => listed.bind ?_
    rintro _ ⟨items,rfl,paired⟩
    refine Yields.any.bind fun kind _ => Phrase.yields_node fun place placed _ => ?_
    rintro _ ⟨⟩
    exact .mk based paired placed
  exact whole _ means node rfl

theorem paired_filter {rule : Rule} {type : String} {trees : List Tree}
    (paired : List.Forall₂ (fun tree value => tree.meaning located = .ok value) trees items)
    (own : ∀ tree ∈ trees, tree.rule? = some rule →
      Yields (Value.IsNode fun node => Value.isOf [type] node = true) (tree.meaning located))
    (other : ∀ tree ∈ trees, tree.rule? ≠ some rule →
      Yields (Value.IfNode fun node => Value.isOf [type] node = false) (tree.meaning located)) :
    List.Forall₂ (fun tree node => tree.meaning located = .ok (.node node)) (trees.filter (·.rule? == some rule))
      ((items.filterMap Value.node?).filter (Value.isOf [type])) := by
  induction paired with
  | nil => exact .nil
  | @cons tree value trees items means _ ih =>
    obtain ⟨own,owns⟩ := forall_mem_cons.mp own
    obtain ⟨other,others⟩ := forall_mem_cons.mp other
    have rest := ih owns others
    have listed (node : Fields) : (Value.node node :: items).filterMap Value.node? = node :: items.filterMap Value.node? := rfl
    by_cases found : tree.rule? = some rule
    · obtain ⟨node,rfl,sort⟩ := own found value means
      rw [filter_cons_of_pos (by simpa using found),listed,filter_cons_of_pos sort]
      exact .cons means rest
    · rw [filter_cons_of_neg (by simpa using found)]
      cases value with
      | node node =>
        have apart := other found _ means node rfl
        rw [listed,filter_cons_of_neg (by simp [apart])]
        exact rest
      | _ => exact rest

-- The rules that are not found inside the members of a contract, if the rule of a member is not.
def outside (rule : Rule) : List Rule :=
  [.sourceUnit,.contractDefinition,.contractPart,rule]

section Members

variable {contract : Tree} (fitted : contract.Fitted) {located : Bool} (rule : Rule) (type : String)
  (closed : ∀ other : Rule, ((outside rule).contains other ||
    other.parts.all fun inner => !(outside rule).contains inner) = true)
  (unmade : ∀ other : Rule, ((outside rule).contains other || other.makes.all fun made => made.1 != type) = true)

include fitted closed unmade

theorem Fitted.member_unmade {tree : Tree} (inside : tree ∈ contract.members) (apart : tree.rule? ≠ some rule) :
    Yields (Value.All fun node => Value.isOf [type] node = false) (tree.meaning located) := by
  obtain ⟨part,isPart,held⟩ := mem_flatMap.mp inside
  obtain ⟨isChild,partly⟩ := mem_inner.mp isPart
  have deeper := fitted.child isChild
  have inner : ∀ rule ∈ Rule.contractPart.parts, rule ∉ [.sourceUnit,.contractDefinition,.contractPart] := by decide
  refine (deeper.child held).unmade (outside rule) type closed unmade fun other found within => ?_
  have asked : other ∈ Rule.contractPart.parts := deeper.suits partly held other found
  have last : other = rule := by simpa [outside] using (mem_append.mp within).resolve_left (inner other asked)
  exact apart (last ▸ found)

theorem Proper.members_paired (proper : contract.Proper .contractDefinition) {node : Fields}
    (means : contract.meaning located = .ok (.node node))
    (own : ∀ tree : Tree, tree.rule? = some rule →
      Yields (Value.IsNode fun node => Value.isOf [type] node = true) (tree.meaning located)) :
    List.Forall₂ (fun tree node => tree.meaning located = .ok (.node node)) (contract.members.filter (·.rule? == some rule))
      ((node.members "subNodes").filter (Value.isOf [type])) := by
  obtain ⟨items,members,paired⟩ : ∃ items, node.members "subNodes" = items.filterMap Value.node? ∧
      List.Forall₂ (fun member value => member.meaning located = .ok value) contract.members items := by
    cases proper.contract_node means with
    | mk based paired placed => exact ⟨_,rfl,paired⟩
  rw [members]
  refine paired_filter paired (fun tree _ => own tree) fun tree inside apart => ?_
  refine (fitted.member_unmade rule type closed unmade inside apart).imp fun value absent own same => ?_
  exact absent own (same ▸ mem_cons_self)

end Members

end Tree

theorem Outline.contract_tree
    (means : (parse text "sourceUnit" located).1 = .ok value) (made : ofValue value = .ok outline)
    {row : Key × Contract} (inside : row ∈ outline.contracts) :
    ∃ contract ∈ (Reading.ofText .sourceUnit text).tree.inner .contractDefinition,
      contract.meaning located = .ok (.node row.2.node) := by
  have source := parse_source means
  obtain ⟨again,remade,sketched⟩ := ofValue_sketch source
  cases made.symm.trans remade
  obtain ⟨node,member,known,same⟩ := contract_source source sketched inside
  have isNode : row.2.node = node := congrArg ContractSketch.node same
  have sort : Value.isOf ["ContractDefinition"] node = true := by
    cases known
    rfl
  obtain ⟨fitted,whole⟩ := Reading.ofText_fitted .sourceUnit text
  obtain ⟨children,last,split,_⟩ := Reading.sourceUnit_children text
  have meant : (Reading.ofText .sourceUnit text).tree.meaning located = .ok value := means
  rw [Tree.meaning_seen whole,Phrase.meaning,Phrase.sourceUnit_eq located split] at meant
  have listed : Yields (fun value => ∀ node ∈ value.members "children", ∃ child ∈ children,
      child.meaning located = .ok (.node node)) (.ok value) := by
    rw [← meant]
    have entries : Yields (fun values => ∀ value ∈ values, ∃ child ∈ children, child.meaning located = .ok value)
        (children.mapM (Tree.meaning located)) := .mapM fun child inside value own => ⟨child,inside,own⟩
    exact entries.bind fun values each => Phrase.yields_node fun place _ _ node member =>
      each _ (Value.mem_members.mp member)
  obtain ⟨child,inside,own⟩ := listed value rfl node member
  have isChild : child ∈ (Reading.ofText .sourceUnit text).tree.children := split ▸ mem_append_left _ inside
  refine ⟨child,Tree.mem_inner.mpr ⟨isChild,?_⟩,isNode ▸ own⟩
  by_contra other
  have inner : Rule.sourceUnit ∉ Rule.sourceUnit.parts := by decide
  have root : ∀ rule, child.rule? = some rule → rule ∉ [.sourceUnit,.contractDefinition] := by
    intro rule found within
    rcases mem_cons.mp within with rfl | last
    · exact inner (fitted.suits whole isChild _ found)
    · exact other (mem_singleton.mp last ▸ found)
  have absent := (fitted.child isChild).unmade _ "ContractDefinition" (by decide) (by decide) root (.node node) own node
    mem_cons_self
  rw [absent] at sort
  cases sort

theorem contract_proper (read : parse text "sourceUnit" located = (.ok value,[]))
    (inside : contract ∈ (Reading.ofText .sourceUnit text).tree.inner .contractDefinition) :
    contract.Proper .contractDefinition ∧ contract.Fitted := by
  have known : Rule.ofName? "sourceUnit" = some .sourceUnit := by decide
  rw [parse_known known] at read
  have proper : (Reading.ofText .sourceUnit text).tree.Proper .sourceUnit :=
    Reading.ofText_proper (Prod.mk.inj read).2
  exact ⟨proper.inner inside,(Reading.ofText_fitted .sourceUnit text).1.child (Tree.mem_inner.mp inside).1⟩

namespace Outline

-- The variables that a node of a contract declares for it.
def declared (node : Fields) : List Fields :=
  if Value.isOf ["StateVariableDeclaration"] node then
    (Value.node node).trace.nodes.filter (Value.isOf ["VariableDeclaration"])
  else []

namespace Contract

-- The functions of a contract, its modifiers and its constructor.
def callables (contract : Contract) : List Callable :=
  (contract.functions ++ contract.modifiers).map Prod.snd ++ contract.maker.toList

theorem mem_callables {contract : Contract} : member ∈ contract.callables ↔
    (∃ row ∈ contract.functions, row.2 = member) ∨ (∃ row ∈ contract.modifiers, row.2 = member) ∨
      contract.maker = some member := by
  simp only [callables,map_append,mem_append,mem_map,Option.mem_toList,or_assoc]

-- They are made of their nodes.
def Callables (contract : Contract) : Prop :=
  ∀ member ∈ contract.callables, ∃ traits, Callable.ofNode member.node traits = .ok member

-- The contract after all these nodes have been met: what it has declared, and how its members are made.
structure Filled (root : Fields) (done : List Fields) (contract : Contract) : Prop where
  node : contract.node = root
  stateVars : contract.stateVars = .ofNodes id (done.flatMap declared)
  callables : contract.Callables

theorem callable_made (node : Fields) (traits : Option Traits) :
    Yields (fun member => ∃ traits, Callable.ofNode member.node traits = .ok member) (Callable.ofNode node traits) := by
  intro member made
  have own : member.node = node := callable_node node traits member made
  exact ⟨traits,own.symm ▸ made⟩

variable {root : Fields} {done : List Fields} {contract : Contract} {node : Fields}

theorem Callables.enter (callables : contract.Callables) {member : Callable}
    (made : ∃ traits, Callable.ofNode member.node traits = .ok member) {next : Contract}
    (among : ∀ other ∈ next.callables, other ∈ contract.callables ∨ other = member) : next.Callables := by
  intro other inside
  rcases among other inside with earlier | rfl
  · exact callables other earlier
  · exact made

theorem mem_callables_insert {table : Table Callable}
    (found : ∃ row ∈ table.insert key member, row.2 = other) : (∃ row ∈ table, row.2 = other) ∨ other = member := by
  obtain ⟨row,inside,rfl⟩ := found
  rcases Table.mem_insert inside with earlier | ⟨_,same⟩
  · exact .inl ⟨row,earlier,rfl⟩
  · exact .inr same

theorem Callables.insertFunction (callables : contract.Callables) (key : Key) {member : Callable}
    (made : ∃ traits, Callable.ofNode member.node traits = .ok member) (names : Table Named) (isMaker : Bool) :
    Callables { contract with
      names := names
      functions := contract.functions.insert key member
      maker := if isMaker then some member else contract.maker } := by
  refine callables.enter made fun other inside => ?_
  rw [mem_callables] at inside ⊢
  rcases inside with function | modifier | maker
  · exact (mem_callables_insert function).imp_left .inl
  · exact .inl (.inr (.inl modifier))
  · cases isMaker with
    | true => exact .inr (Option.some.inj maker).symm
    | false => exact .inl (.inr (.inr maker))

theorem Callables.insertModifier (callables : contract.Callables) (key : Key) {member : Callable}
    (made : ∃ traits, Callable.ofNode member.node traits = .ok member) (names : Table Named) :
    Callables { contract with names := names, modifiers := contract.modifiers.insert key member } := by
  refine callables.enter made fun other inside => ?_
  rw [mem_callables] at inside ⊢
  rcases inside with function | modifier | maker
  · exact .inl (.inl function)
  · exact (mem_callables_insert modifier).imp_left (.inr ∘ .inl)
  · exact .inl (.inr (.inr maker))

theorem addStateVars_filled (filled : Filled root done contract) (sort : Value.isOf ["StateVariableDeclaration"] node = true) :
    Yields (Filled root (done ++ [node])) (contract.addStateVars node) := by
  let Tracks (met : List Fields) (state : Contract) : Prop :=
    state.node = root ∧ state.stateVars = .ofNodes id (done.flatMap declared ++ met) ∧ state.Callables
  have visit : Yields (Tracks ((Value.node node).trace.nodes.filter (Value.isOf ["VariableDeclaration"])))
      (contract.addStateVars node) := by
    refine Value.yields_foldOf ?_ ⟨filled.node,by rw [append_nil,filled.stateVars],filled.callables⟩
    rintro inner _ _ met state ⟨own,earlier,callables⟩
    refine inner.yields_key.bind ?_
    rintro _ rfl
    refine .ok ⟨own,?_,callables⟩
    rw [← append_assoc,Table.ofNodes_concat,← earlier]
    rfl
  refine visit.imp fun next tracks => ⟨tracks.1,?_,tracks.2.2⟩
  rw [flatMap_append,flatMap_singleton,declared,sort]
  exact tracks.2.1

theorem add_filled (filled : Filled root done contract) (node : Fields) :
    Yields (Filled root (done ++ [node])) (contract.add node) := by
  rw [add]
  refine Yields.chain fun type typed => ?_
  have sort : Value.isOf ["StateVariableDeclaration"] node = decide (type = "StateVariableDeclaration") := by
    simp [Value.isOf_eq typed]
  -- Any other node leaves the variables as they are.
  have other (apart : type ≠ "StateVariableDeclaration") {next : Contract} (own : next.node = contract.node)
      (same : next.stateVars = contract.stateVars) (callables : next.Callables) : Filled root (done ++ [node]) next := by
    have absent : declared node = [] := by
      rw [declared,sort,decide_eq_false apart]
      rfl
    refine ⟨own.trans filled.node,?_,callables⟩
    rw [flatMap_append,flatMap_singleton,absent,append_nil,same,filled.stateVars]
  split
  · exact Yields.any.bind fun key _ => .ok (other (by decide) rfl rfl filled.callables)
  · exact Yields.any.bind fun key _ => .ok (other (by decide) rfl rfl filled.callables)
  · exact addStateVars_filled filled sort
  · exact Yields.any.bind fun member _ => Yields.any.bind fun key _ => .ok (other (by decide) rfl rfl filled.callables)
  · refine Yields.any.bind fun traits _ => Yields.any.bind fun key _ => ?_
    exact (callable_made node traits).bind fun member made =>
      .ok (other (by decide) rfl rfl (filled.callables.insertFunction key made _ _))
  · refine Yields.any.bind fun key _ => ?_
    exact (callable_made node none).bind fun member made =>
      .ok (other (by decide) rfl rfl (filled.callables.insertModifier key made _))
  · rename_i apart _ _ _
    exact .ok (other apart rfl rfl filled.callables)

theorem ofNode_filled (node : Fields) : Yields (Filled node (Value.node node).trace.nodes) (ofNode node) := by
  rw [ofNode]
  refine Yields.any.bind fun name _ => ?_
  exact Value.yields_fold (fun inner _ done state filled => add_filled filled inner) ⟨rfl,rfl,forall_mem_nil _⟩

end Contract

theorem ofValue_contracts (made : ofValue value = .ok outline) {row : Key × Contract}
    (inside : row ∈ outline.contracts) : Contract.ofNode row.2.node = .ok row.2 := by
  let Tracks (_ : List Fields) (state : Outline) : Prop :=
    ∀ row ∈ state.contracts, Contract.ofNode row.2.node = .ok row.2
  have visit : Yields (Tracks value.trace.nodes) (ofValue value) := by
    refine Value.yields_fold (fun node _ _ state tracks => ?_) (forall_mem_nil _)
    rw [add]
    refine Yields.any.bind fun type _ => ?_
    split
    · exact .ok tracks
    · exact .ok tracks
    · refine Yields.any.bind fun key _ => Yields.chain fun contract own => .ok fun row member => ?_
      rcases Table.mem_insert member with earlier | ⟨_,same⟩
      · exact tracks row earlier
      · rw [same,(Contract.ofNode_filled node contract own).node]
        exact own
    · exact .ok tracks
  exact visit outline made row inside

end Outline

end SolReader
