import SolReader.Proofs.Ast.Imports
import SolReader.Proofs.Ast.Naming
import SolReader.Proofs.Outline.Loose
import SolReader.Proofs.Outline.Report

namespace SolReader.Outline

-- A heading and lines with their depths below it.
structure Block where
  heading : String
  lines : List (Nat × String)

namespace Block

def print (block : Block) (level : Nat) : String :=
  line 0 block.heading ++ String.join (block.lines.map fun entry => line (level + entry.1) entry.2)

-- A title and items below it.
def listing (title : String) (items : List String) : List (Nat × String) :=
  (0,"=== " ++ title) :: items.map fun text => (2,"* " ++ text)

theorem length_line (level : Nat) (text : String) : (line level text).length = level + text.length + 1 := by
  have ending : "\n".length = 1 := by decide
  simp [line,ending]

theorem length_print (block : Block) (level : Nat) :
    (block.print level).length = (block.print 0).length + level * block.lines.length := by
  rw [print,print]
  induction block.lines with
  | nil => simp
  | cons entry entries ih =>
    simp only [List.map_cons,String.join_cons,String.length_append,length_line,List.length_cons] at ih ⊢
    grind

theorem print_inj {block : Block} (filled : block.lines ≠ []) :
    block.print level = block.print other ↔ level = other := by
  refine ⟨fun same => ?_,fun same => same ▸ rfl⟩
  have lengths := congrArg String.length same
  rw [block.length_print level,block.length_print other] at lengths
  exact Nat.eq_of_mul_eq_mul_right (List.length_pos_iff.mpr filled) (Nat.add_left_cancel lengths)

end Block

namespace Contract

-- What is printed of a contract.
def block (contract : Contract) (key : Key) : Except Fault Block := do
  let bases ← contract.baseNames
  let enums ← contract.enums.mapM fun row => nameOnly row.1 row.2
  let structs ← contract.structs.mapM fun row => nameOnly row.1 row.2
  let stateVars ← contract.stateVars.mapM fun row => nameOnly row.1 row.2
  let modifiers ← contract.modifiers.mapM fun row => nameOnly row.1 row.2
  let functions ← contract.functions.mapM fun row => functionEntry row.1 row.2
  return ⟨"=== contract: " ++ key.display,(0,"=== Inherited Contracts: " ++ bases) :: (Block.listing "Enums" enums ++
    Block.listing "Structs" structs ++ Block.listing "statevars" stateVars ++ Block.listing "modifiers" modifiers ++
    Block.listing "functions" functions)⟩

theorem report_eq (contract : Contract) (key : Key) (level : Nat) :
    contract.report key level = (fun block => Block.print block level) <$> contract.block key := by
  simp only [report,Outline.listing,block,map_bind,map_pure,bind_assoc,pure_bind]
  refine bind_congr fun bases => bind_congr fun enums => bind_congr fun structs => bind_congr fun stateVars =>
    bind_congr fun modifiers => bind_congr fun functions => congrArg pure ?_
  have items : item (level + 2) = fun text => line (level + 2) ("* " ++ text) := rfl
  simp [Block.print,Block.listing,Function.comp_def,items,String.append_assoc]

end Contract

-- The pragmas and the imports.
def sections (pragmas imports : List Fields) : String :=
  let listed (nodes : List Fields) : String := String.join (nodes.map fun node => item 1 (Value.node node).display)
  line 0 "=== pragmas ===" ++ listed pragmas ++ line 0 "=== imports ===" ++ listed imports

-- Every block is indented by one level more than the one before it.
def printAll (blocks : List Block) : String :=
  String.join (blocks.zipIdx.map fun entry => entry.1.print (entry.2 + 1))

theorem mapM_zipIdx {α β γ : Type} (make : α → Except Fault β) (use : β → Nat → γ) (items : List α) (start : Nat) :
    (items.zipIdx start).mapM (fun entry => (use · entry.2) <$> make entry.1) =
      (fun made => (made.zipIdx start).map fun entry => use entry.1 entry.2) <$> items.mapM make := by
  induction items generalizing start with
  | nil => rfl
  | cons item items ih =>
    simp only [List.zipIdx_cons,List.mapM_cons,ih,map_bind,map_pure,bind_map_left,List.map_cons]

theorem report_eq (outline : Outline) : outline.report =
    (fun blocks => sections outline.pragmas outline.imports ++ printAll blocks) <$>
      outline.contracts.mapM fun row => row.2.block row.1 := by
  simp only [report,Contract.report_eq]
  rw [mapM_zipIdx (fun row : Key × Contract => row.2.block row.1) (fun block position => Block.print block (position + 1))]
  simp only [map_eq_pure_bind,bind_assoc,pure_bind]
  rfl

-- What is printed of the contract that a node stands for.
def blockOf (node : Fields) : Except Fault Block := do
  (← Contract.ofNode node).block node.nameKey

theorem mapM_entries {α β γ : Type} {table other : Table α} {change : α → β}
    (same : table.mapEntries change = other.mapEntries change) (make : Key → α → Except Fault γ)
    (use : Key → β → Except Fault γ) (made : ∀ key entry, make key entry = use key (change entry)) :
    (table.mapM fun row => make row.1 row.2) = other.mapM fun row => make row.1 row.2 := by
  have changed (table : Table α) : (table.mapM fun row => make row.1 row.2) =
      (table.mapEntries change).mapM fun row => use row.1 row.2 := by
    rw [Table.mapEntries,List.mapM_map]
    exact congrArg (table.mapM ·) (funext fun row => made row.1 row.2)
  rw [changed,same,changed]

theorem blockOf_twin {node other : Fields} (pair : node.Twin other) : Agrees Eq (blockOf node) (blockOf other) := by
  have names {α : Type} {table other : Table α} (same : table.mapEntries (fun _ => ()) = other.mapEntries fun _ => ()) :
      (table.mapM fun row => nameOnly row.1 row.2) = other.mapM fun row => nameOnly row.1 row.2 :=
    mapM_entries same nameOnly nameOnly fun _ _ => rfl
  rw [blockOf,blockOf,pair.nameKey]
  refine (Contract.ofNode_twin pair).bind fun contract contract' twin => ?_
  have functions := mapM_entries twin.functions functionEntry
    (fun key values => do return key.display ++ "\t\t (" ++ (← commaJoined values) ++ ")")
    fun key member => by rw [commaJoined_loose]; rfl
  rw [Contract.block,Contract.block,names twin.enums,names twin.structs,names twin.stateVars,names twin.modifiers,functions]
  refine twin.baseNames.bind ?_
  rintro bases _ rfl
  exact .same _

theorem blockOf_lines (made : blockOf node = .ok block) : block.lines ≠ [] := by
  have filled : Yields (fun block => block.lines ≠ []) (blockOf node) := by
    refine Yields.any.bind fun contract _ => ?_
    rw [Contract.block]
    exact Yields.any.bind fun _ _ => Yields.any.bind fun _ _ => Yields.any.bind fun _ _ => Yields.any.bind fun _ _ =>
      Yields.any.bind fun _ _ => Yields.any.bind fun _ _ => .ok (List.cons_ne_nil _ _)
  exact filled block made

end SolReader.Outline

namespace SolReader

open List

variable {α : Type}

theorem paired_at {β : Type} {related : α → β → Prop} {items : List α} {values : List β}
    (paired : List.Forall₂ related items values) {position : Nat} {item : α} (found : items[position]? = some item) :
    ∃ value, values[position]? = some value ∧ related item value := by
  induction paired generalizing position with
  | nil => cases found
  | cons first _ ih =>
    cases position with
    | zero =>
      cases found
      exact ⟨_,rfl,first⟩
    | succ position => exact ih found

theorem Table.ofNodes_distinct (entry : Fields → α) {nodes : List Fields}
    (distinct : nodes.Pairwise fun one two => one.nameKey.same two.nameKey = false) :
    ofNodes entry nodes = nodes.map fun node => (node.nameKey,entry node) := by
  induction nodes using List.reverseRecOn with
  | nil => rfl
  | append_singleton nodes node ih =>
    obtain ⟨before,_,apart⟩ := pairwise_append.mp distinct
    have missing : (nodes.map fun node => (node.nameKey,entry node)).any (fun row => row.1.same node.nameKey) = false := by
      rw [any_map,any_eq_false]
      intro other inside
      simpa using apart other inside node (mem_singleton_self node)
    rw [ofNodes_concat,ih before,insert,missing,map_append]
    rfl

namespace Outline

theorem contracts_paired (made : ofValue value = .ok outline) (sketched : outline.sketch = .ofValue value)
    (distinct : ((value.members "children").filter (Value.isOf ["ContractDefinition"])).Pairwise
      fun one two => one.nameKey.same two.nameKey = false) : (outline.contracts.mapM fun row => row.2.block row.1) =
      ((value.members "children").filter (Value.isOf ["ContractDefinition"])).mapM blockOf := by
  have rows : outline.contracts.mapEntries Contract.sketch = Table.ofNodes ContractSketch.ofNode _ :=
    congrArg Sketch.contracts sketched
  rw [Table.ofNodes_distinct _ distinct,Table.mapEntries] at rows
  have own : ∀ row ∈ outline.contracts, Contract.ofNode row.2.node = .ok row.2 := fun row => ofValue_contracts made
  generalize (value.members "children").filter _ = nodes at rows
  generalize outline.contracts = contracts at rows own
  induction contracts generalizing nodes with
  | nil =>
    rw [map_eq_nil_iff.mp rows.symm]
    rfl
  | cons row contracts ih =>
    cases nodes with
    | nil => cases rows
    | cons node nodes =>
      obtain ⟨first,rest⟩ := forall_mem_cons.mp own
      rw [map_cons,map_cons,List.cons.injEq,Prod.mk.injEq] at rows
      obtain ⟨⟨key,same⟩,rows⟩ := rows
      have isNode : row.2.node = node := congrArg ContractSketch.node same
      have block : blockOf node = row.2.block row.1 := by
        rw [blockOf,← isNode,first,isNode,← key]
        rfl
      rw [mapM_cons,mapM_cons,ih nodes rows rest,block]

end Outline

namespace Tree

variable {located : Bool}

theorem source_paired {text : String} (means : (parse text "sourceUnit" located).1 = .ok value)
    (rule : Rule) (type : String) (closed : ∀ other : Rule, ([.sourceUnit,rule].contains other ||
      other.parts.all fun inner => !([.sourceUnit,rule].contains inner)) = true)
    (unmade : ∀ other : Rule, ([.sourceUnit,rule].contains other || other.makes.all fun made => made.1 != type) = true)
    (own : ∀ tree : Tree, tree.rule? = some rule →
      Yields (Value.IsNode fun node => Value.isOf [type] node = true) (tree.meaning located)) :
    List.Forall₂ (fun tree node => tree.meaning located = .ok (.node node)) ((Reading.ofText .sourceUnit text).tree.inner rule)
      ((value.members "children").filter (Value.isOf [type])) := by
  obtain ⟨fitted,whole⟩ := Reading.ofText_fitted .sourceUnit text
  obtain ⟨children,last,split,ends,_,meaning⟩ := parse_definitions text
  rw [meaning located] at means
  have listed : Yields (fun value => ∃ items, value.members "children" = items.filterMap Value.node? ∧
      List.Forall₂ (fun child value => child.meaning located = .ok value) children items) (.ok value) := by
    rw [← means]
    exact (Yields.paired children).bind fun items paired => Phrase.yields_node fun place _ _ => ⟨items,rfl,paired⟩
  obtain ⟨items,members,paired⟩ := listed value rfl
  have inner : (Reading.ofText .sourceUnit text).tree.inner rule = children.filter (·.rule? == some rule) := by
    rw [Tree.inner,split,filter_append,filter_cons_of_neg (by simp [ends.rule?])]
    simp
  rw [inner,members]
  refine paired_filter paired (fun tree _ => own tree) fun tree inside apart => ?_
  have isChild : tree ∈ (Reading.ofText .sourceUnit text).tree.children := split ▸ mem_append_left _ inside
  refine ((fitted.child isChild).unmade [.sourceUnit,rule] type closed unmade fun other found within => ?_).imp
    fun value absent node same => absent node (same ▸ mem_cons_self)
  rcases mem_cons.mp within with rfl | same
  · exact absurd (fitted.suits whole isChild _ found) (by decide)
  · exact apart (mem_singleton.mp same ▸ found)

theorem Proper.contract_key {contract : Tree} (proper : contract.Proper .contractDefinition) {node : Fields}
    (means : contract.meaning located = .ok (.node node)) : contract.names = [node.nameKey] := by
  obtain ⟨identifier,only,text⟩ := @Proper.named_text _ _ located proper (by decide) (by decide)
  have named : Yields (Value.IsNode fun node => node.get? "name" = some (.text identifier.text)) (contract.meaning located) := by
    rw [meaning_seen proper.rule_eq,Phrase.meaning,Phrase.contractDefinition,text]
    exact Yields.chain fun name isName => Yields.any.bind fun _ _ => Yields.any.bind fun _ _ => Yields.any.bind fun _ _ =>
      Phrase.yields_node fun place placed _ =>
        ⟨_,rfl,by cases isName; exact Fields.get?_made placed (by decide) (by decide)⟩
  obtain ⟨_,same,isText⟩ := named _ means
  cases same
  rw [names,only,Fields.nameKey_text isText]
  rfl

theorem contractNames_paired (proper : ∀ contract ∈ contracts, contract.Proper .contractDefinition)
    (paired : List.Forall₂ (fun tree node => tree.meaning located = .ok (.node node)) contracts nodes) :
    contracts.flatMap names = nodes.map Fields.nameKey := by
  induction paired with
  | nil => rfl
  | cons means _ ih =>
    obtain ⟨first,others⟩ := forall_mem_cons.mp proper
    rw [flatMap_cons,first.contract_key means,ih others]
    rfl

end Tree

namespace Outline

variable {text : String} {value : Value}

-- What the command prints for a file with the text.
def Prints (text output : String) : Prop :=
  ∀ (path : String) (more : List String) (read : String → Option ByteArray) (content : ByteArray), read path = some content →
    readText content = .ok text → Command.run ("outline" :: path :: more) read = (.ok ⟨0,output⟩,[])

theorem prints_report (read : parse text "sourceUnit" false = (.ok value,[]))
    (printed : (ofValue value >>= report) = .ok output) : Prints text output := by
  intro path more file content found decoded
  have task : Command.task? ("outline" :: path :: more) = some (.outline,path) := rfl
  have reading : parseFile (file path) "sourceUnit" false = (.ok value,[]) := by simp only [parseFile,found,decoded,read]
  have performed : Command.perform .outline value = .ok output := printed
  simp only [Command.run,task,reading,performed,bind,Except.bind,pure,Except.pure]

-- What is meant by the phrases of a rule that stand in the source itself.
def Meant (text : String) (rule : Rule) (nodes : List Fields) : Prop :=
  List.Forall₂ (fun tree node => tree.meaning false = .ok (.node node)) ((Reading.ofText .sourceUnit text).tree.inner rule) nodes

theorem printed_blocks (read : parse text "sourceUnit" false = (.ok value,[]))
    (distinct : (((Reading.ofText .sourceUnit text).tree.inner .contractDefinition).flatMap Tree.names).Nodup) :
    ∃ (pragmas imports contracts : List Fields) (blocks : List Block), Meant text .pragmaDirective pragmas ∧
      Meant text .importDirective imports ∧ Meant text .contractDefinition contracts ∧
      List.Forall₂ (fun node block => blockOf node = .ok block) contracts blocks ∧
      Prints text (sections pragmas imports ++ printAll blocks) := by
  have means : (parse text "sourceUnit" false).1 = .ok value := by rw [read]
  have known : Rule.ofName? "sourceUnit" = some .sourceUnit := by decide
  have whole := read
  rw [parse_known known] at whole
  obtain ⟨meant,clean⟩ := Prod.mk.inj whole
  have proper := Reading.ofText_proper clean
  have fitted := (Reading.ofText_fitted .sourceUnit text).1
  have source := parse_source means
  have contracts : Meant text .contractDefinition ((value.members "children").filter (Value.isOf ["ContractDefinition"])) :=
    Tree.source_paired means _ _ (by decide) (by decide) fun tree found => by
      rw [Tree.meaning_seen found,Phrase.meaning,Phrase.contractDefinition]
      exact Yields.any.bind fun _ _ => Yields.any.bind fun _ _ => Yields.any.bind fun _ _ => Yields.any.bind fun _ _ =>
        Phrase.yields_node fun _ _ _ => ⟨_,rfl,rfl⟩
  have pragmas : Meant text .pragmaDirective ((value.members "children").filter (Value.isOf ["PragmaDirective"])) :=
    Tree.source_paired means _ _ (by decide) (by decide) fun tree found => by
      rw [Tree.meaning_seen found,Phrase.meaning,Phrase.pragmaDirective]
      exact Yields.any.bind fun _ _ => Yields.any.bind fun _ _ => Phrase.yields_node fun _ _ _ => ⟨_,rfl,rfl⟩
  have imports : Meant text .importDirective ((value.members "children").filter (Value.isOf ["ImportDirective"])) :=
    Tree.source_paired means _ _ (by decide) (by decide) fun tree found => by
      rw [Tree.meaning_seen found,Phrase.meaning,Phrase.importDirective_eq]
      exact Yields.any.bind fun _ _ => Yields.any.bind fun _ _ => Yields.any.bind fun _ _ =>
        Phrase.yields_node fun _ _ _ => ⟨_,rfl,rfl⟩
  have apart : ((value.members "children").filter (Value.isOf ["ContractDefinition"])).Pairwise
      fun one two => one.nameKey.same two.nameKey = false := by
    have own (contract : Tree) (inside : contract ∈ (Reading.ofText .sourceUnit text).tree.inner .contractDefinition) :
        contract.Proper .contractDefinition := proper.inner inside
    rw [Tree.contractNames_paired own contracts,List.Nodup,pairwise_map] at distinct
    refine distinct.imp_of_mem fun {one two} inside _ other => ?_
    obtain ⟨contract,isContract,means⟩ := exists_paired contracts inside
    have named : one.nameKey ∈ contract.names := (own contract isContract).contract_key means ▸ mem_singleton_self _
    obtain ⟨identifier,_,text⟩ := Tree.mem_names.mp named
    rw [Key.same_plain (by rw [text]; rfl),decide_eq_false other]
  obtain ⟨outline,made,sketched⟩ := ofValue_sketch source
  obtain ⟨output,printed⟩ := (ofValue_report source (proper.based fitted value meant)).result trivial
  have lists : outline.pragmas = _ ∧ outline.imports = _ := ⟨congrArg Sketch.pragmas sketched,congrArg Sketch.imports sketched⟩
  have reported : outline.report = .ok output := by rwa [made] at printed
  rw [report_eq,contracts_paired made sketched apart,lists.1,lists.2] at reported
  cases all : ((value.members "children").filter (Value.isOf ["ContractDefinition"])).mapM blockOf with
  | error fault =>
    rw [all] at reported
    cases reported
  | ok blocks =>
    rw [all] at reported
    cases reported
    exact ⟨_,_,_,blocks,pragmas,imports,contracts,Yields.paired _ blocks all,prints_report read printed⟩

theorem meaning_twin {meaning : Except Fault Value}
    (same : meaning.map Value.loose = (Except.ok (.node node)).map Value.loose) :
    ∃ other : Fields, meaning = .ok (.node other) ∧ other.Twin node := by
  cases meaning with
  | error fault => cases same
  | ok value =>
    have twin : value.loose = .node (Value.looseFields node) := Except.ok.inj same
    cases value with
    | node other => exact ⟨other,rfl,Value.node.inj twin⟩
    | _ => cases twin

-- The outline of a source read without complaint is printed as its pragmas, its imports and a block for every contract.
-- Where a contract with the same meaning apart from places is the only one, its block is printed at the first level; here it is so only if it
-- comes first.
theorem parse_blocks {text : String} {value : Value} (read : parse text "sourceUnit" false = (.ok value,[]))
    (distinct : (((Reading.ofText .sourceUnit text).tree.inner .contractDefinition).flatMap Tree.names).Nodup) :
    ∃ (pragmas imports : List Fields) (blocks : List Block), Meant text .pragmaDirective pragmas ∧
      Meant text .importDirective imports ∧
      blocks.length = ((Reading.ofText .sourceUnit text).tree.inner .contractDefinition).length ∧
      Prints text (sections pragmas imports ++
        String.join (blocks.zipIdx.map fun entry => entry.1.print (entry.2 + 1))) ∧
      ∀ (position : Nat) (contract : Tree) (block : Block),
        ((Reading.ofText .sourceUnit text).tree.inner .contractDefinition)[position]? = some contract →
        blocks[position]? = some block →
        (∀ (other : String) (single : Value) (alone : Tree), parse other "sourceUnit" false = (.ok single,[]) →
          (Reading.ofText .sourceUnit other).tree.inner .contractDefinition = [alone] →
          (alone.meaning false).map Value.loose = (contract.meaning false).map Value.loose →
          ∃ pragmas imports, Meant other .pragmaDirective pragmas ∧ Meant other .importDirective imports ∧
            Prints other (sections pragmas imports ++ block.print 1)) ∧
        (block.print (position + 1) = block.print 1 ↔ position = 0) := by
  obtain ⟨pragmas,imports,contracts,blocks,isPragmas,isImports,isContracts,made,prints⟩ := printed_blocks read distinct
  refine ⟨pragmas,imports,blocks,isPragmas,isImports,by rw [isContracts.length_eq,made.length_eq],prints,?_⟩
  intro position contract block isContract isBlock
  obtain ⟨node,isNode,means⟩ := paired_at isContracts isContract
  obtain ⟨_,isMade,own⟩ := paired_at made isNode
  cases isMade.symm.trans isBlock
  refine ⟨fun other single alone isSingle only same => ?_,?_⟩
  · obtain ⟨node',means',pair⟩ : ∃ node' : Fields, alone.meaning false = .ok (.node node') ∧ node'.Twin node := by
      rw [means] at same
      exact meaning_twin same
    have proper := (contract_proper isSingle (only ▸ mem_singleton_self alone)).1
    have distinct : (((Reading.ofText .sourceUnit other).tree.inner .contractDefinition).flatMap Tree.names).Nodup := by
      rw [only,flatMap_singleton,proper.contract_key means']
      exact nodup_singleton _
    obtain ⟨pragmas,imports,nodes,blocks,isPragmas,isImports,isNodes,made,prints⟩ := printed_blocks isSingle distinct
    refine ⟨pragmas,imports,isPragmas,isImports,?_⟩
    rw [Meant,only] at isNodes
    cases isNodes with
    | cons first rest =>
      cases rest
      cases means'.symm.trans first
      cases made with
      | cons first rest =>
        cases rest
        cases blockOf_twin pair _ _ first own
        simpa [printAll] using prints
  · rw [Block.print_inj (blockOf_lines own)]
    omega

-- Two contracts of which neither has members.
def twoContracts : String := "contract A{}contract B{}"

set_option maxRecDepth 100000 in
theorem twoContracts_read : (reads (fun _ => true) twoContracts "sourceUnit" false &&
    ((Reading.ofText .sourceUnit twoContracts).tree.inner .contractDefinition).map Tree.names ==
      [[.text "A"],[.text "B"]]) = true := by
  decide +kernel

-- The block of the second is not printed as if it were alone.
theorem twoContracts_printed : ∃ (pragmas imports : List Fields) (first second : Block),
    Prints twoContracts (sections pragmas imports ++ (first.print 1 ++ second.print 2)) ∧ second.print 2 ≠ second.print 1 := by
  have checked := twoContracts_read
  rw [Bool.and_eq_true,beq_iff_eq] at checked
  obtain ⟨value,read,_⟩ := reads_ok checked.1
  have distinct : (((Reading.ofText .sourceUnit twoContracts).tree.inner .contractDefinition).flatMap Tree.names).Nodup := by
    rw [flatMap_def,checked.2]
    decide
  obtain ⟨pragmas,imports,blocks,_,_,count,prints,each⟩ := parse_blocks read distinct
  have two : ((Reading.ofText .sourceUnit twoContracts).tree.inner .contractDefinition).length = 2 := by
    simpa using congrArg List.length checked.2
  obtain ⟨_,last,isTwo⟩ := length_eq_two.mp two
  obtain ⟨first,second,rfl⟩ := length_eq_two.mp (count.trans two)
  refine ⟨pragmas,imports,first,second,by simpa using prints,fun same => ?_⟩
  have moved := (each 1 last second (by rw [isTwo]; rfl) rfl).2.mp same
  cases moved

end Outline

end SolReader
