import SolReader.Command
import SolReader.Proofs.Ast.Locations
import SolReader.Proofs.Outline.Sketch
import SolReader.Proofs.Outline.Tables

namespace SolReader

open List

variable {value : Value}

-- A node that names a contract.
def Value.NamesBase (value : Value) : Prop :=
  ∃ (node base : Fields) (path : String), value = .node node ∧ node.get? "baseName" = some (.node base) ∧
    base.get? "namePath" = some (.text path)

-- What a contract is based on is listed by name.
def Fields.Based (node : Fields) : Prop :=
  ∃ bases, node.get? "baseContracts" = some (.list bases) ∧ ∀ base ∈ bases, base.NamesBase

namespace Outline

theorem commaJoined_total (texts : ∀ value ∈ values, ∃ content, value = .text content) :
    Hinges True (commaJoined values) := by
  rw [commaJoined]
  refine .after (.mapM_sure ?_) fun joined _ => .sure trivial _
  rintro ⟨value,position⟩ member
  obtain ⟨content,rfl⟩ := texts value (fst_mem_of_mem_zipIdx member)
  exact .sure trivial content

theorem listing_total {α : Type} {level : Nat} {title : String} {table : Table α}
    {entry : Key → α → Except Fault String} (each : ∀ row ∈ table, Hinges True (entry row.1 row.2)) :
    Hinges True (listing level title table entry) :=
  .after (.mapM_sure each) fun _ _ => .sure trivial _

theorem functionEntry_total {key : Key} {member : Callable} {traits : Traits} (known : member.traits = some traits)
    (visible : traits.visibility.isSimple = true) (mutable : traits.stateMutability.isSimple = true) :
    Hinges True (functionEntry key member) := by
  rw [functionEntry,known]
  refine .after (commaJoined_total ?_) fun joined _ => .sure trivial _
  intro value member
  obtain ⟨among,truthy⟩ := mem_filter.mp member
  have simple : value.isSimple = true := by
    rcases mem_cons.mp among with rfl | last
    · exact visible
    · cases mem_singleton.mp last
      exact mutable
  cases value with
  | text content => exact ⟨content,rfl⟩
  | null => cases truthy
  | _ => cases simple

namespace Contract

variable {contract : Contract}

theorem baseNames_total (based : contract.node.Based) : Hinges True contract.baseNames := by
  obtain ⟨bases,found,each⟩ := based
  rw [baseNames,Fields.demand_eq found,Fields.read_eq found]
  have named : ∀ base ∈ bases, ∃ path, (do (← base.part "baseName").part "namePath") = Except.ok (Value.text path) := by
    intro base member
    obtain ⟨node,inner,path,rfl,isBase,isPath⟩ := each base member
    refine ⟨path,?_⟩
    simp only [Value.part,Fields.demand_eq isBase,Fields.read_eq isBase,bind,Except.bind,Fields.demand_eq isPath,
      Fields.read_eq isPath]
  refine .after (.sure trivial (Value.list bases)) ?_
  rintro _ ⟨⟩
  refine .after (.sure trivial bases) ?_
  rintro _ ⟨⟩
  refine .after (.mapM_sure fun base member => ?_) fun paths listed => commaJoined_total ?_
  · obtain ⟨path,result⟩ := named base member
    rw [result]
    exact .sure trivial _
  · refine Yields.mapM (fun base member => ?_) paths listed
    rintro value result
    obtain ⟨path,same⟩ := named base member
    exact ⟨path,Except.ok.inj (result.symm.trans same)⟩

-- A function of a contract as it stands in the text has its traits.
def Spoken (contract : Contract) : Prop :=
  ∀ row ∈ contract.functions, ∃ traits, row.2.traits = some traits ∧ traits.visibility.isSimple = true ∧
    traits.stateMutability.isSimple = true

theorem report_total (based : contract.node.Based) (spoken : contract.Spoken) (key : Key) (level : Nat) :
    Hinges True (contract.report key level) := by
  have names {α : Type} (title : String) (table : Table α) : Hinges True (listing level title table nameOnly) :=
    listing_total fun row _ => .sure trivial _
  rw [report]
  refine (baseNames_total based).after fun _ _ => (names _ _).after fun _ _ => (names _ _).after fun _ _ => ?_
  refine (names _ _).after fun _ _ => (names _ _).after fun _ _ => ?_
  refine .after (listing_total fun row member => ?_) fun _ _ => .sure trivial _
  obtain ⟨traits,known,visible,mutable⟩ := spoken row member
  exact functionEntry_total known visible mutable

end Contract

theorem report_total {outline : Outline} (each : ∀ row ∈ outline.contracts, row.2.node.Based ∧ row.2.Spoken) :
    Hinges True outline.report := by
  rw [report]
  refine .after (.mapM_sure ?_) fun _ _ => .sure trivial _
  rintro ⟨row,position⟩ member
  obtain ⟨based,spoken⟩ := each row (fst_mem_of_mem_zipIdx member)
  exact Contract.report_total based spoken row.1 _

theorem spoken_of_sketch {contract : Contract} {node : Fields} (known : node.Contract)
    (same : contract.sketch = .ofNode node) : contract.Spoken := by
  have functions : contract.functions.mapEntries Callable.signature = (ContractSketch.ofNode node).functions :=
    congrArg ContractSketch.functions same
  intro row inside
  have listed : (row.1,row.2.signature) ∈ contract.functions.mapEntries Callable.signature := Table.mem_mapEntries inside
  rw [functions] at listed
  obtain ⟨member,among,_,signed⟩ := Table.mem_ofNodes listed
  obtain ⟨stands,isFunction⟩ := mem_filter.mp among
  have shaped : member.Shaped 2 := by
    cases known with
    | mk _ members => exact (members _ (Value.mem_members.mp stands) member rfl).shaped
  obtain ⟨type,typed⟩ := shaped.typed
  cases (show type = "FunctionDefinition" by simpa [Value.isOf_eq typed] using isFunction)
  have simple (name : String) (asked : name ∈ ["visibility","stateMutability"]) :
      (member.read name).isSimple = true := by
    obtain ⟨value,found⟩ := shaped.has typed (by decide) asked
    rw [Fields.read_eq found]
    have word : ∀ name ∈ ["visibility","stateMutability"], name ∈ Fields.words := by decide
    exact shaped.word typed (by decide) (word name asked) found
  refine ⟨.read member,?_,simple _ (by decide),simple _ (by decide)⟩
  calc row.2.traits
    _ = (Signature.ofNode member).traits := congrArg Signature.traits signed
    _ = some (.read member) := if_pos isFunction

theorem ofValue_report {value : Value} (source : value.Source)
    (based : ∀ node ∈ value.members "children", Value.isOf ["ContractDefinition"] node = true → node.Based) :
    Hinges True (ofValue value >>= report) := by
  obtain ⟨outline,made,same⟩ := ofValue_sketch source
  rw [made]
  refine .after (.sure trivial outline) ?_
  rintro _ ⟨⟩
  have contracts : outline.contracts.mapEntries Contract.sketch = (Sketch.ofValue value).contracts :=
    congrArg Sketch.contracts same
  refine report_total fun row inside => ?_
  have listed : (row.1,row.2.sketch) ∈ outline.contracts.mapEntries Contract.sketch := Table.mem_mapEntries inside
  rw [contracts] at listed
  obtain ⟨node,among,_,sketched⟩ := Table.mem_ofNodes listed
  obtain ⟨stands,isContract⟩ := mem_filter.mp among
  have known : node.Contract := by
    cases source with
    | mk each => exact (each _ (Value.mem_members.mp stands) node rfl).contract isContract
  have own : row.2.node = node := congrArg ContractSketch.node sketched
  exact ⟨own ▸ based node stands isContract,spoken_of_sketch known sketched⟩

end Outline

namespace Tree

namespace Known

variable {tree : Tree}

theorem base (known : tree.Known .inheritanceSpecifier) : Yields Value.NamesBase tree.phrase.inheritanceSpecifier := by
  obtain ⟨child,inside,found⟩ : ∃ child ∈ tree.inner .userDefinedTypeName,
      tree.phrase.first? .userDefinedTypeName = some (child.understood false) := known.first (by decide)
  have named : Yields (fun value => ∃ (base : Fields) (path : String), value = .node base ∧
      base.get? "namePath" = some (.text path)) (Part.meaningOf (tree.phrase.first? .userDefinedTypeName)) := by
    rw [found,Part.meaningOf,meaning_understood,meaning_seen (mem_inner.mp inside).2]
    change Yields _ (child.seen false).userDefinedTypeName
    rw [Phrase.userDefinedTypeName]
    exact Phrase.yields_node fun place _ _ => ⟨_,_,rfl,rfl⟩
  refine named.bind ?_
  rintro _ ⟨base,path,rfl,isPath⟩
  refine Yields.any.bind fun values _ => Phrase.yields_node fun place _ _ => ?_
  exact ⟨_,base,path,rfl,rfl,isPath⟩

theorem basedContract (known : tree.Known .contractDefinition) :
    Yields (Value.IfNode Fields.Based) tree.phrase.contractDefinition := by
  have each : ∀ part ∈ tree.phrase.allOf .inheritanceSpecifier, Yields Value.NamesBase part.meaning := by
    intro part member
    rw [allOf_eq] at member
    obtain ⟨child,inside,rfl⟩ := mem_map.mp member
    rw [meaning_understood,meaning_seen (mem_inner.mp inside).2]
    exact (known.inner inside).base
  rw [Phrase.contractDefinition]
  refine Yields.any.bind fun name _ => (Part.yields_listOf each).bind ?_
  rintro _ ⟨bases,rfl,good⟩
  refine Yields.any.bind fun parts _ => Yields.any.bind fun kind _ => Phrase.yields_node fun place _ _ => ?_
  rintro _ ⟨⟩
  exact ⟨bases,rfl,good⟩

end Known

namespace Fitted

variable {rule : Rule} {located : Bool} {value : Value}

-- The rules of phrases that hold no contracts.
def free (rule : Rule) : Bool :=
  rule != .sourceUnit && rule != .contractDefinition

theorem free_checked : ∀ rule : Rule, (!free rule || rule.parts.all free) = true := by
  decide

theorem contracts_checked : ∀ rule : Rule, (
    !free rule || rule.makes.all fun made => made.1 != "ContractDefinition") = true := by
  decide

variable {tree : Tree} (fitted : tree.Fitted)

include fitted

theorem no_contract (found : tree.rule? = some rule) (isFree : free rule = true)
    (means : tree.meaning located = .ok value) :
    value.All fun node => Value.isOf ["ContractDefinition"] node = false := by
  have closed : ∀ rule : Rule, free rule = true → ∀ inner ∈ rule.parts, free inner = true := by
    intro rule isFree
    have checked := free_checked rule
    rw [isFree] at checked
    exact all_eq_true.mp checked
  let Fine (phrase : Tree) : Prop := phrase ∈ tree.phrases
  refine @Tree.nodes_hold (fun _ node => Value.isOf ["ContractDefinition"] node = false) Fine located
    (fun _ _ _ _ => id) ?_ tree (fun _ inside => inside) _ means
  intro phrase rule own inside type fields place made placed _
  have within := fitted.within closed (fun other root => Option.some.inj (found.symm.trans root) ▸ isFree) inside own
  have checked := contracts_checked rule
  rw [within] at checked
  have other := all_eq_true.mp checked _ made.listed
  have typed : Fields.typeName (("type",.text type) :: fields ++ place) = .ok type := rfl
  rw [Value.isOf_eq typed]
  simpa using other

theorem visit (found : tree.rule? = some rule) (means : tree.meaning located = .ok value) :
    value.trace.fault = none ∧
      ∀ node ∈ value.trace.nodes, node.Typed ∧ (Value.isOf ["ContractDefinition"] node = true → node.Item) := by
  have walked := value.trace_over ((fitted.shaped (fun _ _ => Nat.zero_le _) means).imp fun _ own => own.typed)
  refine ⟨walked.complete,fun node met => ?_⟩
  have typed := fitted.shaped (fun _ _ => Nat.zero_le _) means node (walked.met node met)
  refine ⟨typed.typed,fun isContract => ?_⟩
  by_cases source : rule = .sourceUnit
  · subst source
    rw [meaning_seen found] at means
    exact ((Outline.visit (fitted.sourceUnit found value means)).2.1 node met).2 isContract
  by_cases contract : rule = .contractDefinition
  · subst contract
    rw [meaning_seen found] at means
    have item := fitted.contractDefinition value means
    cases value with
    | node own =>
      rcases mem_cons.mp (walked.met node met) with rfl | deeper
      · exact item node rfl
      · have other : Value.isOf ["ContractDefinition"] node = false :=
          ((item own rfl).inside node deeper).not_isOf (by decide)
        rw [other] at isContract
        cases isContract
    | _ => cases met
  · have other := fitted.no_contract found (by simp [free,source,contract]) means node (walked.met node met)
    rw [other] at isContract
    cases isContract

end Fitted

theorem Proper.based {tree : Tree} (proper : tree.Proper .sourceUnit) (fitted : tree.Fitted) :
    Yields (fun value => ∀ node ∈ value.members "children", Value.isOf ["ContractDefinition"] node = true → node.Based)
      (tree.meaning false) := by
  have each : ∀ part ∈ tree.phrase.parts.dropLast,
      Yields (Value.IfNode fun node => Value.isOf ["ContractDefinition"] node = true → node.Based) part.meaning := by
    intro part member
    obtain ⟨child,inside,rfl⟩ := mem_map.mp (dropLast_subset _ member)
    rw [meaning_understood]
    rcases proper.child inside with ⟨token,rfl,_⟩ | ⟨rule,own⟩
    · exact .ok nofun
    by_cases contract : rule = .contractDefinition
    · subst contract
      have known : child.Known .contractDefinition := ⟨own,fun small _ other whole => whole.meaning_hinges⟩
      rw [meaning_seen own.rule_eq]
      exact known.basedContract.imp fun value good node same _ => good node same
    · rintro value means node rfl isContract
      have asked : rule ∈ Rule.sourceUnit.parts := fitted.suits proper.rule_eq inside rule own.rule_eq
      have inner : rule ≠ .sourceUnit := by
        rintro rfl
        exact absurd asked (by decide)
      have other := (fitted.child inside).no_contract own.rule_eq (by simp [Fitted.free,inner,contract]) means node
        mem_cons_self
      rw [other] at isContract
      cases isContract
  rw [meaning_seen proper.rule_eq]
  change Yields _ tree.phrase.sourceUnit
  rw [Phrase.sourceUnit]
  split
  · exact .error
  · refine (Part.yields_listOf each).bind ?_
    rintro _ ⟨items,rfl,good⟩
    refine Phrase.yields_node fun place _ _ node stands isContract => ?_
    exact good _ (Value.mem_members.mp stands) node rfl isContract

end Tree

theorem Outline.ofValue_total (complete : value.trace.fault = none)
    (each : ∀ node ∈ value.trace.nodes, node.Typed ∧ (Value.isOf ["ContractDefinition"] node = true → node.Item)) :
    ∃ outline, Outline.ofValue value = .ok outline := by
  have step : ∀ node ∈ value.trace.nodes, ∀ (done : List Fields) (outline : Outline), True →
      ∃ next, outline.add node = .ok next ∧ True := by
    intro node met done outline _
    obtain ⟨next,added,_⟩ := outline.add_sketch (each node met).1 (each node met).2
    exact ⟨next,added,trivial⟩
  obtain ⟨outline,made,_⟩ := Value.fold_tracks complete step trivial
  exact ⟨outline,made⟩

theorem Value.fold_total (complete : value.trace.fault = none) {σ : Type}
    {step : σ → Fields → Except Fault σ} (total : ∀ state node, ∃ next, step state node = .ok next) (start : σ) :
    ∃ final, value.fold step start = .ok final := by
  have each : ∀ node ∈ value.trace.nodes, ∀ (done : List Fields) (state : σ), True →
      ∃ next, step state node = .ok next ∧ True := by
    intro node _ _ state _
    obtain ⟨next,stepped⟩ := total state node
    exact ⟨next,stepped,trivial⟩
  obtain ⟨final,folded,_⟩ := Value.fold_tracks complete each trivial
  exact ⟨final,folded⟩

-- Visits with steps that do not fail, and outlines, never fail on an abstract tree; and where a whole source has no
-- errors, its outline is printed.
theorem parse_consumed {text start : String} {located : Bool} {value : Value} {diagnostics : List Diagnostic}
    (parsed : parse text start located = (.ok value,diagnostics)) :
    (∀ (σ : Type) (step : σ → Fields → Except Fault σ), (∀ state node, ∃ next, step state node = .ok next) →
      ∀ initial, ∃ final, value.fold step initial = .ok final) ∧
    (∃ outline, Outline.ofValue value = .ok outline) ∧
    (start = "sourceUnit" → diagnostics = [] → ∃ output, ∀ path more read content, read path = some content →
      readText content = .ok text → Command.run ("outline" :: path :: more) read = (.ok ⟨0,output⟩,[])) := by
  obtain ⟨rule,known,means,said⟩ := parse_ok parsed
  obtain ⟨fitted,whole⟩ := Reading.ofText_fitted rule text
  obtain ⟨complete,each⟩ := fitted.visit whole means
  refine ⟨fun σ step total initial => Value.fold_total complete total initial,Outline.ofValue_total complete each,?_⟩
  rintro rfl rfl
  have isSource : rule = .sourceUnit := (Rule.ofName_whole known).mpr rfl
  subst isSource
  -- The command asks for no places, which the text may have been read with.
  obtain ⟨plain,unplaced⟩ : ∃ plain, (Reading.ofText .sourceUnit text).tree.meaning false = .ok plain := by
    cases located with
    | false => exact ⟨value,means⟩
    | true =>
      obtain ⟨plain,result,_⟩ := (Reading.ofText .sourceUnit text).tree.meaning_bare.forth value means
      exact ⟨plain,result⟩
  have source : plain.Source := by
    rw [Tree.meaning_seen whole] at unplaced
    exact fitted.sourceUnit whole plain unplaced
  have based := (Reading.ofText_proper said).based fitted plain unplaced
  obtain ⟨output,printed⟩ := (Outline.ofValue_report source based).result trivial
  refine ⟨output,fun path more read content found decoded => ?_⟩
  have task : Command.task? ("outline" :: path :: more) = some (.outline,path) := rfl
  have reading : parseFile (read path) "sourceUnit" false = (.ok plain,[]) := by
    simp only [parseFile,found,decoded,parse_known known,unplaced,said]
  have performed : Command.perform .outline plain = .ok output := printed
  simp only [Command.run,task,reading,performed,bind,Except.bind,pure,Except.pure]

set_option maxRecDepth 100000 in
theorem contract_read : reads (fun value => value.nodes.length == 2) "contract A{}" "sourceUnit" false = true := by
  decide +kernel

-- A contract can be visited, and its outline is printed.
theorem contract_consumed : ∃ value, parse "contract A{}" "sourceUnit" false = (.ok value,[]) ∧
    value.nodes.length = 2 ∧ (∃ count, value.fold (fun count _ => .ok (count + 1)) 0 = .ok (count : Nat)) ∧
    (∃ outline, Outline.ofValue value = .ok outline) ∧ ∃ output, ∀ path more read content, read path = some content →
      readText content = .ok "contract A{}" → Command.run ("outline" :: path :: more) read = (.ok ⟨0,output⟩,[]) := by
  obtain ⟨value,parsed,both⟩ := reads_ok contract_read
  obtain ⟨visited,outlined,printed⟩ := parse_consumed parsed
  exact ⟨value,parsed,beq_iff_eq.mp both,visited Nat _ (fun count _ => ⟨count + 1,rfl⟩) 0,outlined,printed rfl rfl⟩

end SolReader
