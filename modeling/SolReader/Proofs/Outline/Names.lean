import SolReader.Proofs.Outline.Tables

namespace SolReader

theorem Yields.foldlM {σ : Type} {step : σ → Fields → Except Fault σ} {Tracks : List Fields → σ → Prop}
    {nodes : List Fields} (each : ∀ node ∈ nodes, ∀ done state, Tracks done state →
      Yields (Tracks (done ++ [node])) (step state node))
    {done : List Fields} {state : σ} (tracks : Tracks done state) :
    Yields (Tracks (done ++ nodes)) (nodes.foldlM step state) := by
  induction nodes generalizing done state with
  | nil => exact .ok (by rwa [List.append_nil])
  | cons node nodes ih =>
    obtain ⟨first,others⟩ := List.forall_mem_cons.mp each
    rw [List.foldlM_cons]
    refine (first done state tracks).bind fun next kept => ?_
    have rest := ih others kept
    rwa [List.append_assoc] at rest

namespace Value

variable {σ : Type} {value : Value} {step : σ → Fields → Except Fault σ} {start : σ} {Tracks : List Fields → σ → Prop}

theorem yields_fold (each : ∀ node ∈ value.trace.nodes, ∀ done state, Tracks done state →
      Yields (Tracks (done ++ [node])) (step state node)) (tracks : Tracks [] start) :
    Yields (Tracks value.trace.nodes) (value.fold step start) := by
  refine (Yields.foldlM each tracks).bind fun final kept => ?_
  split
  · exact .error
  · exact .ok kept

-- Of the other nodes only their types are looked at.
theorem yields_foldOf {types : List String} (each : ∀ node ∈ value.trace.nodes, isOf types node = true →
      ∀ done state, Tracks done state → Yields (Tracks (done ++ [node])) (step state node)) (tracks : Tracks [] start) :
    Yields (Tracks (value.trace.nodes.filter (isOf types))) (value.foldOf types step start) := by
  let Kept (done : List Fields) (state : σ) : Prop := Tracks (done.filter (isOf types)) state
  refine @yields_fold σ value _ start Kept (fun node member done state kept => ?_) tracks
  refine Yields.chain fun type typed => ?_
  rw [← isOf_eq typed types]
  simp only [Kept,List.filter_append]
  cases sort : isOf types node with
  | false => exact .ok (by simpa [sort] using kept)
  | true => simpa [sort] using each node member sort _ state kept

end Value

theorem Fields.yields_key (node : Fields) : Yields (fun key => node.nameKey = key) node.key := by
  rw [key,nameKey,read]
  cases node.get? "name" with
  | none => exact .error
  | some name => cases name <;> first | exact .ok rfl | exact .error

theorem Table.map_get?_insert {α β : Type} (make : α → β) (table : Table α) (key other : Key) (entry : α) :
    ((table.insert key entry).get? other).map make =
      if key.same other then some (make entry) else (table.get? other).map make := by
  rw [get?_insert]
  split <;> rfl

namespace Outline

variable {outline : Outline}

-- The sorts of members, each with a table of its own.
inductive Category where
  | stateVars | enums | structs | events | modifiers | functions
  deriving DecidableEq

-- The node that an entry is made from.
def Named.source : Named → Fields
  | .node fields => fields
  | .callable member => member.node
  | .event member => member.node

-- What stands under a key in the table of a sort.
def Contract.entry? (contract : Contract) (key : Key) : Category → Option Named
  | .stateVars => (contract.stateVars.get? key).map .node
  | .enums => (contract.enums.get? key).map .node
  | .structs => (contract.structs.get? key).map .node
  | .events => (contract.events.get? key).map .event
  | .modifiers => (contract.modifiers.get? key).map .callable
  | .functions => (contract.functions.get? key).map .callable

-- A member that uses its name, with the table it goes to.
structure Use where
  category : Category
  member : Fields

-- The members that a node of a contract stands for: itself, or the variables declared in it.
def usesOf (node : Fields) : List Use :=
  match node.typeName with
  | .ok "EnumDefinition" => [⟨.enums,node⟩]
  | .ok "StructDefinition" => [⟨.structs,node⟩]
  | .ok "StateVariableDeclaration" =>
    ((Value.node node).trace.nodes.filter (Value.isOf ["VariableDeclaration"])).map (Use.mk .stateVars)
  | .ok "EventDefinition" => [⟨.events,node⟩]
  | .ok "FunctionDefinition" => [⟨.functions,node⟩]
  | .ok "ModifierDefinition" => [⟨.modifiers,node⟩]
  | _ => []

-- All members of a contract, in the order in which they are met.
def Contract.uses (node : Fields) : List Use :=
  (Value.node node).trace.nodes.flatMap usesOf

-- The last member that uses a name.
def lastUse (uses : List Use) (key : Key) : Option Use :=
  uses.reverse.find? fun use => use.member.nameKey.same key

theorem lastUse_concat (uses : List Use) (use : Use) (key : Key) :
    lastUse (uses ++ [use]) key = if use.member.nameKey.same key then some use else lastUse uses key := by
  rw [lastUse,List.reverse_concat,List.find?_cons]
  cases use.member.nameKey.same key <;> rfl

namespace Contract

-- The contract after a member has been entered: its entry stands under its name in the index and in its own table, and
-- nothing else has changed.
structure Enters (use : Use) (before after : Contract) : Prop where
  node : after.node = before.node
  entry : ∃ entry : Named, entry.source = use.member ∧
    (∀ key, after.names.get? key = if use.member.nameKey.same key then some entry else before.names.get? key) ∧
    ∀ key category, after.entry? key category =
      if category = use.category ∧ use.member.nameKey.same key then some entry else before.entry? key category

-- The index agrees with the tables, all of which hold what these members have put there.
structure Indexed (uses : List Use) (contract : Contract) : Prop where
  named : ∀ key, contract.names.get? key = (lastUse uses key).bind fun use => contract.entry? key use.category
  used : ∀ key category, (contract.entry? key category).isSome = true ↔
    ∃ use ∈ uses, use.category = category ∧ use.member.nameKey.same key = true
  last : ∀ key use, lastUse uses key = some use →
    ∃ entry, contract.entry? key use.category = some entry ∧ entry.source = use.member

theorem bare_indexed (node : Fields) (name : Value) : Indexed [] (bare node name) where
  named _ := rfl
  used _ category := by cases category <;> simp [bare, entry?]
  last _ _ found := by cases found

theorem Indexed.enters {uses : List Use} (indexed : Indexed uses before)
    (enters : Enters use before after) : Indexed (uses ++ [use]) after := by
  obtain ⟨_,entry,source,names,tables⟩ := enters
  refine ⟨fun key => ?_,fun key category => ?_,fun key other found => ?_⟩
  · rw [names,lastUse_concat]
    by_cases own : use.member.nameKey.same key = true
    · simp [own,tables]
    · simp [own,tables,indexed.named]
  · rw [tables]
    by_cases own : category = use.category ∧ use.member.nameKey.same key = true
    · rw [if_pos own]
      simp [own.1,own.2]
    · rw [if_neg own,indexed.used]
      simp only [List.mem_append,List.mem_singleton,or_and_right,exists_or,exists_eq_left]
      refine ⟨.inl,fun either => either.resolve_right fun here => own ⟨here.1.symm,here.2⟩⟩
  · rw [lastUse_concat] at found
    rw [tables]
    by_cases own : use.member.nameKey.same key = true
    · rw [if_pos own] at found
      cases found
      exact ⟨entry,if_pos ⟨rfl,own⟩,source⟩
    · rw [if_neg own] at found
      simpa [own] using indexed.last key other found

section Steps

variable {contract next : Contract} {node : Fields}

-- It is enough to look at the index and at the one table that changes.
theorem Enters.of {use : Use} (entry : Named) (root : next.node = contract.node) (source : entry.source = use.member)
    (names : next.names = contract.names.insert use.member.nameKey entry)
    (own : ∀ key, next.entry? key use.category =
      if use.member.nameKey.same key then some entry else contract.entry? key use.category)
    (others : ∀ key category, category ≠ use.category → next.entry? key category = contract.entry? key category) :
    Enters use contract next := by
  refine ⟨root,entry,source,fun key => ?_,fun key category => ?_⟩
  · rw [names,Table.get?_insert]
  · by_cases same : category = use.category
    · rw [same,own]
      simp
    · rw [others key category same,if_neg fun both => same both.1]

theorem addEnum_enters (contract : Contract) (node : Fields) :
    Yields (Enters ⟨.enums,node⟩ contract) (contract.addEnum node) := by
  refine node.yields_key.bind ?_
  rintro _ rfl
  refine .ok (.of (.node node) rfl rfl rfl (fun key => Table.map_get?_insert ..) fun key category other => ?_)
  cases category <;> first | rfl | exact absurd rfl other

theorem addStruct_enters (contract : Contract) (node : Fields) :
    Yields (Enters ⟨.structs,node⟩ contract) (contract.addStruct node) := by
  refine node.yields_key.bind ?_
  rintro _ rfl
  refine .ok (.of (.node node) rfl rfl rfl (fun key => Table.map_get?_insert ..) fun key category other => ?_)
  cases category <;> first | rfl | exact absurd rfl other

theorem addEvent_enters (contract : Contract) (node : Fields) :
    Yields (Enters ⟨.events,node⟩ contract) (contract.addEvent node) := by
  have made : Yields (fun member => member.node = node) (EventEntry.ofNode node) :=
    Yields.any.bind fun _ _ => .ok rfl
  refine made.bind fun member same => node.yields_key.bind ?_
  rintro _ rfl
  refine .ok (.of (.event member) rfl same rfl (fun key => Table.map_get?_insert ..) fun key category other => ?_)
  cases category <;> first | rfl | exact absurd rfl other

theorem callable_node (node : Fields) (traits : Option Traits) :
    Yields (fun member => member.node = node) (Callable.ofNode node traits) := by
  rw [Callable.ofNode]
  refine Yields.any.bind fun _ _ => Yields.any.bind fun arguments _ => ?_
  have ending (returns : Table Fields) : Yields (fun member : Callable => member.node = node) (do
      let locals ← (← node.demand "body").tableOf "VariableDeclaration"
      let identifiers ← (Value.node node).visited ["Identifier","AssemblyCall"]
      return ⟨node,traits,arguments,returns,(arguments.update returns).update locals,identifiers⟩) :=
    Yields.any.bind fun _ _ => Yields.any.bind fun _ _ => Yields.any.bind fun _ _ => .ok rfl
  dsimp only
  split
  · split
    · exact Yields.any.bind fun returns _ => ending returns
    · exact ending []
  · exact ending []

theorem addModifier_enters (contract : Contract) (node : Fields) :
    Yields (Enters ⟨.modifiers,node⟩ contract) (contract.addModifier node) := by
  refine node.yields_key.bind ?_
  rintro _ rfl
  refine (callable_node node none).bind fun member same => ?_
  refine .ok (.of (.callable member) rfl same rfl (fun key => Table.map_get?_insert ..) fun key category other => ?_)
  cases category <;> first | rfl | exact absurd rfl other

theorem addFunction_enters (contract : Contract) (node : Fields) :
    Yields (Enters ⟨.functions,node⟩ contract) (contract.addFunction node) := by
  refine Yields.any.bind fun traits _ => node.yields_key.bind ?_
  rintro _ rfl
  refine (callable_node node (some traits)).bind fun member same => ?_
  refine .ok (.of (.callable member) rfl same rfl (fun key => Table.map_get?_insert ..) fun key category other => ?_)
  cases category <;> first | rfl | exact absurd rfl other

theorem addStateVars_indexed {uses : List Use} (indexed : Indexed uses contract) (node : Fields) :
    Yields (fun next => next.node = contract.node ∧ Indexed (uses ++
      ((Value.node node).trace.nodes.filter (Value.isOf ["VariableDeclaration"])).map (Use.mk .stateVars)) next)
      (contract.addStateVars node) := by
  let Tracks (done : List Fields) (state : Contract) : Prop :=
    state.node = contract.node ∧ Indexed (uses ++ done.map (Use.mk .stateVars)) state
  refine @Value.yields_foldOf Contract _ _ contract Tracks _ ?_ ⟨rfl,by simpa using indexed⟩
  rintro declared _ _ done state ⟨root,earlier⟩
  refine declared.yields_key.bind ?_
  rintro _ rfl
  have enters : Enters ⟨.stateVars,declared⟩ state { state with
      stateVars := state.stateVars.insert declared.nameKey declared
      names := state.names.insert declared.nameKey (.node declared) } := by
    refine .of (.node declared) rfl rfl rfl (fun key => Table.map_get?_insert ..) fun key category other => ?_
    cases category <;> first | rfl | exact absurd rfl other
  refine .ok ⟨enters.node.trans root,?_⟩
  rw [List.map_append,← List.append_assoc]
  exact earlier.enters enters

theorem add_indexed {uses : List Use} (indexed : Indexed uses contract) (node : Fields) :
    Yields (fun next => next.node = contract.node ∧ Indexed (uses ++ usesOf node) next) (contract.add node) := by
  have single {use : Use} {outcome : Except Fault Contract} (enters : Yields (Enters use contract) outcome) :
      Yields (fun next => next.node = contract.node ∧ Indexed (uses ++ [use]) next) outcome :=
    enters.imp fun next entered => ⟨entered.node,indexed.enters entered⟩
  rw [add]
  refine Yields.chain fun type typed => ?_
  split
  · rw [usesOf,typed]
    exact single (addEnum_enters contract node)
  · rw [usesOf,typed]
    exact single (addStruct_enters contract node)
  · rw [usesOf,typed]
    exact addStateVars_indexed indexed node
  · rw [usesOf,typed]
    exact single (addEvent_enters contract node)
  · rw [usesOf,typed]
    exact single (addFunction_enters contract node)
  · rw [usesOf,typed]
    exact single (addModifier_enters contract node)
  · have absent : usesOf node = [] := by
      rw [usesOf,typed]
      split <;> simp_all
    exact .ok ⟨rfl,by rwa [absent,List.append_nil]⟩

theorem ofNode_indexed (node : Fields) : Yields (fun contract => Indexed (uses contract.node) contract) (ofNode node) := by
  rw [ofNode]
  refine Yields.any.bind fun name _ => ?_
  let Tracks (done : List Fields) (state : Contract) : Prop := state.node = node ∧ Indexed (done.flatMap usesOf) state
  have visit : Yields (Tracks (Value.node node).trace.nodes) ((Value.node node).fold add (bare node name)) := by
    refine Value.yields_fold (fun inner _ done state tracks => ?_) ⟨rfl,bare_indexed node name⟩
    refine (add_indexed tracks.2 inner).imp fun next both => ⟨both.1.trans tracks.1,?_⟩
    rw [List.flatMap_append,List.flatMap_singleton]
    exact both.2
  exact visit.imp fun contract tracks => tracks.1 ▸ tracks.2

end Steps

end Contract

-- The contracts of an outline, and the one met last.
def everyContract (outline : Outline) : List Contract :=
  outline.contracts.map Prod.snd ++ outline.current.toList

theorem addContract_indexed (node : Fields)
    (indexed : ∀ contract ∈ outline.everyContract, contract.Indexed (Contract.uses contract.node)) :
    Yields (fun next => ∀ contract ∈ next.everyContract, contract.Indexed (Contract.uses contract.node))
      (outline.addContract node) := by
  refine Yields.any.bind fun key _ => (Contract.ofNode_indexed node).bind fun made own => .ok fun contract member => ?_
  rcases List.mem_append.mp member with listed | last
  · obtain ⟨row,inside,rfl⟩ := List.mem_map.mp listed
    rcases Table.mem_insert inside with earlier | ⟨_,same⟩
    · exact indexed row.2 (List.mem_append_left _ (List.mem_map_of_mem earlier))
    · exact same ▸ own
  · cases Option.mem_toList.mp last
    exact own

theorem add_indexed (node : Fields)
    (indexed : ∀ contract ∈ outline.everyContract, contract.Indexed (Contract.uses contract.node)) :
    Yields (fun next => ∀ contract ∈ next.everyContract, contract.Indexed (Contract.uses contract.node))
      (outline.add node) := by
  rw [add]
  refine Yields.any.bind fun type _ => ?_
  split
  · exact .ok indexed
  · exact .ok indexed
  · exact addContract_indexed node indexed
  · exact .ok indexed

-- Of whatever value an outline can be made, in each of its contracts a name is in the index exactly if it is in one of the
-- tables, and it stands for the entry that the last member of that name has in its table.
theorem ofValue_indexed {value : Value} {outline : Outline} (made : ofValue value = .ok outline) :
    ∀ contract ∈ outline.everyContract,
      (∀ key, (contract.names.get? key).isSome = true ↔ ∃ category, (contract.entry? key category).isSome = true) ∧
      ∀ key entry, contract.names.get? key = some entry → ∃ use, lastUse (Contract.uses contract.node) key = some use ∧
        contract.entry? key use.category = some entry ∧ entry.source = use.member := by
  intro contract member
  have indexed : contract.Indexed (Contract.uses contract.node) := by
    let Tracks (_ : List Fields) (state : Outline) : Prop :=
      ∀ contract ∈ state.everyContract, contract.Indexed (Contract.uses contract.node)
    have visit : Yields (Tracks value.trace.nodes) (ofValue value) :=
      Value.yields_fold (fun node _ _ _ tracks => add_indexed node tracks) (List.forall_mem_nil _)
    exact visit outline made contract member
  refine ⟨fun key => ⟨fun named => ?_,fun ⟨category,entered⟩ => ?_⟩,fun key entry named => ?_⟩
  · obtain ⟨entry,found⟩ := Option.isSome_iff_exists.mp named
    rw [indexed.named,Option.bind_eq_some_iff] at found
    obtain ⟨use,_,entered⟩ := found
    exact ⟨use.category,Option.isSome_iff_exists.mpr ⟨entry,entered⟩⟩
  · obtain ⟨use,listed,_,same⟩ := (indexed.used key category).mp entered
    have found : (lastUse (Contract.uses contract.node) key).isSome = true :=
      List.find?_isSome.mpr ⟨use,List.mem_reverse.mpr listed,same⟩
    obtain ⟨last,isLast⟩ := Option.isSome_iff_exists.mp found
    obtain ⟨entry,entered,_⟩ := indexed.last key last isLast
    rw [indexed.named,isLast,Option.bind_some,entered]
    rfl
  · rw [indexed.named,Option.bind_eq_some_iff] at named
    obtain ⟨use,isLast,entered⟩ := named
    obtain ⟨again,same,source⟩ := indexed.last key use isLast
    exact ⟨use,isLast,entered,Option.some.inj (same.symm.trans entered) ▸ source⟩

-- A contract in which an enumeration and an event have one name.
def sharedName : Value :=
  .node [("type",.text "SourceUnit"),("children",.list [.node [("type",.text "ContractDefinition"),("name",.text "A"),
    ("subNodes",.list [.node [("type",.text "EnumDefinition"),("name",.text "a")],
      .node [("type",.text "EventDefinition"),("name",.text "a")]])]])]

theorem sharedName_indexed : ∃ outline, ofValue sharedName = .ok outline ∧ outline.everyContract.length = 2 ∧
    ∀ contract ∈ outline.everyContract, ∀ key,
      (contract.names.get? key).isSome = true ↔ ∃ category, (contract.entry? key category).isSome = true :=
  ⟨_,rfl,rfl,fun contract member => (ofValue_indexed (show ofValue sharedName = _ from rfl) contract member).1⟩

end Outline

end SolReader
