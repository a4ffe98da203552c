import SolReader.Proofs.Outline.Sources

namespace SolReader

open List

variable {located : Bool}

-- The meaning of a phrase has an inherent property if what is below has it, and the nodes that the phrase makes get it
-- from what they are made of.
theorem Tree.meaning_step {holds : Value → Prop} (inherent : Value.Inherent holds) {tree : Tree}
    (found : tree.rule? = some rule)
    (below : ∀ child ∈ tree.children, ∀ phrase ∈ child.phrases, Yields holds (phrase.meaning located))
    (made : ∀ {type fields place}, Made (tree.seen located) rule type fields → (tree.seen located).place = .ok place →
      (∀ field ∈ fields, Fields.Keeps holds field) → holds (.node (("type",.text type) :: fields ++ place))) :
    Yields holds (tree.meaning located) := by
  have parts : Twins (.ofTree True) (Value.Same holds) (tree.seen located).parts (tree.seen located).parts := by
    refine forall₂_same.mpr fun part member => ?_
    obtain ⟨child,inside,rfl⟩ := mem_map.mp member
    refine understood_twin (Value.congruent_same inherent) rfl ?_
    rintro phrase deeper _ rfl
    have own := below child inside phrase deeper
    exact ⟨fun value means => ⟨value,means,rfl,own value means⟩,fun _ value means => ⟨value,means,rfl,own value means⟩,
      fun _ _ _ _ _ => trivial⟩
  have alike : Alike (.ofTree True) (Value.Same holds) rule (tree.seen located) (tree.seen located) :=
    ⟨Value.congruent_same inherent,rfl,parts,fun known same => Value.same_node same fun place placed inside =>
      made known placed inside⟩
  intro value means
  rw [meaning_seen found] at means
  obtain ⟨other,_,_,all⟩ := alike.meaning_tied.forth value means
  exact all

theorem Value.all_made {holds : Fields → Prop} {phrase : Phrase}
    (placed : phrase.place = .ok place) (own : holds (("type",.text type) :: fields ++ place))
    (each : ∀ field ∈ fields, Fields.Keeps (Value.All holds) field) :
    Value.All holds (.node (("type",.text type) :: fields ++ place)) := by
  refine all_node own fun inner member => ?_
  rw [Phrase.fieldNodes_made placed] at member
  obtain ⟨field,held,deeper⟩ := mem_fieldNodes.mp member
  rcases each field held with all | ⟨_,piece,isPiece⟩
  · exact all inner deeper
  · rw [isPiece] at deeper
    cases deeper

theorem Outline.flatMap_declared (nodes : List Fields) : nodes.flatMap declared =
    (nodes.filter (Value.isOf ["StateVariableDeclaration"])).flatMap declared := by
  induction nodes with
  | nil => rfl
  | cons node nodes ih =>
    rw [flatMap_cons,filter_cons,ih]
    split
    · rw [flatMap_cons]
    · rename_i other
      rw [declared,if_neg other,nil_append]

namespace Tree

variable {located : Bool} {tree declaration : Tree} {node : Fields}

-- The node is what a parameter of a function type in the tree means.
def HasTypeParameter (located : Bool) (tree : Tree) (node : Fields) : Prop :=
  ∃ phrase ∈ tree.phrases, phrase.rule? = some .functionTypeParameter ∧ phrase.meaning located = .ok (.node node)

theorem HasTypeParameter.within {phrase : Tree} (inside : phrase ∈ tree.phrases)
    (has : phrase.HasTypeParameter located node) : tree.HasTypeParameter located node := by
  obtain ⟨parameter,deeper,found,means⟩ := has
  exact ⟨parameter,phrases_trans inside deeper,found,means⟩

theorem declarers_checked : ∀ rule : Rule, (rule.tier < 4 || rule == .functionTypeParameter ||
    rule.makes.all fun made => made.1 != "VariableDeclaration") = true := by
  decide

theorem typeParameter_unnamed (found : tree.rule? = some .functionTypeParameter) :
    Yields (Value.IsNode fun node => node.get? "name" = some .null) (tree.meaning located) := by
  rw [meaning_seen found,Phrase.meaning,Phrase.functionTypeParameter]
  refine Yields.any.bind fun type _ => Phrase.yields_node fun place placed _ => ⟨_,rfl,?_⟩
  exact Fields.get?_made placed (by decide) (by decide)

theorem typeParameter_holds (found : tree.rule? = some .functionTypeParameter)
    {holds : Fields → Prop} (own : ∀ node, tree.meaning located = .ok (.node node) → holds node)
    (below : ∀ child ∈ tree.children, ∀ phrase ∈ child.phrases, Yields (Value.All holds) (phrase.meaning located)) :
    Yields (Value.All holds) (tree.meaning located) := by
  have typed : Yields (Value.All holds) (Part.meaningOf ((tree.seen located).first? .typeName)) := by
    cases part : (tree.seen located).first? .typeName with
    | none => exact .ok nofun
    | some part =>
      obtain ⟨child,inside,isType,rfl⟩ := mem_seen (mem_first part)
      exact below child inside child (self_mem isType)
  have inner : Yields (fun value => ∀ node, value = .node node → ∀ inner ∈ Value.fieldNodes node, holds inner)
      (tree.meaning located) := by
    rw [meaning_seen found,Phrase.meaning,Phrase.functionTypeParameter]
    refine typed.bind fun type inside => Phrase.yields_node fun place _ bare => ?_
    rintro _ ⟨⟩
    have nothing : Value.All holds .null := nofun
    exact Value.all_inside bare (by simp [inside,nothing])
  intro value means
  obtain ⟨node,rfl,_⟩ := typeParameter_unnamed found value means
  exact Value.all_node (own node means) (inner _ means node rfl)

theorem Fitted.declares (fitted : tree.Fitted) (high : ∀ rule, tree.rule? = some rule → 4 ≤ rule.tier) :
    Yields (Value.All fun node => Value.isOf ["VariableDeclaration"] node = true → tree.HasTypeParameter located node)
      (tree.meaning located) := by
  induction tree using by_size with
  | step tree ih =>
    cases found : tree.rule? with
    | none =>
      cases tree with
      | leaf token => exact .ok nofun
      | error token => exact .ok nofun
      | node rule start stop children => cases found
    | some rule =>
      have tiers : ∀ rule : Rule, decide (4 ≤ rule.tier) = true → ∀ inner ∈ rule.parts, decide (4 ≤ inner.tier) = true :=
        fun rule le inner asked => decide_eq_true (Nat.le_trans (of_decide_eq_true le) (Rule.tier_le asked))
      have below : ∀ child ∈ tree.children, ∀ phrase ∈ child.phrases, Yields (Value.All fun node =>
          Value.isOf ["VariableDeclaration"] node = true → tree.HasTypeParameter located node) (phrase.meaning located) := by
        intro child member phrase inside
        have within : phrase ∈ tree.phrases := phrases_child member inside
        have smaller : sizeOf phrase < sizeOf tree := Nat.lt_of_le_of_lt (size_phrase inside) (size_child member)
        refine (ih phrase smaller (fitted.phrase within) fun other isOther => ?_).imp fun value all =>
          all.imp fun node has declares => (has declares).within within
        exact of_decide_eq_true (fitted.within tiers (fun rule root => decide_eq_true (high rule root)) within isOther)
      by_cases parameter : rule = .functionTypeParameter
      · subst parameter
        exact typeParameter_holds found (fun node means _ => ⟨tree,self_mem found,found,means⟩) below
      · refine meaning_step (Value.inherent_all _) found below fun {type fields place} made placed each => ?_
        refine Value.all_made placed (fun declares => ?_) each
        have typed : Fields.typeName (("type",.text type) :: fields ++ place) = .ok type := rfl
        rw [Value.isOf_eq typed] at declares
        have isType : type = "VariableDeclaration" := by simpa using declares
        have checked := declarers_checked rule
        rw [decide_eq_false (Nat.not_lt.mpr (high rule found)),beq_false_of_ne parameter,Bool.false_or,Bool.false_or] at checked
        have other := all_eq_true.mp checked _ made.listed
        rw [isType] at other
        cases other

-- The node of a state variable stands in what its declaration means, with the name that is written there.
structure StateVariable (located : Bool) (declaration : Tree) (node : Fields) : Prop where
  inside : ∃ whole : Fields, declaration.meaning located = .ok (.node whole) ∧
    whole.get? "variables" = some (.list [.node node])
  declares : Value.isOf ["VariableDeclaration"] node = true
  named : ∃ name, declaration.inner .identifier = [name] ∧ node.get? "name" = some (.text name.text)
  lasting : node.get? "isStateVar" = some (.bool true)

-- A node that stands in a type or in a value inside the tree.
def Inner (located : Bool) (tree : Tree) (node : Fields) : Prop :=
  node.Shaped 4 ∧ (Value.isOf ["VariableDeclaration"] node = true → tree.HasTypeParameter located node)

theorem Fitted.first_declares (fitted : tree.Fitted) {rule : Rule} (high : 4 ≤ rule.tier) :
    Yields (Value.All (tree.Inner located)) (Part.meaningOf ((tree.seen located).first? rule)) := by
  cases found : (tree.seen located).first? rule with
  | none => exact .ok nofun
  | some part =>
    obtain ⟨child,inside,isRule,rfl⟩ := mem_seen (mem_first found)
    have deeper := fitted.child inside
    have tiered (other : Rule) (root : child.rule? = some other) : 4 ≤ other.tier :=
      Option.some.inj (isRule.symm.trans root) ▸ high
    intro value means node member
    refine ⟨deeper.shaped tiered means node member,fun declares => ?_⟩
    exact (deeper.declares tiered value means node member declares).within (phrases_child inside (self_mem isRule))

theorem trace_stateVariable (isWhole : whole =
      [("type",.text "StateVariableDeclaration"),("variables",.list [.node own]),("initialValue",value)] ++ place)
    (placed : ∀ field ∈ place, field.1 = "loc") (typed : (Value.node own).All Fields.Typed) :
    (Value.node whole).trace.nodes = whole :: own :: ((Value.traceFields own).nodes ++ (Value.traceField value).nodes) := by
  obtain ⟨type,isType⟩ := typed own mem_cons_self
  have inner := Value.traceFields_over own fun node member => typed node (mem_cons_of_mem _ member)
  have first : (Value.node own).trace = ⟨own :: (Value.traceFields own).nodes,none⟩ := by
    rw [Value.trace,isType]
    exact congrArg (Trace.mk _) inner.complete
  have fields : Value.traceFields whole = (Value.traceItems [.node own]).append (Value.traceField value) := by
    simp only [isWhole,cons_append,nil_append]
    rw [Value.traceFields_cons,if_pos (by decide),Value.traceFields_cons,if_neg (by decide),Value.traceFields_cons,
      if_neg (by decide),Value.traceFields_place placed,Trace.append_empty]
    rfl
  have isSort : Fields.typeName whole = .ok "StateVariableDeclaration" := by
    rw [isWhole]
    rfl
  rw [Value.trace,isSort,fields,Value.traceItems,Value.traceItems,first]
  simp [Trace.append,Trace.empty]

theorem Proper.stateName (proper : declaration.Proper .stateVariableDeclaration) (located : Bool) :
    ∃ name, declaration.inner .identifier = [name] ∧
      Part.textOf ((declaration.seen located).first? .identifier) = .ok name.text := by
  obtain ⟨level,derives⟩ := proper.derives
  have filled := length_pos_iff.mpr (derives.inner_ne_nil (show 0 < Rule.least _ (Member.isPhrase .identifier) by decide))
  have few := derives.inner_le (show Rule.most _ (Member.isPhrase .identifier) = Option.some 1 by decide)
  obtain ⟨name,only⟩ := length_eq_one_iff.mp (by omega : (declaration.inner .identifier).length = 1)
  refine ⟨name,only,?_⟩
  have found : (declaration.seen located).first? .identifier = Option.some (name.understood located) := by
    rw [Phrase.first?,show (declaration.seen located).allOf .identifier = _ from all_understood located _ _,only]
    rfl
  rw [found,Part.textOf,Part.text,tree_understood]

-- The node of a declaration holds that of the variable, and its value once more.
inductive DeclarationNode (located : Bool) (declaration : Tree) (own : Fields) : Fields → Prop where
  | mk {value : Value} {place : Fields} (typed : own.typeName = .ok "VariableDeclaration")
      (named : ∃ name, declaration.inner .identifier = [name] ∧ own.get? "name" = some (.text name.text))
      (lasting : own.get? "isStateVar" = some (.bool true))
      (inner : ∀ node ∈ Value.fieldNodes own, declaration.Inner located node) (initial : value.All (declaration.Inner located))
      (placed : ∀ field ∈ place, field.1 = "loc") (bare : Value.fieldNodes place = []) :
      DeclarationNode located declaration own ([("type",.text "StateVariableDeclaration"),
        ("variables",.list [.node own]),("initialValue",value)] ++ place)

theorem Proper.declarationNode (proper : declaration.Proper .stateVariableDeclaration)
    (fitted : declaration.Fitted) (located : Bool) :
    Yields (Value.IsNode fun whole => ∃ own, declaration.DeclarationNode located own whole) (declaration.meaning located) := by
  obtain ⟨name,only,named⟩ := proper.stateName located
  have typed : Yields (Value.All (declaration.Inner located))
      (Part.meaningOf ((declaration.seen located).first? .typeName)) := fitted.first_declares (by decide)
  have valued : Yields (Value.All (declaration.Inner located))
      (Part.meaningOf ((declaration.seen located).first? .expression)) := fitted.first_declares (by decide)
  rw [meaning_seen proper.rule_eq,Phrase.meaning,Phrase.stateVariableDeclaration]
  refine typed.bind fun type inType => Yields.chain fun text isText => valued.bind fun value inValue => ?_
  cases named.symm.trans isText
  have own : Yields (Value.IsNode fun own => own.typeName = .ok "VariableDeclaration" ∧
      own.get? "name" = some (.text name.text) ∧ own.get? "isStateVar" = some (.bool true) ∧
      ∀ node ∈ Value.fieldNodes own, declaration.Inner located node) ((declaration.seen located).node "VariableDeclaration"
        [("typeName",type),("name",.text name.text),("expression",value),
          ("visibility",.text (Phrase.wordAmong (declaration.seen located).parts
            [(.kwInternal,"internal"),(.kwPublic,"public"),(.kwPrivate,"private")])),("isStateVar",.bool true),
          ("isDeclaredConst",.bool ((declaration.seen located).token? .kwConstant).isSome),("isIndexed",.bool false)]) := by
    refine Phrase.yields_node fun place placed bare => ⟨_,rfl,rfl,?_,?_,?_⟩
    · exact Fields.get?_made placed (by decide) (by decide)
    · exact Fields.get?_made placed (by decide) (by decide)
    · exact Value.all_inside bare (by simp [inType,inValue])
  refine own.bind ?_
  rintro _ ⟨own,rfl,isOwn,isNamed,lasting,inner⟩
  exact Phrase.yields_node fun place placed bare =>
    ⟨_,rfl,own,.mk isOwn ⟨name,only,isNamed⟩ lasting inner inValue placed bare⟩

namespace DeclarationNode

variable {located : Bool} {declaration : Tree} {own whole : Fields} (made : declaration.DeclarationNode located own whole)

include made

theorem stateVariable (means : declaration.meaning located = .ok (.node whole)) :
    declaration.StateVariable located own := by
  cases made with
  | mk typed named lasting => exact ⟨⟨_,means,rfl⟩,Value.isOf_eq typed _,named,lasting⟩

theorem declared : ∃ rest, Outline.declared whole = own :: rest ∧
    ∀ other ∈ rest, declaration.HasTypeParameter located other := by
  cases made with
  | @mk value place typed named lasting inner initial placed bare =>
    have allTyped : (Value.node own).All Fields.Typed :=
      Value.all_node ⟨_,typed⟩ fun node member => (inner node member).1.typed
    have walked := Value.traceFields_over own fun node member => (inner node member).1.typed
    have again := Value.traceField_over (initial.imp fun node own => own.1.typed)
    refine ⟨((Value.traceFields own).nodes ++ (Value.traceField value).nodes).filter (Value.isOf ["VariableDeclaration"]),
      ?_,fun other member => ?_⟩
    · rw [Outline.declared,if_pos (show Value.isOf _ _ = true from rfl),trace_stateVariable rfl placed allTyped,
        filter_cons_of_neg (by simp),filter_cons_of_pos (Value.isOf_eq typed _)]
    · obtain ⟨visited,isOther⟩ := mem_filter.mp member
      rcases mem_append.mp visited with within | after
      · exact (inner other (walked.met other within)).2 isOther
      · exact (initial other (again.met other after)).2 isOther

theorem alone : ∀ inner ∈ Value.fieldNodes whole, Value.isOf ["StateVariableDeclaration"] inner = false := by
  cases made with
  | mk typed named lasting inner initial placed bare =>
    have deeper (node : Fields) (inside : declaration.Inner located node) :
        Value.isOf ["StateVariableDeclaration"] node = false := inside.1.not_isOf (by decide)
    have first : (Value.node own).All fun node => Value.isOf ["StateVariableDeclaration"] node = false :=
      Value.all_node (Value.isOf_eq typed _) fun node member => deeper node (inner node member)
    refine Value.all_inside bare (forall_mem_cons.mpr ⟨Value.all_of_items (forall_mem_singleton.mpr first),?_⟩)
    exact forall_mem_singleton.mpr (initial.imp deeper)

end DeclarationNode

-- The declarations of the state variables of a contract.
def stateVariables (contract : Tree) : List Tree :=
  contract.members.filter (·.rule? == some .stateVariableDeclaration)

-- Of what is declared, the nodes with names are those of the declarations, and the others are parameters of function types.
structure Declared (located : Bool) (declarations : List Tree) (nodes : List Fields) : Prop where
  named : List.Forall₂ (StateVariable located) declarations (nodes.filter fun node => decide (node.nameKey ≠ .null))
  others : ∀ node ∈ nodes, node.nameKey = .null →
    ∃ declaration ∈ declarations, declaration.HasTypeParameter located node

theorem StateVariable.nameKey
    (isVariable : declaration.StateVariable located node) : declaration.names = [node.nameKey] := by
  obtain ⟨name,only,named⟩ := isVariable.named
  rw [names,only,Fields.nameKey,Fields.read_eq named]
  rfl

theorem HasTypeParameter.nameKey (has : tree.HasTypeParameter located node) : node.nameKey = .null := by
  obtain ⟨phrase,_,found,means⟩ := has
  obtain ⟨_,same,unnamed⟩ := typeParameter_unnamed found _ means
  cases same
  rw [Fields.nameKey,Fields.read_eq unnamed]
  rfl

theorem declared_paired
    (paired : List.Forall₂ (fun declaration whole => declaration.meaning located = .ok (.node whole)) declarations wholes)
    (made : ∀ declaration ∈ declarations, ∀ whole, declaration.meaning located = .ok (.node whole) →
      ∃ own, declaration.DeclarationNode located own whole) :
    Declared located declarations (wholes.flatMap Outline.declared) := by
  induction paired with
  | nil => exact ⟨.nil,forall_mem_nil _⟩
  | @cons declaration whole declarations wholes means _ ih =>
    obtain ⟨first,later⟩ := forall_mem_cons.mp made
    obtain ⟨own,node⟩ := first whole means
    obtain ⟨rest,declares,parameters⟩ := node.declared
    obtain ⟨named,others⟩ := ih later
    have isVariable := node.stateVariable means
    have known : own.nameKey ≠ .null := by
      obtain ⟨name,only,isName⟩ := isVariable.named
      rw [Fields.nameKey,Fields.read_eq isName]
      rintro ⟨⟩
    have unknown : rest.filter (fun node => decide (node.nameKey ≠ .null)) = [] :=
      filter_eq_nil_iff.mpr fun other member => by simp [(parameters other member).nameKey]
    rw [flatMap_cons,declares]
    constructor
    · rw [filter_append,filter_cons_of_pos (by simpa using known),unknown]
      exact .cons isVariable named
    · intro other member isNull
      rw [cons_append,mem_cons,mem_append] at member
      rcases member with rfl | inside | after
      · exact absurd isNull known
      · exact ⟨declaration,mem_cons_self,parameters other inside⟩
      · obtain ⟨declaring,held,has⟩ := others other after isNull
        exact ⟨declaring,mem_cons_of_mem _ held,has⟩

section Contract

variable {member : Tree} {node : Fields}
variable {contract : Tree} (fitted : contract.Fitted) {located : Bool}

include fitted

theorem Fitted.ofMember (inside : member ∈ contract.members) : member.Fitted := by
  obtain ⟨part,isPart,held⟩ := mem_flatMap.mp inside
  exact (fitted.child (mem_inner.mp isPart).1).child held

theorem Proper.stateVariable (proper : contract.Proper .contractDefinition)
    (member : declaration ∈ contract.stateVariables) :
    Yields (Value.IsNode fun whole => ∃ own, declaration.DeclarationNode located own whole) (declaration.meaning located) := by
  obtain ⟨inside,isRule⟩ := mem_filter.mp member
  obtain ⟨part,isPart,held⟩ := mem_flatMap.mp inside
  have found : declaration.rule? = some .stateVariableDeclaration := by simpa using isRule
  have own : declaration.Proper .stateVariableDeclaration := (proper.inner isPart).inner (mem_inner.mpr ⟨held,found⟩)
  exact own.declarationNode (fitted.ofMember inside) located

theorem Fitted.bases_plain : Yields (Value.All fun node =>
    node.Typed ∧ Value.isOf ["StateVariableDeclaration"] node = false)
    (Part.listOf ((contract.seen located).allOf .inheritanceSpecifier)) := by
  have each : ∀ part ∈ (contract.seen located).allOf .inheritanceSpecifier, Yields (Value.All fun node =>
      node.Typed ∧ Value.isOf ["StateVariableDeclaration"] node = false) part.meaning := by
    intro part member
    obtain ⟨child,inside,found,rfl⟩ := mem_seen member
    have deeper := fitted.child inside
    have plain : Yields (Value.All fun node => Value.isOf ["StateVariableDeclaration"] node = false)
        (child.meaning located) := by
      refine deeper.unmade (outside .stateVariableDeclaration) _ (by decide) (by decide) fun rule isRule => ?_
      cases Option.some.inj (found.symm.trans isRule)
      decide
    intro value means node held
    exact ⟨(deeper.shaped (fun _ _ => Nat.zero_le _) means node held).typed,plain value means node held⟩
  refine (Part.yields_listOf each).imp ?_
  rintro _ ⟨items,rfl,all⟩
  exact Value.all_of_items all

theorem Proper.members_plain (proper : contract.Proper .contractDefinition)
    (inside : member ∈ contract.members) : Yields (Value.IfNode fun node => (Value.node node).All Fields.Typed ∧
      ∀ inner ∈ Value.fieldNodes node, Value.isOf ["StateVariableDeclaration"] inner = false) (member.meaning located) := by
  rintro _ means node rfl
  have shaped := (fitted.ofMember inside).shaped (fun _ _ => Nat.zero_le _) means
  refine ⟨shaped.imp fun _ own => own.typed,?_⟩
  by_cases found : member.rule? = some .stateVariableDeclaration
  · have listed : member ∈ contract.stateVariables := mem_filter.mpr ⟨inside,by simp [found]⟩
    obtain ⟨_,same,own,made⟩ := proper.stateVariable fitted listed _ means
    cases same
    exact made.alone
  · have absent := fitted.member_unmade .stateVariableDeclaration "StateVariableDeclaration" (by decide) (by decide) inside
      found _ means
    exact fun inner held => absent inner (mem_cons_of_mem _ held)

theorem Proper.stateVariables_met (proper : contract.Proper .contractDefinition)
    (means : contract.meaning located = .ok (.node node)) :
    (Value.node node).trace.nodes.filter (Value.isOf ["StateVariableDeclaration"]) =
      (node.members "subNodes").filter (Value.isOf ["StateVariableDeclaration"]) := by
  cases proper.contract_node means with
  | @mk name kind bases items place based members placed =>
    have plain (own : Fields) (inside : .node own ∈ items) : (Value.node own).All Fields.Typed ∧
        ∀ inner ∈ Value.fieldNodes own, Value.isOf ["StateVariableDeclaration"] inner = false := by
      obtain ⟨member,isMember,meant⟩ := exists_paired members inside
      exact proper.members_plain fitted isMember _ meant own rfl
    have apart := fitted.bases_plain bases based
    have walked := Value.traceField_over (apart.imp fun _ own => own.1)
    have absent : (Value.traceField bases).nodes.filter (Value.isOf ["StateVariableDeclaration"]) = [] :=
      filter_eq_nil_iff.mpr fun inner visited => by simp [(apart inner (walked.met inner visited)).2]
    rw [Value.trace_contract placed rfl,Trace.nodes_append rfl,Trace.nodes_append walked.complete,cons_append,
      nil_append,filter_cons,if_neg nofun,filter_append,absent,nil_append,
      Value.traceItems_filter (fun own inside => (plain own inside).1) fun own inside => (plain own inside).2]
    rfl

-- What a contract has for its state variables: those with names are the variables, the others are parameters.
theorem Proper.stateVariables_declared (proper : contract.Proper .contractDefinition)
    (means : contract.meaning located = .ok (.node node)) :
    Declared located contract.stateVariables ((Value.node node).trace.nodes.flatMap Outline.declared) := by
  have own : ∀ tree : Tree, tree.rule? = some .stateVariableDeclaration → Yields (Value.IsNode fun node =>
      Value.isOf ["StateVariableDeclaration"] node = true) (tree.meaning located) := by
    intro tree found
    rw [meaning_seen found,Phrase.meaning,Phrase.stateVariableDeclaration]
    refine Yields.any.bind fun _ _ => Yields.any.bind fun _ _ => Yields.any.bind fun _ _ => Yields.any.bind fun _ _ => ?_
    exact Phrase.yields_node fun place _ _ => ⟨_,rfl,rfl⟩
  have paired := proper.members_paired fitted .stateVariableDeclaration "StateVariableDeclaration" (by decide) (by decide)
    means own
  rw [Outline.flatMap_declared,proper.stateVariables_met fitted means]
  exact declared_paired paired fun declaration member whole meant => by
    obtain ⟨_,same,made⟩ := proper.stateVariable fitted member _ meant
    cases same
    exact made

end Contract

end Tree

theorem Tree.names_paired (paired : List.Forall₂ (StateVariable located) declarations nodes) :
    declarations.flatMap names = nodes.map Fields.nameKey := by
  induction paired with
  | nil => rfl
  | cons own _ ih => rw [flatMap_cons,own.nameKey,ih,map_cons,singleton_append]

-- In the outline of a text read without complaint, the state variables of a contract with their names are those that are
-- declared, and what has no name is a parameter of a function type.
theorem parse_stateVars {text : String} {located : Bool} {value : Value}
    (read : parse text "sourceUnit" located = (.ok value,[])) :
    ∃ outline, Outline.ofValue value = .ok outline ∧ ∀ row ∈ outline.contracts,
      ∃ contract ∈ (Reading.ofText .sourceUnit text).tree.inner .contractDefinition,
        contract.meaning located = .ok (.node row.2.node) ∧
        (∃ nodes, List.Forall₂ (Tree.StateVariable located) contract.stateVariables nodes ∧
          Table.Lists id nodes (row.2.stateVars.filter fun entry => decide (entry.1 ≠ .null))) ∧
        Table.keys (row.2.stateVars.filter fun entry => decide (entry.1 ≠ .null)) =
          (contract.stateVariables.flatMap Tree.names).eraseDups ∧
        ∀ entry ∈ row.2.stateVars, entry.1 = .null →
          ∃ declaration ∈ contract.stateVariables, declaration.HasTypeParameter located entry.2 := by
  have means : (parse text "sourceUnit" located).1 = .ok value := by rw [read]
  obtain ⟨outline,made,_⟩ := Outline.ofValue_sketch (parse_source means)
  refine ⟨outline,made,fun row inside => ?_⟩
  obtain ⟨contract,isContract,meant⟩ := Outline.contract_tree means made inside
  obtain ⟨proper,fitted⟩ := contract_proper read isContract
  obtain ⟨named,others⟩ := proper.stateVariables_declared fitted meant
  have filled := (Outline.Contract.ofNode_filled _ _ (Outline.ofValue_contracts made inside)).stateVars
  have respects (one two : Key) (same : one.same two = true) : decide (one ≠ .null) = decide (two ≠ .null) :=
    decide_eq_decide.mpr (not_congr (Key.same_null same))
  have kept : (row.2.stateVars.filter fun entry => decide (entry.1 ≠ .null)) = Table.ofNodes id
      (((Value.node row.2.node).trace.nodes.flatMap Outline.declared).filter fun node => decide (node.nameKey ≠ .null)) := by
    rw [filled]
    exact Table.filter_ofNodes respects id _
  have plain : ∀ node ∈ ((Value.node row.2.node).trace.nodes.flatMap Outline.declared).filter
      (fun node => decide (node.nameKey ≠ .null)), node.nameKey.amount? = none := by
    intro node member
    obtain ⟨declaration,_,own⟩ := exists_paired named member
    obtain ⟨name,only,isName⟩ := own.named
    rw [Fields.nameKey,Fields.read_eq isName]
    rfl
  have lists := Table.ofNodes_lists (fun node : Fields => (rfl : id (id node) = node)) plain
  rw [kept]
  refine ⟨contract,isContract,meant,⟨_,named,lists⟩,?_,fun entry member isNull => ?_⟩
  · rw [lists.names,Tree.names_paired named]
  · rw [filled] at member
    obtain ⟨node,declared,same,own⟩ := Table.mem_ofNodes member
    rw [isNull,Key.same_plain rfl,decide_eq_true_iff] at same
    exact own ▸ others node declared same.symm

-- The one state variable of a contract is found.
theorem overloads_stateVars : ∃ value outline row, ∃ contract : Tree, parse overloads "sourceUnit" false = (.ok value,[]) ∧
    Outline.ofValue value = .ok outline ∧ outline.contracts = [row] ∧ row.2.stateVars.keys = [.text "a"] ∧
    contract.meaning false = .ok (.node row.2.node) ∧ (contract.stateVariables.flatMap Tree.names).eraseDups = [.text "a"] := by
  obtain ⟨value,outline,row,entry,parsed,made,only,_,keys,_⟩ := overloads_outline
  obtain ⟨again,remade,each⟩ := parse_stateVars parsed
  cases made.symm.trans remade
  obtain ⟨contract,_,meant,_,names,_⟩ := each row (by simp [only])
  refine ⟨value,outline,row,contract,parsed,made,only,keys,meant,names.symm.trans ?_⟩
  have every : ∀ entry ∈ row.2.stateVars, decide (entry.1 ≠ .null) = true := by
    intro entry member
    have among : entry.1 ∈ row.2.stateVars.keys := mem_map_of_mem member
    rw [keys,mem_singleton] at among
    simp [among]
  rw [filter_eq_self.mpr every,keys]

end SolReader
