import SolReader.Outline
import SolReader.Proofs.Parse.Fitted

namespace SolReader

open List

variable {holds : Fields → Prop}

-- Sources hold contracts, contracts hold members, members hold statements and parameters, and those hold expressions.
def Rule.tier : Rule → Nat
  | .sourceUnit => 0
  | .pragmaDirective | .importDirective | .contractDefinition => 1
  | .contractPart | .enumDefinition | .structDefinition | .functionDefinition | .modifierDefinition | .eventDefinition => 2
  | .typeName | .elementaryTypeName | .userDefinedTypeName | .mapping | .mappingKey | .functionTypeName
  | .functionTypeParameterList | .functionTypeParameter | .storageLocation | .stateMutability | .identifier | .expression
  | .primaryExpression | .expressionList | .functionCallArguments | .nameValue | .nameValueList | .typeNameExpression
  | .tupleExpression | .stringLiteral | .hexLiteral | .numberLiteral => 4
  | _ => 3

theorem Rule.tiers_checked : ∀ rule : Rule, (rule.parts.all fun inner => rule.tier ≤ inner.tier) = true := by
  decide

theorem Rule.tier_le {inner : Rule} {rule : Rule} (asked : inner ∈ rule.parts) : rule.tier ≤ inner.tier := by
  have checked := all_eq_true.mp (Rule.tiers_checked rule) inner asked
  simpa using checked

-- A node as a phrase of at least the given tier makes it.
inductive Fields.Shaped (tier : Nat) : Fields → Prop where
  | mk {rule : Rule} {type : String} {fields place : Fields} (high : tier ≤ rule.tier)
      (listed : (type,fields.names) ∈ rule.makes) (worded : fields.Worded type)
      (placed : ∀ field ∈ place, field.1 = "loc") : Shaped tier (("type",.text type) :: fields ++ place)

namespace Fields.Shaped

variable {tier : Nat} {node : Fields}

theorem mono (shaped : node.Shaped tier) (le : lower ≤ tier) : node.Shaped lower := by
  cases shaped with
  | mk high listed worded placed => exact .mk (Nat.le_trans le high) listed worded placed

theorem typeName (shaped : node.Shaped tier) :
    ∃ type, node.typeName = .ok type ∧ ∃ rule : Rule, tier ≤ rule.tier ∧ ∃ names, (type,names) ∈ rule.makes := by
  cases shaped with
  | @mk rule type _ _ high listed => exact ⟨type,rfl,rule,high,_,listed⟩

theorem not_isOf (shaped : node.Shaped tier) {types : List String}
    (apart : ∀ rule : Rule, (rule.tier < tier || rule.makes.all fun made => !types.contains made.1) = true) :
    Value.isOf types node = false := by
  obtain ⟨type,typed,rule,high,names,listed⟩ := shaped.typeName
  have checked := apart rule
  rw [decide_eq_false (Nat.not_lt.mpr high),Bool.false_or] at checked
  have absent := all_eq_true.mp checked _ listed
  rw [Value.isOf,typed]
  simpa using absent

end Fields.Shaped

theorem Phrase.place_names {phrase : Phrase} {place : Fields} (placed : phrase.place = .ok place) :
    ∀ field ∈ place, field.1 = "loc" := by
  rw [Phrase.place] at placed
  split at placed
  · cases location : Phrase.location phrase.tree with
    | error fault => rw [location] at placed; cases placed
    | ok value =>
      rw [location] at placed
      cases placed
      exact forall_mem_singleton.mpr rfl
  · cases placed
    exact forall_mem_nil _

theorem Tree.Fitted.shaped {tree : Tree} (fitted : tree.Fitted)
    (high : ∀ rule, tree.rule? = some rule → tier ≤ rule.tier)
    (means : tree.meaning located = .ok value) : value.All (Fields.Shaped tier) := by
  have tiers : ∀ rule : Rule, decide (tier ≤ rule.tier) = true → ∀ inner ∈ rule.parts, decide (tier ≤ inner.tier) = true :=
    fun rule le inner asked => decide_eq_true (Nat.le_trans (of_decide_eq_true le) (Rule.tier_le asked))
  let Fine (phrase : Tree) : Prop := phrase ∈ tree.phrases
  refine @Tree.nodes_hold (fun _ => Fields.Shaped tier) Fine located (fun _ _ _ _ => id) ?_ tree (fun _ inside => inside) _
    means
  intro phrase rule found inside type fields place made placed _
  have within := fitted.within tiers (fun rule root => decide_eq_true (high rule root)) inside found
  exact .mk (of_decide_eq_true within) made.listed made.worded (Phrase.place_names placed)

theorem Value.all_of_items (each : ∀ item ∈ items, item.All holds) : (Value.list items).All holds := by
  intro node member
  obtain ⟨item,inside,deeper⟩ := Value.mem_itemNodes.mp member
  exact each item inside node deeper

theorem Value.all_node {node : Fields} (own : holds node)
    (inside : ∀ inner ∈ Value.fieldNodes node, holds inner) : (Value.node node).All holds :=
  forall_mem_cons.mpr ⟨own,inside⟩

theorem Yields.paired {α β : Type} {each : α → Except Fault β} (items : List α) :
    Yields (fun values => List.Forall₂ (fun item value => each item = .ok value) items values) (items.mapM each) := by
  induction items with
  | nil => exact .ok .nil
  | cons item items ih =>
    rw [mapM_cons]
    exact Yields.chain fun value first => ih.bind fun values rest => .ok (.cons first rest)

section Parts

variable {tree : Tree} {located : Bool} {rule : Rule} {tier : Nat} {holds : Value → Prop}

theorem Phrase.yields_node {phrase : Phrase} {type : String} {fields : Fields}
    (made : ∀ place, (∀ field ∈ place, field.1 = "loc") → Value.fieldNodes place = [] →
      holds (.node (("type",.text type) :: fields ++ place))) : Yields holds (phrase.node type fields) := by
  intro value result
  obtain ⟨place,placed,rfl⟩ := Phrase.node_ok result
  exact made place (Phrase.place_names placed) (Phrase.fieldNodes_place placed)

theorem Part.yields_listOf {parts : List Part} (each : ∀ part ∈ parts, Yields holds part.meaning) :
    Yields (fun value => ∃ items, value = .list items ∧ ∀ item ∈ items, holds item) (Part.listOf parts) :=
  (Yields.mapM each).bind fun items good => .ok ⟨items,rfl,good⟩

theorem Tree.mem_seen {part : Part} (member : part ∈ (tree.seen located).allOf rule) :
    ∃ child ∈ tree.children, child.rule? = some rule ∧ part = child.understood located := by
  obtain ⟨held,isRule⟩ := mem_filter.mp member
  obtain ⟨child,inside,rfl⟩ := mem_map.mp held
  exact ⟨child,inside,by simpa [Part.rule?] using isRule,rfl⟩

theorem Tree.mem_first {part : Part} (found : (tree.seen located).first? rule = some part) :
    part ∈ (tree.seen located).allOf rule :=
  mem_of_head? found

namespace Tree.Fitted

variable (fitted : tree.Fitted)

include fitted

theorem part {part : Part} (member : part ∈ (tree.seen located).allOf rule) (high : tier ≤ rule.tier) :
    Yields (Value.All (Fields.Shaped tier)) part.meaning := by
  obtain ⟨child,inside,found,rfl⟩ := mem_seen member
  refine fun value means => (fitted.child inside).shaped (fun other root => ?_) means
  cases Option.some.inj (root.symm.trans found)
  exact high

theorem listed (high : tier ≤ rule.tier) :
    Yields (Value.All (Fields.Shaped tier)) (Part.listOf ((tree.seen located).allOf rule)) := by
  refine (Part.yields_listOf fun part member => fitted.part member high).imp ?_
  rintro _ ⟨items,rfl,each⟩
  exact Value.all_of_items each

theorem first (high : tier ≤ rule.tier) :
    Yields (Value.All (Fields.Shaped tier)) (Part.meaningOf ((tree.seen located).first? rule)) := by
  cases found : (tree.seen located).first? rule with
  | none => exact .ok nofun
  | some part => exact fitted.part (mem_first found) high

theorem firstOrEmpty (high : tier ≤ rule.tier) :
    Yields (Value.All (Fields.Shaped tier)) (Phrase.meaningOrEmpty ((tree.seen located).first? rule)) := by
  cases found : (tree.seen located).first? rule with
  | none => exact .ok nofun
  | some part => exact fitted.part (mem_first found) high

end Tree.Fitted

end Parts

namespace Value

variable {holds : Fields → Prop}

theorem all_simple {value : Value} (simple : value.isSimple = true) : value.All holds := by
  intro node member
  rw [nodes_simple simple] at member
  cases member

@[simp] theorem all_text (holds : Fields → Prop) (content : String) : All holds (text content) :=
  all_simple rfl

@[simp] theorem all_optionalText (holds : Fields → Prop) (part? : Option Part) : All holds (Part.optionalText part?) :=
  all_simple (optionalText_simple part?)

@[simp] theorem all_bool (holds : Fields → Prop) (truth : Bool) : All holds (bool truth) := nofun

theorem all_inside {type : String} {fields place : Fields} (bare : fieldNodes place = [])
    (each : ∀ field ∈ fields, field.2.All holds) :
    ∀ inner ∈ fieldNodes (("type",.text type) :: fields ++ place), holds inner := by
  intro inner member
  rw [cons_append,fieldNodes,fieldNodes_append,bare,append_nil] at member
  obtain ⟨field,inside,deeper⟩ := mem_fieldNodes.mp member
  exact each field inside inner deeper

end Value

theorem Fields.get?_made {type : Value} {fields place : Fields} (placed : ∀ field ∈ place, field.1 = "loc") {name : String}
    (place_ne : name ≠ "loc") (type_ne : name ≠ "type") :
    Fields.get? (("type",type) :: fields ++ place) name = fields.get? name := by
  have missing : Fields.get? place name = none := by
    cases found : Fields.get? place name with
    | none => rfl
    | some value => exact absurd (placed _ (Fields.mem_of_get? found)) place_ne
  rw [Fields.get?] at missing ⊢
  rw [lookup_append,missing,Option.or_none,lookup_cons,beq_false_of_ne type_ne]
  rfl

theorem Fields.Shaped.of (rule : Rule) {tier : Nat} {type : String} {fields place : Fields} (high : tier ≤ rule.tier)
    (listed : (type,fields.names) ∈ rule.makes) (worded : fields.Worded type)
    (placed : ∀ field ∈ place, field.1 = "loc") : Shaped tier (("type",.text type) :: fields ++ place) :=
  .mk high listed worded placed

-- The value is a node with the property.
def Value.IsNode (holds : Fields → Prop) (value : Value) : Prop :=
  ∃ node, value = .node node ∧ holds node

-- The value has the property if it is a node.
def Value.IfNode (holds : Fields → Prop) (value : Value) : Prop :=
  ∀ node, value = .node node → holds node

-- A parameter has a name that can be looked up, and only types and expressions inside.
structure Fields.Parameter (node : Fields) : Prop where
  shaped : node.Shaped 3
  isParameter : Value.isOf ["Parameter"] node = true
  named : ∃ name, node.get? "name" = some name ∧ name.isSimple = true
  inside : ∀ inner ∈ Value.fieldNodes node, inner.Shaped 4

-- What stands for the parameters or the results of a function.
inductive Value.Parameters : Value → Prop where
  | missing : Parameters .null
  | none : Parameters (.list [])
  | listed {items : List Value} {place : Fields} (each : ∀ item ∈ items, item.IsNode Fields.Parameter)
      (placed : ∀ field ∈ place, field.1 = "loc") :
      Parameters (.node ([("type",.text "ParameterList"),("parameters",.list items)] ++ place))

-- The types of what a contract keeps by name.
def Outline.definitionTypes : List String :=
  ["EnumDefinition","StructDefinition","EventDefinition","FunctionDefinition","ModifierDefinition"]

@[simp] theorem Value.isOf_cons (types : List String) (type : String) (fields : Fields) :
    Value.isOf types (("type",.text type) :: fields) = types.contains type := rfl

-- A member of a contract, with no further member inside.
structure Fields.Member (node : Fields) : Prop where
  shaped : node.Shaped 2
  inside : ∀ inner ∈ Value.fieldNodes node, inner.Shaped 3
  named : Value.isOf Outline.definitionTypes node = true → ∃ name, node.get? "name" = some (.text name)
  signed : Value.isOf ["FunctionDefinition","ModifierDefinition"] node = true →
    ∀ name ∈ ["parameters","returnParameters"], ∀ value, node.get? name = some value → value.Parameters
  making : Value.isOf ["FunctionDefinition"] node = true → ∃ truth, node.get? "isConstructor" = some (.bool truth)

theorem Fields.Member.of (rule : Rule) {type name : String} {fields place : Fields} (high : 2 ≤ rule.tier)
    (listed : (type,fields.names) ∈ rule.makes) (worded : fields.Worded type)
    (placed : ∀ field ∈ place, field.1 = "loc") (bare : Value.fieldNodes place = [])
    (named : fields.get? "name" = some (.text name)) (inside : ∀ field ∈ fields, field.2.All (Fields.Shaped 3))
    (signed : Value.isOf ["FunctionDefinition","ModifierDefinition"] (("type",.text type) :: fields ++ place) = true →
      ∀ name ∈ ["parameters","returnParameters"], ∀ value, fields.get? name = some value → value.Parameters)
    (making : Value.isOf ["FunctionDefinition"] (("type",.text type) :: fields ++ place) = true →
      ∃ truth, fields.get? "isConstructor" = some (.bool truth)) :
    Member (("type",.text type) :: fields ++ place) where
  shaped := .of rule high listed worded placed
  inside := Value.all_inside bare inside
  named := fun _ => ⟨name,(get?_made placed (by decide) (by decide)).trans named⟩
  signed := by
    intro callable name member value found
    have apart : ∀ name ∈ ["parameters","returnParameters"], name ≠ "loc" ∧ name ≠ "type" := by decide
    rw [get?_made placed (apart name member).1 (apart name member).2] at found
    exact signed callable name member value found
  making := by
    intro function
    obtain ⟨truth,found⟩ := making function
    exact ⟨truth,(get?_made placed (by decide) (by decide)).trans found⟩

inductive Fields.Contract : Fields → Prop where
  | mk {name kind : String} {bases : Value} {items : List Value} {place : Fields} (based : bases.All (Fields.Shaped 3))
      (members : ∀ item ∈ items, item.IfNode Fields.Member) (placed : ∀ field ∈ place, field.1 = "loc") :
      Contract ([("type",.text "ContractDefinition"),("name",.text name),("baseContracts",bases),
        ("subNodes",.list items),("kind",.text kind)] ++ place)

-- A part of a source, with no further such part inside.
structure Fields.Item (node : Fields) : Prop where
  shaped : node.Shaped 1
  inside : ∀ inner ∈ Value.fieldNodes node, inner.Shaped 2
  contract : Value.isOf ["ContractDefinition"] node = true → node.Contract

inductive Value.Source : Value → Prop where
  | mk {items : List Value} {place : Fields} (each : ∀ item ∈ items, item.IfNode Fields.Item)
      (placed : ∀ field ∈ place, field.1 = "loc") :
      Source (.node ([("type",.text "SourceUnit"),("children",.list items)] ++ place))

section Definitions

variable {tree : Tree} {located : Bool}

namespace Tree.Fitted

variable (fitted : tree.Fitted)

include fitted

theorem parameter : Yields (Value.IsNode Fields.Parameter) (tree.seen located).parameter := by
  rw [Phrase.parameter]
  refine (fitted.first (show 4 ≤ Rule.typeName.tier from by decide)).bind fun type typed => ?_
  refine Phrase.yields_node fun place placed bare => ⟨_,rfl,?_,rfl,?_,?_⟩
  · exact .of .parameter (by decide) (by simp [Fields.names]) (by simp [Fields.Worded]) placed
  · exact ⟨_,Fields.get?_made placed (by decide) (by decide),Value.optionalText_simple _⟩
  · exact Value.all_inside bare (by simp [typed])

theorem parameterList : Yields Value.Parameters (tree.seen located).parameterList := by
  rw [Phrase.parameterList]
  have each : ∀ part ∈ (tree.seen located).allOf .parameter,
      Yields (Value.IsNode Fields.Parameter) part.meaning := by
    intro part member
    obtain ⟨child,inside,found,rfl⟩ := mem_seen member
    rw [meaning_understood,meaning_seen found]
    exact (fitted.child inside).parameter
  refine (Part.yields_listOf each).bind ?_
  rintro _ ⟨items,rfl,good⟩
  exact Phrase.yields_node fun place placed _ => .listed good placed

theorem parameters : Yields (fun value => value.Parameters ∧ value.All (Fields.Shaped 3))
    (Part.meaningOf ((tree.seen located).first? .parameterList)) := by
  refine .and ?_ (fitted.first (by decide))
  cases found : (tree.seen located).first? .parameterList with
  | none => exact .ok .missing
  | some part =>
    obtain ⟨child,inside,isList,rfl⟩ := mem_seen (mem_first found)
    rw [Part.meaningOf,meaning_understood,meaning_seen isList]
    exact (fitted.child inside).parameterList

theorem parametersOrEmpty : Yields (fun value => value.Parameters ∧ value.All (Fields.Shaped 3))
    (Phrase.meaningOrEmpty ((tree.seen located).first? .parameterList)) := by
  have parameters : Yields _ (Part.meaningOf ((tree.seen located).first? .parameterList)) := fitted.parameters
  cases found : (tree.seen located).first? .parameterList with
  | none => exact .ok ⟨.none,nofun⟩
  | some part =>
    rw [found] at parameters
    exact parameters

theorem results : Yields (fun value => value.Parameters ∧ value.All (Fields.Shaped 3))
    (Phrase.meaningOrEmpty ((tree.seen located).first? .returnParameters)) := by
  cases found : (tree.seen located).first? .returnParameters with
  | none => exact .ok ⟨.none,nofun⟩
  | some part =>
    obtain ⟨child,inside,isResults,rfl⟩ := mem_seen (mem_first found)
    rw [Phrase.meaningOrEmpty,meaning_understood,meaning_seen isResults]
    exact (fitted.child inside).parameters

theorem enumDefinition : Yields (Value.IfNode Fields.Member) (tree.seen located).enumDefinition := by
  rw [Phrase.enumDefinition]
  refine Yields.any.bind fun name _ => (fitted.listed (show 3 ≤ Rule.enumValue.tier by decide)).bind fun members inner => ?_
  refine Phrase.yields_node fun place placed bare => ?_
  rintro _ ⟨⟩
  exact .of .enumDefinition (by decide) (by simp [Fields.names]) (by simp [Fields.Worded]) placed bare rfl (by simp [inner])
    (by simp) (by simp)

theorem structDefinition : Yields (Value.IfNode Fields.Member) (tree.seen located).structDefinition := by
  rw [Phrase.structDefinition]
  refine Yields.any.bind fun name _ => ?_
  refine (fitted.listed (show 3 ≤ Rule.variableDeclaration.tier by decide)).bind fun members inner => ?_
  refine Phrase.yields_node fun place placed bare => ?_
  rintro _ ⟨⟩
  exact .of .structDefinition (by decide) (by simp [Fields.names]) (by simp [Fields.Worded]) placed bare rfl (by simp [inner])
    (by simp) (by simp)

theorem eventDefinition : Yields (Value.IfNode Fields.Member) (tree.seen located).eventDefinition := by
  rw [Phrase.eventDefinition]
  refine Yields.any.bind fun name _ => ?_
  refine (fitted.first (show 3 ≤ Rule.eventParameterList.tier by decide)).bind fun parameters inner => ?_
  refine Phrase.yields_node fun place placed bare => ?_
  rintro _ ⟨⟩
  exact .of .eventDefinition (by decide) (by simp [Fields.names]) (by simp [Fields.Worded]) placed bare rfl (by simp [inner])
    (by simp) (by simp)

theorem modifierDefinition : Yields (Value.IfNode Fields.Member) (tree.seen located).modifierDefinition := by
  rw [Phrase.modifierDefinition]
  refine fitted.parametersOrEmpty.bind fun parameters listed => Yields.any.bind fun name _ => ?_
  obtain ⟨signed,inner⟩ := listed
  refine (fitted.first (show 3 ≤ Rule.block.tier by decide)).bind fun body within => ?_
  refine Phrase.yields_node fun place placed bare => ?_
  rintro _ ⟨⟩
  refine .of .modifierDefinition (by decide) (by simp [Fields.names]) (by simp [Fields.Worded]) placed bare rfl
    (by simp [inner,within]) (fun _ => ?_) (by simp)
  simpa [Fields.get?,lookup_cons] using signed

theorem modifiers : Yields (Value.All (Fields.Shaped 3)) (do
    Part.listOf (← Part.within ((tree.seen located).first? .modifierList) .modifierInvocation "modifierInvocation")) := by
  cases found : (tree.seen located).first? .modifierList with
  | none => exact .error
  | some part =>
    obtain ⟨child,inside,_,rfl⟩ := mem_seen (mem_first found)
    change Yields _ (Part.listOf (Phrase.all .modifierInvocation (child.understood located).parts))
    rw [parts_understood]
    exact (fitted.child inside).listed (by decide)

theorem functionDefinition : Yields (Value.IfNode Fields.Member) (tree.seen located).functionDefinition := by
  rw [Phrase.functionDefinition]
  refine Yields.any.bind fun role _ => fitted.parameters.bind fun parameters listed => ?_
  refine fitted.results.bind fun results given => ?_
  obtain ⟨name,isConstructor,isFallback,isReceive⟩ := role
  obtain ⟨signed,inner⟩ := listed
  obtain ⟨returns,deeper⟩ := given
  refine (fitted.firstOrEmpty (show 3 ≤ Rule.block.tier by decide)).bind fun body within => ?_
  rw [← bind_assoc]
  refine fitted.modifiers.bind fun modifiers invoked => ?_
  refine Phrase.yields_node fun place placed bare => ?_
  rintro _ ⟨⟩
  refine .of .functionDefinition (by decide) (by simp [Fields.names]) (by simp [Fields.Worded]) placed bare rfl
    (by simp [inner,deeper,within,invoked]) (fun _ => ?_) fun _ => ⟨isConstructor,rfl⟩
  simpa [Fields.get?,lookup_cons] using ⟨signed,returns⟩

theorem plainMember (found : tree.rule? = some rule) (high : 3 ≤ rule.tier) :
    Yields (Value.IfNode Fields.Member) (tree.meaning located) := by
  intro value means node same
  have shaped := fitted.shaped (fun other root => Option.some.inj (found.symm.trans root) ▸ high) means
  rw [same] at shaped
  have own : Fields.Shaped 3 node := shaped node mem_cons_self
  have undefined : Value.isOf Outline.definitionTypes node = false := own.not_isOf (by decide)
  have unsigned : Value.isOf ["FunctionDefinition","ModifierDefinition"] node = false := own.not_isOf (by decide)
  have unmade : Value.isOf ["FunctionDefinition"] node = false := own.not_isOf (by decide)
  exact ⟨own.mono (by decide),fun inner inside => shaped inner (mem_cons_of_mem _ inside),
    fun defines => absurd defines (by simp [undefined]),fun defines => absurd defines (by simp [unsigned]),
    fun defines => absurd defines (by simp [unmade])⟩

omit fitted in
theorem parts_checked : (Rule.contractPart.parts.all fun rule => decide (3 ≤ rule.tier) || [.enumDefinition,
    .structDefinition,.eventDefinition,.modifierDefinition,.functionDefinition].contains rule) = true := by
  decide

theorem member {rule : Rule} (found : tree.rule? = some rule) (asked : rule ∈ Rule.contractPart.parts) :
    Yields (Value.IfNode Fields.Member) (tree.meaning located) := by
  have checked := all_eq_true.mp parts_checked rule asked
  simp only [Bool.or_eq_true,decide_eq_true_eq,contains_eq_mem,mem_cons,not_mem_nil,or_false] at checked
  rcases checked with high | rfl | rfl | rfl | rfl | rfl
  · exact fitted.plainMember found high
  all_goals rw [meaning_seen found]
  · exact fitted.enumDefinition
  · exact fitted.structDefinition
  · exact fitted.eventDefinition
  · exact fitted.modifierDefinition
  · exact fitted.functionDefinition

theorem ofChild (found : tree.rule? = some rule) {child : Tree} (inside : child ∈ tree.children)
    {holds : Fields → Prop} (each : ∀ inner, child.rule? = some inner → inner ∈ rule.parts →
      Yields (Value.IfNode holds) (child.meaning located)) : Yields (Value.IfNode holds) (child.meaning located) := by
  cases kind : child with
  | leaf token => exact .ok nofun
  | error token => exact .ok nofun
  | node inner start stop children =>
    have isInner : child.rule? = some inner := by rw [kind]; rfl
    rw [← kind]
    exact each inner isInner (fitted.suits found inside inner isInner)

theorem contractPart (found : tree.rule? = some .contractPart) :
    Yields (Value.IfNode Fields.Member) (tree.seen located).contractPart := by
  rw [Phrase.contractPart]
  split
  · exact .error
  · rename_i part others parts
    have member : part ∈ (tree.seen located).parts := by simp [parts]
    obtain ⟨child,inside,rfl⟩ := mem_map.mp member
    rw [meaning_understood]
    exact fitted.ofChild found inside fun inner isInner asked => (fitted.child inside).member isInner asked

theorem contractDefinition : Yields (Value.IfNode Fields.Item) (tree.seen located).contractDefinition := by
  rw [Phrase.contractDefinition]
  have each : ∀ part ∈ (tree.seen located).allOf .contractPart,
      Yields (fun value => value.IfNode Fields.Member ∧ value.All (Fields.Shaped 2)) part.meaning := by
    intro part member
    refine .and ?_ (fitted.part member (by decide))
    obtain ⟨child,inside,isPart,rfl⟩ := mem_seen member
    rw [meaning_understood,meaning_seen isPart]
    exact (fitted.child inside).contractPart isPart
  refine Yields.any.bind fun name _ => ?_
  refine (fitted.listed (show 3 ≤ Rule.inheritanceSpecifier.tier by decide)).bind fun bases based => ?_
  refine (Part.yields_listOf each).bind ?_
  rintro _ ⟨items,rfl,good⟩
  have shaped : ∀ item ∈ items, item.All (Fields.Shaped 2) := fun item member => (good item member).2
  refine Yields.any.bind fun kind _ => Phrase.yields_node fun place placed bare => ?_
  rintro _ ⟨⟩
  refine ⟨.of .contractDefinition (by decide) (by simp [Fields.names]) (by simp [Fields.Worded]) placed,?_,fun _ => ?_⟩
  · refine Value.all_inside bare ?_
    simp [based.imp fun _ own => own.mono (show 2 ≤ 3 by decide),Value.all_of_items shaped]
  · exact .mk based (fun item member => (good item member).1) placed

omit fitted in
theorem pragmaDirective : Yields (Value.IfNode Fields.Item) (tree.seen located).pragmaDirective := by
  rw [Phrase.pragmaDirective]
  refine Yields.any.bind fun name _ => Yields.any.bind fun value _ => Phrase.yields_node fun place placed bare => ?_
  rintro _ ⟨⟩
  refine ⟨.of .pragmaDirective (by decide) (by simp [Fields.names]) (by simp [Fields.Worded]) placed,?_,by simp⟩
  exact Value.all_inside bare (by simp)

omit fitted in
theorem importDirective : Yields (Value.IfNode Fields.Item) (tree.seen located).importDirective := by
  rw [Phrase.importDirective]
  have aliases : Yields (fun symbols => ∀ symbol ∈ symbols, symbol.2.isSimple = true)
      (((tree.seen located).allOf .importDeclaration).mapM Phrase.symbolAlias) :=
    .mapM fun part _ => Yields.any.bind fun name _ => .ok (Value.optionalText_simple _)
  refine aliases.bind fun symbols simple => ?_
  have record : (Value.record (Fields.ofList symbols)).All (Fields.Shaped 2) := by
    intro node member
    rw [Value.nodes,Value.fieldNodes_simple (Alike.simple_ofList simple)] at member
    cases member
  have ending (unit : Value) (bare : unit.isSimple = true) : Yields (Value.IfNode Fields.Item)
      (Part.textOf ((tree.seen located).first? .importPath) >>= fun path => (tree.seen located).node "ImportDirective"
        [("path",.text (Phrase.unquoted path)),("symbolAliases",.record (Fields.ofList symbols)),("unitAlias",unit)]) := by
    refine Yields.any.bind fun path _ => Phrase.yields_node fun place placed empty => ?_
    rintro _ ⟨⟩
    refine ⟨.of .importDirective (by decide) (by simp [Fields.names]) (by simp [Fields.Worded]) placed,?_,by simp⟩
    exact Value.all_inside empty (by simp [record,Value.all_simple bare])
  split
  · exact ending .null rfl
  · refine Yields.any.bind fun count _ => ?_
    split
    · exact Yields.any.bind fun unit _ => ending (.text unit) rfl
    · exact ending .null rfl

theorem plainItem (found : tree.rule? = some rule) (high : 2 ≤ rule.tier) :
    Yields (Value.IfNode Fields.Item) (tree.meaning located) := by
  intro value means node same
  have shaped := fitted.shaped (fun other root => Option.some.inj (found.symm.trans root) ▸ high) means
  rw [same] at shaped
  have own : Fields.Shaped 2 node := shaped node mem_cons_self
  have other : Value.isOf ["ContractDefinition"] node = false := own.not_isOf (by decide)
  exact ⟨own.mono (by decide),fun inner inside => shaped inner (mem_cons_of_mem _ inside),
    fun contract => absurd contract (by simp [other])⟩

omit fitted in
theorem items_checked : (Rule.sourceUnit.parts.all fun rule => decide (2 ≤ rule.tier) || [.pragmaDirective,
    .importDirective,.contractDefinition].contains rule) = true := by
  decide

theorem item (found : tree.rule? = some rule) (asked : rule ∈ Rule.sourceUnit.parts) :
    Yields (Value.IfNode Fields.Item) (tree.meaning located) := by
  have checked := all_eq_true.mp items_checked rule asked
  simp only [Bool.or_eq_true,decide_eq_true_eq,contains_eq_mem,mem_cons,not_mem_nil,or_false] at checked
  rcases checked with high | rfl | rfl | rfl
  · exact fitted.plainItem found high
  all_goals rw [meaning_seen found]
  · exact pragmaDirective
  · exact importDirective
  · exact fitted.contractDefinition

theorem sourceUnit (found : tree.rule? = some .sourceUnit) : Yields Value.Source (tree.seen located).sourceUnit := by
  rw [Phrase.sourceUnit]
  have each : ∀ part ∈ (tree.seen located).parts.dropLast, Yields (Value.IfNode Fields.Item) part.meaning := by
    intro part member
    obtain ⟨child,inside,rfl⟩ := mem_map.mp (dropLast_subset _ member)
    rw [meaning_understood]
    exact fitted.ofChild found inside fun inner isInner asked => (fitted.child inside).item isInner asked
  split
  · exact .error
  · refine (Part.yields_listOf each).bind ?_
    rintro _ ⟨items,rfl,good⟩
    exact Phrase.yields_node fun place placed _ => .mk good placed

end Tree.Fitted

end Definitions

end SolReader
