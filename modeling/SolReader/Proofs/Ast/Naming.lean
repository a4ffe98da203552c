import SolReader.Proofs.Grammar.Rows
import SolReader.Proofs.Outline.Carried

namespace SolReader

open List

-- The type of the node that a definition gives its name to.
def Rule.definition? : Rule → Option String
  | .contractDefinition => some "ContractDefinition"
  | .structDefinition => some "StructDefinition"
  | .enumDefinition => some "EnumDefinition"
  | .enumValue => some "EnumValue"
  | .eventDefinition => some "EventDefinition"
  | .modifierDefinition => some "ModifierDefinition"
  | .functionDefinition => some "FunctionDefinition"
  | .stateVariableDeclaration => some "VariableDeclaration"
  | .customErrorDefinition => some "CustomErrorDefinition"
  | .typeDefinition => some "TypeDefinition"
  | .fileLevelConstant => some "FileLevelConstant"
  | _ => none

theorem Value.Carries.nodes {inner : Value} {value : Value} (carries : value.Carries inner) {node : Fields} (member : node ∈ inner.nodes) :
    node ∈ value.nodes := by
  rcases carries with rfl | ⟨own,name,held,rfl,listed,_,holds⟩
  · exact member
  · refine mem_cons_of_mem _ (mem_fieldNodes.mpr ⟨_,listed,?_⟩)
    rcases holds with rfl | ⟨items,rfl,inside⟩
    · exact member
    · exact mem_itemNodes.mpr ⟨inner,inside,member⟩

namespace Tree

variable {definition : Tree} {own : Rule}
variable {rule other : Rule} {tree child : Tree} {located : Bool}

-- The phrases that definitions are found in, and those of their parts that are definitions or hold some.
def defining : Rule → List Rule
  | .sourceUnit => [.contractDefinition,.enumDefinition,.structDefinition,.functionDefinition,.fileLevelConstant,
      .customErrorDefinition,.typeDefinition]
  | .contractDefinition => [.contractPart]
  | .contractPart => [.stateVariableDeclaration,.structDefinition,.modifierDefinition,.functionDefinition,
      .eventDefinition,.enumDefinition,.customErrorDefinition,.typeDefinition]
  | .enumDefinition => [.enumValue]
  | _ => []

def isDefining (rule : Rule) : Bool :=
  rule.definition?.isSome || [.sourceUnit,.contractPart].contains rule

theorem defining_checked : ∀ rule : Rule, (rule.parts.all fun inner =>
    !isDefining inner || isDefining rule && (defining rule).contains inner) = true := by
  decide

theorem Proper.defines (proper : tree.Proper rule) (listed : other ∈ defining rule) (member : child ∈ tree.inner other) :
    child.Carrying located (tree.meaning located) := by
  have own := meaning_seen proper.rule_eq located
  cases rule with
  | sourceUnit =>
    obtain ⟨level,derives⟩ := proper.derives
    obtain ⟨variant,among,spells⟩ := derives.spelled
    obtain ⟨before,last,split,_⟩ := Parse.spells_end variant (Parse.whole_ends variant among) spells
    obtain ⟨inside,isRule⟩ := mem_inner.mp member
    have early : child ∈ before := by
      rw [split,mem_append,mem_singleton] at inside
      refine inside.resolve_right ?_
      rintro rfl
      cases isRule
    rw [own,Phrase.meaning,Phrase.sourceUnit_eq located split]
    refine (Yields.paired _).bind fun items paired => ?_
    obtain ⟨inner,listed,means⟩ := exists_paired paired.flip early
    exact Carrying.node means "children" (by simp) (by decide) (.inr ⟨items,rfl,listed⟩)
  | contractDefinition =>
    cases mem_singleton.mp listed
    rw [own,Phrase.meaning,Phrase.contractDefinition]
    refine Yields.any.bind fun _ _ => Yields.any.bind fun _ _ => (listOf_carries member).bind ?_
    rintro _ ⟨items,inner,rfl,means,inside⟩
    exact Yields.any.bind fun _ _ => Carrying.node means "subNodes" (by simp) (by decide) (.inr ⟨items,rfl,inside⟩)
  | contractPart =>
    obtain ⟨only,children,same⟩ := proper.contractPart located
    have inside := (mem_inner.mp member).1
    rw [children,mem_singleton] at inside
    rw [same,← inside]
    exact fun value means => ⟨value,means,.inl rfl⟩
  | enumDefinition =>
    cases mem_singleton.mp listed
    rw [own,Phrase.meaning,Phrase.enumDefinition]
    refine Yields.any.bind fun _ _ => (listOf_carries member).bind ?_
    rintro _ ⟨items,inner,rfl,means,inside⟩
    exact Carrying.node means "members" (by simp) (by decide) (.inr ⟨items,rfl,inside⟩)
  | _ => cases listed

theorem Fitted.defining (fitted : tree.Fitted) (isRule : tree.rule? = some rule)
    (member : child ∈ tree.children) (isOther : child.rule? = some other) (inside : definition ∈ child.phrases)
    (found : definition.rule? = some own) (sort : isDefining own = true) : other ∈ Tree.defining rule := by
  have checked := fun rule => defining_checked rule
  have closed (rule : Rule) (plain : (!isDefining rule) = true) : ∀ inner ∈ rule.parts, (!isDefining inner) = true := by
    intro inner asked
    have step := all_eq_true.mp (checked rule) inner asked
    rw [Bool.not_eq_true'] at plain
    rwa [plain,Bool.false_and,Bool.or_false] at step
  have around : isDefining other = true := by
    by_contra plain
    have apart := (fitted.child member).within closed (fun rule isRule => by
      cases isOther.symm.trans isRule
      simpa using plain) inside found
    rw [sort] at apart
    cases apart
  have step := all_eq_true.mp (checked rule) other (fitted.suits isRule member other isOther)
  rw [around,Bool.not_true,Bool.false_or,Bool.and_eq_true] at step
  exact contains_iff_mem.mp step.2

-- What a definition means comes into what the phrase around it means.  The induction is on the size of that phrase.
theorem Proper.defines_deep (proper : tree.Proper rule) (fitted : tree.Fitted)
    (inside : definition ∈ tree.phrases) (found : definition.rule? = some own) (sort : isDefining own = true) :
    Yields (fun value => ∃ inner, definition.meaning located = .ok inner ∧ ∀ node ∈ inner.nodes, node ∈ value.nodes)
      (tree.meaning located) := by
  induction tree using by_size generalizing rule with
  | step tree ih =>
    rcases phrases_cases inside with rfl | ⟨child,member,below⟩
    · exact fun value means => ⟨value,means,fun _ inner => inner⟩
    · rcases proper.child member with ⟨token,rfl,_⟩ | ⟨other,inner⟩
      · cases below
      · have listed := fitted.defining proper.rule_eq member inner.rule_eq below found sort
        intro value means
        obtain ⟨held,meant,carries⟩ := proper.defines listed (mem_inner.mpr ⟨member,inner.rule_eq⟩) value means
        obtain ⟨deep,isDeep,nodes⟩ := ih child (size_child member) inner (fitted.child member) below held meant
        exact ⟨deep,isDeep,fun node among => carries.nodes (nodes node among)⟩

-- The name that a function goes by: its own, or else the word it begins with, unless that is `function`.
def functionName (phrase descriptor : Tree) : String :=
  match descriptor.inner .identifier with
  | name :: _ => name.text
  | [] => if descriptor.hasToken .kwFunction then phrase.text else descriptor.text

-- What stands under `name` in the node of a definition.
def Named (located : Bool) (phrase : Tree) (own : Rule) (name : Option Value) : Prop :=
  match own with
  | .typeDefinition => name = none
  | .customErrorDefinition | .fileLevelConstant => ∃ (identifier : Tree) (node : Fields),
      phrase.inner .identifier = [identifier] ∧ identifier.meaning located = .ok (.node node) ∧
      node.get? "name" = some (.text identifier.text) ∧ name = some (.node node)
  | .functionDefinition => ∃ descriptor, phrase.inner .functionDescriptor = [descriptor] ∧
      name = some (.text (phrase.functionName descriptor))
  | _ => ∃ identifier, phrase.inner .identifier = [identifier] ∧ name = some (.text identifier.text)

-- The node that a definition gives its name to is its own, or that of the one variable which it declares.
def Names (value : Value) (node : Fields) : Prop :=
  value = .node node ∨ ∃ outer : Fields, value = .node outer ∧ outer.get? "variables" = some (.list [.node node])

theorem Names.mem {node : Fields} (names : Names value node) : node ∈ value.nodes := by
  rcases names with rfl | ⟨outer,rfl,held⟩
  · exact mem_cons_self
  · refine mem_cons_of_mem _ (Value.mem_fieldNodes.mpr ⟨_,Fields.mem_of_get? held,?_⟩)
    exact Value.mem_itemNodes.mpr ⟨_,mem_singleton_self _,mem_cons_self⟩

section Single

variable (proper : tree.Proper rule) (always : 0 < rule.least (Member.isPhrase other))
  (once : rule.most (Member.isPhrase other) = some 1)

include proper always once

theorem Proper.only_first (located : Bool) : ∃ child, tree.inner other = [child] ∧
    (tree.seen located).first? other = some (child.understood located) := by
  obtain ⟨child,only,_⟩ := proper.only_child always once located
  exact ⟨child,only,proper.first_eq (only ▸ mem_singleton_self child) once⟩

end Single

theorem Proper.identifier_node (proper : tree.Proper .identifier) :
    Yields (Value.IsNode fun node => node.get? "name" = some (.text tree.text)) (tree.meaning located) := by
  rw [meaning_seen proper.rule_eq,Phrase.meaning,Phrase.identifier]
  exact Phrase.yields_node fun place placed _ => ⟨_,rfl,Fields.get?_made placed (by decide) (by decide)⟩

theorem kind?_understood (tree : Tree) : (tree.understood located).kind? = match tree.member with
    | .token kind => some kind
    | .phrase _ => none := by
  rw [Part.kind?,tree_understood]
  cases tree <;> rfl

theorem Proper.functionName_eq (proper : tree.Proper .functionDefinition) : ∃ descriptor,
    tree.inner .functionDescriptor = [descriptor] ∧
    ∃ marks, (tree.seen located).functionName = .ok (tree.functionName descriptor,marks) := by
  obtain ⟨descriptor,only,first⟩ := proper.only_first
    (show 0 < Rule.least _ (Member.isPhrase .functionDescriptor) by decide) (by decide) located
  refine ⟨descriptor,only,?_⟩
  have own : descriptor.Proper .functionDescriptor := proper.inner (only ▸ mem_singleton_self descriptor)
  obtain ⟨level,derives⟩ := own.derives
  have row := derives.mem_rows (show Rule.rows _ = some [[.token .kwFunction],[.token .kwFunction,.phrase .identifier],
    [.token .kwConstructor],[.token .kwFallback],[.token .kwReceive]] by decide)
  simp only [mem_cons,not_mem_nil,or_false,map_eq_cons_iff,map_eq_nil_iff] at row
  -- A keyword that stands alone is all of the descriptor.
  have text {word : Tree} (children : descriptor.children = [word]) : word.text = descriptor.text := by
    rw [← String.toList_inj,toList_text own.rule_eq,children,flatMap_singleton]
  rw [Phrase.functionName,first]
  simp only [parts_understood,all_understood,functionName,inner_eq,hasToken]
  rcases row with ⟨word,_,children,isWord,rfl⟩ | ⟨word,_,children,isWord,name,_,rfl,isName,rfl⟩ |
    ⟨word,_,children,isWord,rfl⟩ | ⟨word,_,children,isWord,rfl⟩ | ⟨word,_,children,isWord,rfl⟩
  · exact ⟨_,by simp [children,kind?_understood,isWord,Phrase.text,seen]; rfl⟩
  · exact ⟨_,by simp [children,kind?_understood,isWord,isName,Part.text]; rfl⟩
  · exact ⟨_,by simp [children,kind?_understood,isWord,Part.text,text children]; rfl⟩
  · exact ⟨_,by simp [children,kind?_understood,isWord,Part.text,text children]; rfl⟩
  · exact ⟨_,by simp [children,kind?_understood,isWord,Part.text,text children]; rfl⟩

theorem Proper.named_text (proper : tree.Proper rule) (always : 0 < rule.least (Member.isPhrase .identifier))
    (once : rule.most (Member.isPhrase .identifier) = some 1) : ∃ identifier, tree.inner .identifier = [identifier] ∧
      Part.textOf ((tree.seen located).first? .identifier) = .ok identifier.text := by
  obtain ⟨identifier,only,first⟩ := proper.only_first always once located
  exact ⟨identifier,only,by rw [first,Part.textOf,Part.text,tree_understood]⟩

theorem Proper.named_node (proper : tree.Proper rule) (always : 0 < rule.least (Member.isPhrase .identifier))
    (once : rule.most (Member.isPhrase .identifier) = some 1) :
    Yields (fun value => ∃ (identifier : Tree) (node : Fields), tree.inner .identifier = [identifier] ∧
      identifier.meaning located = .ok (.node node) ∧ node.get? "name" = some (.text identifier.text) ∧ value = .node node)
      (Part.meaningOf ((tree.seen located).first? .identifier)) := by
  obtain ⟨identifier,only,first⟩ := proper.only_first always once located
  rw [first]
  intro value means
  have own : identifier.Proper .identifier := proper.inner (only ▸ mem_singleton_self identifier)
  rw [Part.meaningOf,meaning_understood] at means
  obtain ⟨node,rfl,named⟩ := own.identifier_node value means
  exact ⟨identifier,node,only,means,named,rfl⟩

theorem Proper.named (proper : tree.Proper own) (sort : own.definition? = some type) :
    Yields (fun value => ∃ node, Names value node ∧ Value.isOf [type] node = true ∧
      tree.Named located own (node.get? "name")) (tree.meaning located) := by
  rw [meaning_seen proper.rule_eq]
  have text := @Proper.named_text own tree located proper
  have node := @Proper.named_node own tree located proper
  have ok {α : Type} {entry : α} {next : α → Meaning} {holds : Value → Prop} (rest : Yields holds (next entry)) :
      Yields holds (Except.ok entry >>= next) := rest
  have made {type : String} {fields : Fields} (named : tree.Named located own (fields.get? "name")) :
      Yields (fun value => ∃ node, Names value node ∧ Value.isOf [type] node = true ∧
        tree.Named located own (node.get? "name")) ((tree.seen located).node type fields) := by
    refine Phrase.yields_node fun place placed _ => ⟨_,.inl rfl,?_,?_⟩
    · have typed : Fields.typeName (("type",.text type) :: fields ++ place) = .ok type := rfl
      rw [Value.isOf_eq typed]
      simp
    · rwa [Fields.get?_made placed (by decide) (by decide)]
  cases own with
  | contractDefinition =>
    cases sort
    obtain ⟨identifier,only,text⟩ := text (by decide) (by decide)
    rw [Phrase.meaning,Phrase.contractDefinition,text]
    exact ok <| Yields.any.bind fun _ _ => Yields.any.bind fun _ _ => Yields.any.bind fun _ _ => made ⟨identifier,only,rfl⟩
  | structDefinition =>
    cases sort
    obtain ⟨identifier,only,text⟩ := text (by decide) (by decide)
    rw [Phrase.meaning,Phrase.structDefinition,text]
    exact ok <| Yields.any.bind fun _ _ => made ⟨identifier,only,rfl⟩
  | enumDefinition =>
    cases sort
    obtain ⟨identifier,only,text⟩ := text (by decide) (by decide)
    rw [Phrase.meaning,Phrase.enumDefinition,text]
    exact ok <| Yields.any.bind fun _ _ => made ⟨identifier,only,rfl⟩
  | enumValue =>
    cases sort
    obtain ⟨identifier,only,text⟩ := text (by decide) (by decide)
    rw [Phrase.meaning,Phrase.named,text]
    exact ok <| made ⟨identifier,only,rfl⟩
  | eventDefinition =>
    cases sort
    obtain ⟨identifier,only,text⟩ := text (by decide) (by decide)
    rw [Phrase.meaning,Phrase.eventDefinition,text]
    exact ok <| Yields.any.bind fun _ _ => made ⟨identifier,only,rfl⟩
  | modifierDefinition =>
    cases sort
    obtain ⟨identifier,only,text⟩ := text (by decide) (by decide)
    rw [Phrase.meaning,Phrase.modifierDefinition,text]
    exact Yields.any.bind fun _ _ => ok <| Yields.any.bind fun _ _ => made ⟨identifier,only,rfl⟩
  | functionDefinition =>
    cases sort
    obtain ⟨descriptor,only,marks,named⟩ := @Proper.functionName_eq tree located proper
    rw [Phrase.meaning,Phrase.functionDefinition,named]
    exact ok <| Yields.any.bind fun _ _ => Yields.any.bind fun _ _ => Yields.any.bind fun _ _ => Yields.any.bind fun _ _ =>
      Yields.any.bind fun _ _ => made ⟨descriptor,only,rfl⟩
  | stateVariableDeclaration =>
    cases sort
    obtain ⟨identifier,only,text⟩ := text (by decide) (by decide)
    rw [Phrase.meaning,Phrase.stateVariableDeclaration,text]
    refine Yields.any.bind fun _ _ => ok <| Yields.any.bind fun _ _ => Yields.bind (Phrase.yields_node fun place placed _ =>
      ⟨_,rfl,rfl,Fields.get?_made placed (by decide) (by decide)⟩ : Yields (Value.IsNode fun node =>
        Value.isOf ["VariableDeclaration"] node = true ∧ node.get? "name" = some (.text identifier.text)) _) ?_
    rintro _ ⟨declared,rfl,sort,named⟩
    exact Phrase.yields_node fun place placed _ => ⟨declared,.inr ⟨_,rfl,Fields.get?_made placed (by decide) (by decide)⟩,
      sort,identifier,only,named⟩
  | customErrorDefinition =>
    cases sort
    rw [Phrase.meaning,Phrase.customErrorDefinition]
    refine (node (by decide) (by decide)).bind ?_
    rintro _ ⟨identifier,inner,only,means,named,rfl⟩
    exact Yields.any.bind fun _ _ => made ⟨identifier,inner,only,means,named,rfl⟩
  | fileLevelConstant =>
    cases sort
    rw [Phrase.meaning,Phrase.fileLevelConstant]
    refine (node (by decide) (by decide)).bind ?_
    rintro _ ⟨identifier,inner,only,means,named,rfl⟩
    exact Yields.any.bind fun _ _ => Yields.any.bind fun _ _ => made ⟨identifier,inner,only,means,named,rfl⟩
  | typeDefinition =>
    cases sort
    rw [Phrase.meaning,Phrase.typeDefinition]
    exact Yields.any.bind fun _ _ => Yields.any.bind fun _ _ => made rfl
  | _ => cases sort

end Tree

-- In what a text read without complaint means there is a node for every definition.  Under `name` it has the identifier that
-- is declared, except that errors and constants have a node there, types have nothing, and functions without a name have all
-- of their text.
theorem parse_names {text start : String} {located : Bool} {rule : Rule} (known : Rule.ofName? start = some rule) {value : Value}
    (read : parse text start located = (.ok value,[])) {phrase : Tree}
    (inside : phrase ∈ (Reading.ofText rule text).tree.phrases) {own : Rule} (found : phrase.rule? = some own) {type : String}
    (sort : own.definition? = some type) :
    ∃ (meant : Value) (node : Fields), phrase.meaning located = .ok meant ∧ Tree.Names meant node ∧ node ∈ value.nodes ∧
      Value.isOf [type] node = true ∧ phrase.Named located own (node.get? "name") := by
  rw [parse_known known] at read
  obtain ⟨means,clean⟩ := Prod.mk.inj read
  have whole := Reading.ofText_proper clean
  have defining : Tree.isDefining own = true := by rw [Tree.isDefining,sort,Option.isSome_some,Bool.true_or]
  obtain ⟨meant,isMeant,nodes⟩ :=
    whole.defines_deep (Reading.ofText_fitted rule text).1 inside found defining value means
  obtain ⟨_,proper⟩ := whole.phrases inside
  cases proper.same found
  obtain ⟨node,names,isType,named⟩ := proper.named sort meant isMeant
  exact ⟨meant,node,isMeant,names,nodes node names.mem,isType,named⟩

-- An error without parameters.
def plainError : String := "error E();"

set_option maxRecDepth 100000 in
theorem plainError_read : ((Reading.ofText .customErrorDefinition plainError).diagnostics.isEmpty &&
    ((Reading.ofText .customErrorDefinition plainError).tree.inner .identifier).map Tree.text == ["E"]) = true := by
  decide +kernel

theorem plainError_named : ∃ value, parse plainError "customErrorDefinition" false = (.ok value,[]) ∧
    ∃ node ∈ value.nodes, Value.isOf ["CustomErrorDefinition"] node = true ∧ ∃ inner : Fields,
      node.get? "name" = some (.node inner) ∧ inner.get? "name" = some (.text "E") := by
  have known : Rule.ofName? "customErrorDefinition" = some .customErrorDefinition := by decide
  have checked := plainError_read
  rw [Bool.and_eq_true,List.isEmpty_iff,beq_iff_eq] at checked
  obtain ⟨clean,texts⟩ := checked
  have proper := Reading.ofText_proper clean
  have found := proper.rule_eq
  obtain ⟨value,means⟩ := Reading.phrase_means clean (Tree.self_mem found) found nofun nofun (proper.clear rfl) false
  have read : parse plainError "customErrorDefinition" false = (.ok value,[]) := by rw [parse_known known,means,clean]
  obtain ⟨_,node,_,_,member,sort,identifier,inner,only,_,text,named⟩ :=
    parse_names known read (Tree.self_mem found) found rfl
  have same : identifier.text = "E" := by simpa [only] using texts
  exact ⟨value,read,node,member,sort,inner,named,same ▸ text⟩

end SolReader
