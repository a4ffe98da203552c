import SolReader.Proofs.Ast.Slots
import SolReader.Proofs.Outline.StateVars
import SolReader.Proofs.Outline.Visit

namespace SolReader

open List Bool

-- The value is the other one, or a node that has it in a field, alone or in a list, where a visit finds it.
def Value.Carries (value inner : Value) : Prop :=
  value = inner ∨ ∃ own name held, value = .node own ∧ (name,held) ∈ own ∧ Fields.childless.contains name = false ∧
    (held = inner ∨ ∃ items, held = .list items ∧ inner ∈ items)

theorem Value.Carries.meets {inner : Value} {value : Value} (carries : value.Carries inner) (typed : value.All Fields.Typed)
    {node : Fields} (met : node ∈ inner.trace.nodes) : node ∈ value.trace.nodes := by
  rcases carries with rfl | ⟨own,name,held,rfl,member,looked,holds⟩
  · exact met
  · obtain ⟨type,isType⟩ := typed own mem_cons_self
    have below : ∀ inner ∈ fieldNodes own, Fields.Typed inner := fun inner inside => typed inner (mem_cons_of_mem _ inside)
    have found : node ∈ (traceField held).nodes := by
      rcases holds with rfl | ⟨items,rfl,listed⟩
      · cases held with
        | list items => cases met
        | _ => exact met
      · exact mem_traceItems (fun inner inside => below inner (mem_fieldNodes.mpr ⟨_,member,inside⟩)) listed met
    rw [trace,isType]
    exact mem_append_right _ (mem_traceFields below member looked found)

namespace Tree

-- What the child means is carried by what comes out.
def Carrying (located : Bool) (child : Tree) (outcome : Meaning) : Prop :=
  Yields (fun value => ∃ inner, child.meaning located = .ok inner ∧ value.Carries inner) outcome

theorem Carrying.node {located : Bool} {child : Tree} {phrase : SolReader.Phrase} {type : String} {fields : Fields}
    {inner : Value} (means : child.meaning located = .ok inner) (name : String) {held : Value}
    (member : (name,held) ∈ fields) (looked : Fields.childless.contains name = false)
    (holds : held = inner ∨ ∃ items, held = .list items ∧ inner ∈ items) :
    child.Carrying located (phrase.node type fields) :=
  Phrase.yields_node fun _ _ _ => ⟨inner,means,.inr ⟨_,name,held,rfl,
    mem_append_left _ (mem_cons_of_mem _ member),looked,holds⟩⟩

section Children

variable {rule other : Rule} {tree child : Tree} {located : Bool} (proper : tree.Proper rule)
  (member : child ∈ tree.inner other)

include proper member

theorem Proper.first_eq (once : rule.most (Member.isPhrase other) = some 1) :
    (tree.seen located).first? other = some (child.understood located) := by
  obtain ⟨level,derives⟩ := proper.derives
  have few := derives.inner_le once
  obtain ⟨only,same⟩ := length_eq_one_iff.mp (Nat.le_antisymm few (length_pos_of_mem member))
  rw [same,mem_singleton] at member
  rw [Phrase.first?,show (tree.seen located).allOf other = _ from all_understood located other tree,same,member]
  rfl

omit proper in
theorem listOf_carries : Yields (fun value => ∃ items inner, value = .list items ∧ child.meaning located = .ok inner ∧
    inner ∈ items) (Part.listOf ((tree.seen located).allOf other)) := by
  rw [Part.listOf,show (tree.seen located).allOf other = _ from all_understood located other tree,meanings_understood]
  refine (Yields.paired _).bind fun items paired => ?_
  obtain ⟨inner,inside,means⟩ := exists_paired paired.flip member
  exact .ok ⟨items,inner,rfl,means,inside⟩

end Children

-- The phrases that statements are found in, and the rules of the phrases whose meanings they carry.
def carried : Rule → List Rule
  | .block => [.statement]
  | .statement => [.simpleStatement,.block,.ifStatement,.tryStatement,.whileStatement,.doWhileStatement,.forStatement,
      .uncheckedStatement]
  | .simpleStatement => [.variableDeclarationStatement]
  | .ifStatement | .whileStatement | .doWhileStatement => [.statement]
  | .forStatement => [.simpleStatement,.statement]
  | .tryStatement => [.block,.catchClause]
  | .catchClause | .uncheckedStatement => [.block]
  | _ => []

section Carriers

variable {rule other : Rule} {tree child : Tree} {located : Bool}

theorem Proper.meaningAt_carries (proper : tree.Proper rule) (once : (rule.most fun _ => true) = some 1)
    (member : child ∈ tree.inner other) : child.Carrying located (Part.meaningAt (tree.seen located) 0) := by
  obtain ⟨level,derives⟩ := proper.derives
  have inside := (mem_inner.mp member).1
  have few := derives.le_most once
  rw [countP_true] at few
  obtain ⟨only,sole⟩ := length_eq_one_iff.mp (Nat.le_antisymm few (length_pos_of_mem inside))
  rw [sole,mem_singleton] at inside
  have parts : (tree.seen located).parts = [child.understood located] := by simp [seen,sole,inside]
  rw [Part.meaningAt,Phrase.child?,Phrase.count,parts]
  exact fun value means => ⟨value,means,.inl rfl⟩

theorem Proper.whileLoop_carries (proper : tree.Proper rule) (once : rule.most (Member.isPhrase .statement) = some 1)
    (member : child ∈ tree.inner .statement) (type : String) :
    child.Carrying located ((tree.seen located).whileLoop type) := by
  rw [Phrase.whileLoop,proper.first_eq member once]
  exact Yields.any.bind fun condition _ => Yields.chain fun body means =>
    Carrying.node means "body" (by simp) (by decide) (.inl rfl)

theorem Proper.ifStatement_carries (proper : tree.Proper .ifStatement) (member : child ∈ tree.inner .statement) :
    child.Carrying located (tree.seen located).ifStatement := by
  obtain ⟨level,derives⟩ := proper.derives
  have few := derives.inner_le (show Rule.most _ (Member.isPhrase .statement) = some 2 by decide)
  rw [Phrase.ifStatement,show (tree.seen located).allOf .statement = _ from all_understood located .statement tree]
  generalize tree.inner .statement = branches at member few
  rcases branches with _ | ⟨yes,_ | ⟨no,_ | ⟨third,others⟩⟩⟩
  · cases member
  · cases mem_singleton.mp member
    exact Yields.chain fun body means => Yields.any.bind fun _ _ => Yields.any.bind fun _ _ =>
      Carrying.node means "TrueBody" (by simp) (by decide) (.inl rfl)
  · rcases mem_cons.mp member with rfl | last
    · exact Yields.chain fun body means => Yields.any.bind fun _ _ => Yields.any.bind fun _ _ =>
        Carrying.node means "TrueBody" (by simp) (by decide) (.inl rfl)
    · cases mem_singleton.mp last
      exact Yields.any.bind fun _ _ => Yields.chain fun body means => Yields.any.bind fun _ _ =>
        Carrying.node means "FalseBody" (by simp) (by decide) (.inl rfl)
  · simp at few

theorem Proper.carries (proper : tree.Proper rule) (listed : other ∈ carried rule) (member : child ∈ tree.inner other) :
    child.Carrying located (tree.meaning located) := by
  rw [meaning_seen proper.rule_eq]
  cases rule with
  | block =>
    cases mem_singleton.mp listed
    rw [Phrase.meaning,Phrase.block]
    refine (listOf_carries member).bind ?_
    rintro _ ⟨items,inner,rfl,means,inside⟩
    exact Carrying.node means "statements" (by simp) (by decide) (.inr ⟨items,rfl,inside⟩)
  | statement => exact proper.meaningAt_carries (by decide) member
  | simpleStatement => exact proper.meaningAt_carries (by decide) member
  | ifStatement =>
    cases mem_singleton.mp listed
    exact proper.ifStatement_carries member
  | whileStatement =>
    cases mem_singleton.mp listed
    exact proper.whileLoop_carries (by decide) member _
  | doWhileStatement =>
    cases mem_singleton.mp listed
    exact proper.whileLoop_carries (by decide) member _
  | forStatement =>
    rw [Phrase.meaning,Phrase.forStatement]
    rcases mem_cons.mp listed with rfl | last
    · rw [proper.first_eq member (by decide)]
      exact Yields.any.bind fun _ _ => Yields.chain fun start means => Yields.any.bind fun _ _ => Yields.any.bind fun _ _ =>
        Yields.any.bind fun _ _ => Carrying.node means "initExpression" (by simp) (by decide) (.inl rfl)
    · cases mem_singleton.mp last
      rw [proper.first_eq member (by decide)]
      exact Yields.any.bind fun _ _ => Yields.any.bind fun _ _ => Yields.any.bind fun _ _ => Yields.any.bind fun _ _ =>
        Yields.chain fun body means => Carrying.node means "body" (by simp) (by decide) (.inl rfl)
  | tryStatement =>
    rw [Phrase.meaning,Phrase.tryStatement]
    rcases mem_cons.mp listed with rfl | last
    · rw [proper.first_eq member (by decide)]
      exact Yields.any.bind fun _ _ => Yields.chain fun body means => Yields.any.bind fun _ _ => Yields.any.bind fun _ _ =>
        Carrying.node means "block" (by simp) (by decide) (.inl rfl)
    · cases mem_singleton.mp last
      refine Yields.any.bind fun _ _ => Yields.any.bind fun _ _ => Yields.any.bind fun _ _ =>
        (listOf_carries member).bind ?_
      rintro _ ⟨items,inner,rfl,means,inside⟩
      exact Carrying.node means "catchClause" (by simp) (by decide) (.inr ⟨items,rfl,inside⟩)
  | catchClause =>
    cases mem_singleton.mp listed
    rw [Phrase.meaning,Phrase.catchClause,proper.first_eq member (by decide)]
    exact Yields.any.bind fun _ _ => Yields.any.bind fun _ _ => Yields.chain fun body means =>
      Carrying.node means "block" (by simp) (by decide) (.inl rfl)
  | uncheckedStatement =>
    cases mem_singleton.mp listed
    rw [Phrase.meaning,Phrase.uncheckedStatement,proper.first_eq member (by decide)]
    exact Yields.chain fun body means => Carrying.node means "body" (by simp) (by decide) (.inl rfl)
  | _ => cases listed

end Carriers

-- The phrases in which statements that declare variables are found.
def carriers : List Rule :=
  [.block,.statement,.simpleStatement,.ifStatement,.whileStatement,.doWhileStatement,.forStatement,.tryStatement,
    .catchClause,.uncheckedStatement,.variableDeclarationStatement]

-- What is around them.
def definers : List Rule := [.sourceUnit,.contractDefinition,.contractPart,.functionDefinition,.modifierDefinition]

theorem carriers_checked : ∀ rule : Rule, ((carriers ++ definers).contains rule ||
    rule.parts.all fun inner => !(carriers ++ definers).contains inner) = true := by
  decide

theorem carried_checked : (carriers.all fun rule => rule.parts.all fun inner =>
    !(carriers ++ definers).contains inner || (carried rule).contains inner && carriers.contains inner) = true := by
  decide

theorem Fitted.undeclared {tree : Tree} (fitted : tree.Fitted)
    (root : ∀ rule, tree.rule? = some rule → rule ∉ carriers ++ definers)
    (inside : statement ∈ tree.phrases) : statement.rule? ≠ some .variableDeclarationStatement := by
  intro found
  have closed (rule : Rule) (outer : (!(carriers ++ definers).contains rule) = true) :
      ∀ inner ∈ rule.parts, (!(carriers ++ definers).contains inner) = true := by
    have checked := carriers_checked rule
    rw [not_eq_true'] at outer
    rw [outer,Bool.false_or] at checked
    exact all_eq_true.mp checked
  have among := fitted.within closed (fun rule isRule => by simpa using root rule isRule) inside found
  exact absurd among (by decide)

theorem phrases_cases {tree phrase : Tree} (inside : phrase ∈ tree.phrases) :
    phrase = tree ∨ ∃ child ∈ tree.children, phrase ∈ child.phrases := by
  cases tree with
  | node rule start stop children =>
    rcases mem_cons.mp inside with same | below
    · exact .inl same
    · exact .inr (mem_allPhrases.mp below)
  | _ => cases inside

theorem Fitted.carrier {tree child statement : Tree} {rule other : Rule} (fitted : tree.Fitted)
    (isRule : tree.rule? = some rule) (carrier : rule ∈ carriers) (member : child ∈ tree.children)
    (isOther : child.rule? = some other) (inside : statement ∈ child.phrases)
    (found : statement.rule? = some .variableDeclarationStatement) : other ∈ carried rule ∧ other ∈ carriers := by
  have asked : other ∈ rule.parts := fitted.suits isRule member other isOther
  have checked := List.all_eq_true.mp (List.all_eq_true.mp carried_checked rule carrier) other asked
  have deeper : other ∈ carriers ++ definers := by
    by_contra outer
    refine (fitted.child member).undeclared (fun own isOwn => ?_) inside found
    cases isOther.symm.trans isOwn
    exact outer
  rw [List.contains_iff_mem.mpr deeper,Bool.not_true,Bool.false_or,Bool.and_eq_true] at checked
  exact ⟨List.contains_iff_mem.mp checked.1,List.contains_iff_mem.mp checked.2⟩

-- A visit meets what is met in a statement, however deep it stands.  The induction is on the size of the phrase around it.
theorem Proper.carries_deep {rule : Rule} {tree : Tree} {located : Bool} (proper : tree.Proper rule) (fitted : tree.Fitted)
    (carrier : rule ∈ carriers) {statement : Tree} (inside : statement ∈ tree.phrases)
    (found : statement.rule? = some .variableDeclarationStatement) :
    Yields (fun value => ∃ inner, statement.meaning located = .ok inner ∧
      ∀ node ∈ inner.trace.nodes, node ∈ value.trace.nodes) (tree.meaning located) := by
  induction tree using by_size generalizing rule with
  | step tree ih =>
    rcases phrases_cases inside with rfl | ⟨child,member,below⟩
    · exact fun value means => ⟨value,means,fun _ met => met⟩
    · rcases proper.child member with ⟨token,rfl,_⟩ | ⟨other,inner⟩
      · cases below
      · obtain ⟨listed,deeper⟩ := fitted.carrier proper.rule_eq carrier member inner.rule_eq below found
        have carrying : child.Carrying located (tree.meaning located) :=
          proper.carries listed (mem_inner.mpr ⟨member,inner.rule_eq⟩)
        intro value means
        obtain ⟨held,meant,carries⟩ := carrying value means
        obtain ⟨own,isOwn,met⟩ := ih child (size_child member) inner (fitted.child member) deeper below held meant
        have typed : value.All Fields.Typed :=
          (fitted.shaped (fun _ _ => Nat.zero_le _) means).imp fun _ shaped => shaped.typed
        exact ⟨own,isOwn,fun node among => carries.meets typed (met node among)⟩

-- The names that a statement declares; a list with an empty slot declares none.
def statementNames (statement : Tree) : List Key :=
  (statement.inner .variableDeclaration).flatMap names ++ (statement.inner .identifierList).flatMap names ++
    ((statement.inner .variableDeclarationList).filter fun list => (slots list.children).all Option.isSome).flatMap
      fun list => (list.inner .variableDeclaration).flatMap names

-- The names that are declared by statements anywhere in a phrase.
def localNames (tree : Tree) : List Key :=
  (tree.phrases.filter fun phrase => phrase.rule? == some .variableDeclarationStatement).flatMap statementNames

end Tree

-- The value is a variable of that name.
def Value.Declares (name : Key) (value : Value) : Prop :=
  value.IsNode fun node => Value.isOf ["VariableDeclaration"] node = true ∧ node.nameKey = name

theorem Value.met_self {node : Fields} (sort : isOf types node = true) : node ∈ (Value.node node).trace.nodes := by
  rw [isOf] at sort
  split at sort
  · rename_i type typed
    rw [trace,typed]
    exact mem_cons_self
  · cases sort

theorem Fields.nameKey_text {node : Fields} (named : node.get? "name" = some (.text text)) :
    node.nameKey = .text text := by
  rw [nameKey,read_eq named]
  rfl

namespace Tree

variable {declaration : Tree}
variable {tree : Tree} {located : Bool} {name : Key}

theorem mem_names : name ∈ tree.names ↔ ∃ own ∈ tree.inner .identifier, name = .text own.text := by
  simp [names,eq_comm]

theorem TypedVariable.declares (typed : declaration.TypedVariable located value)
    (named : name ∈ declaration.names) : value.Declares name := by
  obtain ⟨node,rfl,sort,own,_,_,only,isName,_⟩ := typed
  obtain ⟨written,inside,rfl⟩ := mem_names.mp named
  rw [only,mem_singleton] at inside
  exact ⟨node,rfl,sort,by rw [Fields.nameKey_text isName,inside]⟩

theorem Proper.variableDeclaration_declares (proper : tree.Proper .variableDeclaration) (named : name ∈ tree.names) :
    Yields (Value.Declares name) (tree.meaning located) := by
  obtain ⟨own,inside,rfl⟩ := mem_names.mp named
  rw [meaning_seen proper.rule_eq,Phrase.meaning,Phrase.variableDeclaration,proper.first_eq inside (by decide)]
  refine Yields.any.bind fun type _ => Yields.chain fun text isText => ?_
  cases isText
  refine Phrase.yields_node fun place placed _ => ⟨_,rfl,rfl,Fields.nameKey_text ?_⟩
  rw [Fields.get?_made placed (by decide) (by decide),Part.text,tree_understood]
  rfl

theorem Proper.identifierList_declares (proper : tree.Proper .identifierList) (named : name ∈ tree.names) :
    Yields (fun value => ∃ items, value = .list items ∧ ∃ item ∈ items, item.Declares name) (tree.meaning located) := by
  refine proper.identifierList_slots.imp ?_
  rintro _ ⟨items,rfl,paired⟩
  obtain ⟨own,inside,rfl⟩ := mem_names.mp named
  obtain ⟨isChild,isName⟩ := mem_inner.mp inside
  obtain ⟨opening,between,closing,split,slotted⟩ := Known.identifierList_row proper
  have held : own ∈ between := by
    rw [split,mem_cons,mem_append,mem_singleton] at isChild
    rcases isChild with rfl | inner | rfl
    · cases isName
    · exact inner
    · cases isName
  have plain : own.isSeparator = false := by simp [isSeparator,rule?_eq.mp isName]
  have slot : some own ∈ slots tree.between := by
    rw [Tree.between,split]
    simpa using slot_of_mem slotted held plain
  obtain ⟨item,member,node,rfl,sort,isNamed⟩ := exists_paired paired.flip slot
  exact ⟨items,rfl,_,member,node,rfl,sort,Fields.nameKey_text isNamed⟩

theorem Proper.variableDeclarationList_declares (proper : tree.Proper .variableDeclarationList)
    (full : (slots tree.children).all Option.isSome = true)
    (inside : declaration ∈ tree.inner .variableDeclaration) (named : name ∈ declaration.names) :
    Yields (fun value => ∃ items, value = .list items ∧ ∃ item ∈ items, item.Declares name) (tree.meaning located) := by
  refine proper.variableDeclarationList_slots.imp fun value own => ?_
  have filled : none ∉ slots tree.children := fun gap => by simpa using all_eq_true.mp full none gap
  obtain ⟨items,rfl,paired⟩ := own.2 filled
  obtain ⟨isChild,isDeclaration⟩ := mem_inner.mp inside
  have plain : declaration.isSeparator = false := by simp [isSeparator,rule?_eq.mp isDeclaration]
  have slot := slot_of_mem (Known.variableDeclarationList_slotted proper) isChild plain
  obtain ⟨item,member,typed⟩ := exists_paired paired.flip slot
  exact ⟨items,rfl,item,member,TypedVariable.declares typed named⟩

theorem Proper.statement_declares (proper : tree.Proper .variableDeclarationStatement) (fitted : tree.Fitted)
    (named : name ∈ tree.statementNames) : Yields (fun value => ∃ node ∈ value.trace.nodes,
      Value.isOf ["VariableDeclaration"] node = true ∧ node.nameKey = name) (tree.meaning located) := by
  intro value means
  have typed : value.All Fields.Typed :=
    (fitted.shaped (fun _ _ => Nat.zero_le _) means).imp fun _ shaped => shaped.typed
  obtain ⟨own,rfl,_,single,several⟩ := proper.variableDeclarationStatement_node value means
  suffices found : ∃ items, Fields.get? own "variables" = some (.list items) ∧ ∃ item ∈ items, Value.Declares name item by
    obtain ⟨items,has,item,member,node,rfl,sort,isName⟩ := found
    have carries : (Value.node own).Carries (.node node) :=
      .inr ⟨own,"variables",_,rfl,Fields.mem_of_get? has,by decide,.inr ⟨items,rfl,member⟩⟩
    exact ⟨node,carries.meets typed (Value.met_self sort),sort,isName⟩
  rw [statementNames,mem_append,mem_append] at named
  rcases named with (one | list) | list
  · obtain ⟨declaration,inside,named⟩ := mem_flatMap.mp one
    obtain ⟨value,meant,has⟩ := single declaration inside
    exact ⟨[value],has,value,mem_singleton_self _,(proper.inner inside).variableDeclaration_declares named value meant⟩
  · obtain ⟨list,inside,named⟩ := mem_flatMap.mp list
    obtain ⟨value,meant,has⟩ := several .identifierList (by simp) list inside
    obtain ⟨items,rfl,found⟩ := (proper.inner inside).identifierList_declares named value meant
    exact ⟨items,has,found⟩
  · obtain ⟨list,inside,named⟩ := mem_flatMap.mp list
    obtain ⟨isList,full⟩ := mem_filter.mp inside
    obtain ⟨declaration,held,named⟩ := mem_flatMap.mp named
    obtain ⟨value,meant,has⟩ := several .variableDeclarationList (by simp) list isList
    obtain ⟨items,rfl,found⟩ := (proper.inner isList).variableDeclarationList_declares full held named value meant
    exact ⟨items,has,found⟩

end Tree

end SolReader
