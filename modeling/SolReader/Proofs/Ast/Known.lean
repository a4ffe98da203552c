import SolReader.Tree.Members
import SolReader.Proofs.Token.Spelling
import SolReader.Proofs.Grammar.Count
import SolReader.Proofs.Ast.Asking

namespace SolReader

open List Bool

namespace Tree

variable {rule : Rule} {tree : Tree} {start : Token} {stop : Option Token} {children : List Tree}

-- Dotted names in assembly cannot be read, nor functions without parameters or without results.
def unreadable : Tree → Bool
  | .node .assemblyMember _ _ _ => true
  | .node .assemblyFunctionDefinition _ _ children =>
    !(children.any (isMember (.phrase .assemblyIdentifierList)) &&
      children.any (isMember (.phrase .assemblyFunctionReturns)))
  | _ => false

def clear (tree : Tree) : Bool :=
  tree.phrases.all (!·.unreadable)

@[simp] theorem text_leaf (token : Token) : (leaf token).text = token.text := by
  simp [text,tokens,String.join]

theorem toList_text (found : tree.rule? = some rule) :
    tree.text.toList = tree.children.flatMap fun child => child.text.toList := by
  cases tree with
  | leaf _ => cases found
  | error _ => cases found
  | node _ _ _ children =>
    change (String.join ((allTokens children).map Token.text)).toList = children.flatMap fun child => child.text.toList
    clear found
    induction children with
    | nil => rfl
    | cons child children ih =>
      rw [allTokens,map_append,String.join_append,String.toList_append,ih,flatMap_cons]
      rfl

theorem mem_allPhrases {phrase : Tree} : phrase ∈ allPhrases trees ↔ ∃ tree ∈ trees, phrase ∈ tree.phrases := by
  induction trees with
  | nil => simp [allPhrases]
  | cons tree trees ih => simp [allPhrases,ih]

theorem all_phrases_node {holds : Tree → Bool} : (node rule start stop children).phrases.all holds = true ↔
      holds (node rule start stop children) = true ∧ ∀ child ∈ children, child.phrases.all holds = true := by
  simp only [phrases,all_cons,and_eq_true,all_eq_true,mem_allPhrases]
  constructor
  · intro ⟨own,inner⟩
    exact ⟨own,fun child member phrase inside => inner phrase ⟨child,member,inside⟩⟩
  · intro ⟨own,inner⟩
    refine ⟨own,?_⟩
    intro phrase ⟨child,member,inside⟩
    exact inner child member phrase inside

theorem clear_node : (node rule start stop children).clear = true ↔
      (node rule start stop children).unreadable = false ∧ ∀ child ∈ children, child.clear = true := by
  rw [clear,all_phrases_node,not_eq_true']
  exact Iff.rfl

@[simp] theorem clear_leaf (token : Token) : (leaf token).clear = true := rfl

theorem size_child (member : child ∈ tree.children) : sizeOf child < sizeOf tree := by
  cases tree with
  | node rule start stop children =>
    have below := sizeOf_lt_of_mem (show child ∈ children from member)
    simp only [node.sizeOf_spec]
    omega
  | leaf token => cases member
  | error token => cases member

theorem by_size {holds : Tree → Prop}
    (step : ∀ tree, (∀ small : Tree, sizeOf small < sizeOf tree → holds small) → holds tree) (tree : Tree) : holds tree :=
  (measure sizeOf).wf.induction tree step

theorem allUnderstood_eq (located : Bool) (trees : List Tree) :
    allUnderstood located trees = trees.map (understood located) := by
  induction trees with
  | nil => rfl
  | cons tree trees ih => rw [allUnderstood,ih,map_cons]

-- The phrase that a tree is, with the meanings of its parts.
def phrase (tree : Tree) : SolReader.Phrase :=
  ⟨tree,tree.children.map (understood false),false⟩

theorem understood_node (rule : Rule) (start : Token) (stop : Option Token) (children : List Tree) :
    (node rule start stop children).meaning false = (node rule start stop children).phrase.meaning rule := by
  rw [meaning,understood,allUnderstood_eq]
  rfl

@[simp] theorem tree_understood (located : Bool) (tree : Tree) : (tree.understood located).tree = tree := by
  cases tree <;> rfl

@[simp] theorem parts_understood (located : Bool) (tree : Tree) :
    (tree.understood located).parts = tree.children.map (understood located) := by
  cases tree with
  | node rule start stop children => exact allUnderstood_eq located children
  | leaf token => rfl
  | error token => rfl

@[simp] theorem meaning_understood (located : Bool) (tree : Tree) :
    (tree.understood located).meaning = tree.meaning located := rfl

theorem all_understood (located : Bool) (rule : Rule) (tree : Tree) :
    Phrase.all rule (tree.children.map (understood located)) = (tree.inner rule).map (understood located) := by
  simp only [Phrase.all,inner,filter_map]
  congr 1
  apply filter_congr
  intro child _
  simp [Part.rule?]

theorem allOf_eq (tree : Tree) (rule : Rule) : tree.phrase.allOf rule = (tree.inner rule).map (understood false) :=
  all_understood false rule tree

theorem first?_eq (tree : Tree) (rule : Rule) :
    tree.phrase.first? rule = (tree.inner rule).head?.map (understood false) := by
  rw [Phrase.first?,allOf_eq,List.head?_map]

theorem node_hinges (tree : Tree) (type : String) (fields : Fields) : Hinges True (tree.phrase.node type fields) :=
  trivial

end Tree

-- The rules whose phrases may hold one that cannot be read.
def Rule.assembles : Rule → Bool
  | .sourceUnit | .contractDefinition | .contractPart | .modifierDefinition | .functionDefinition | .block | .statement
  | .ifStatement | .tryStatement | .catchClause | .whileStatement | .uncheckedStatement | .forStatement
  | .inlineAssemblyStatement | .doWhileStatement | .assemblyBlock | .assemblyItem | .assemblyExpression
  | .assemblyMember | .assemblyCall | .assemblyLocalDefinition | .assemblyAssignment | .assemblyIdentifierOrList
  | .assemblySwitch | .assemblyCase | .assemblyFunctionDefinition | .assemblyFor | .assemblyIf | .subAssembly => true
  | _ => false

-- The rules whose phrases can always be read: a parameter of an event may lack the name it is asked for.
def Rule.quiet (rule : Rule) : Bool :=
  !rule.assembles && rule != .eventParameter

namespace Member

-- The parts that may hold a phrase that cannot be read, apart from those of the given rules.
def assembles (read : List Rule) : Member → Bool
  | .phrase rule => rule.assembles && !read.contains rule
  | .token _ => false

-- The parts that are not always read.
def risky : Member → Bool
  | .phrase rule => !rule.quiet
  | .token _ => false

end Member

theorem Rule.quiet_checked :
    ∀ rule : Rule, (rule.assembles || rule.most (Member.assembles []) == some 0) = true := by
  decide

namespace Tree

-- A derivation from genuine tokens.
structure Proper (rule : Rule) (tree : Tree) : Prop where
  derives : ∃ level, Derives rule level tree
  genuine : ∀ token ∈ tree.tokens, token.Genuine

namespace Proper

variable {rule other : Rule} {tree child : Tree}

theorem rule_eq (proper : tree.Proper rule) : tree.rule? = some rule := by
  obtain ⟨⟨_,derives⟩,_⟩ := proper
  cases derives
  rfl

theorem same (proper : tree.Proper rule) (found : tree.rule? = some other) : rule = other :=
  Option.some.inj (proper.rule_eq.symm.trans found)

theorem unread (proper : tree.Proper rule) : tree.unreadable = true → rule.assembles = true := by
  obtain ⟨⟨_,derives⟩,_⟩ := proper
  cases derives with
  | node =>
    intro unreadable
    cases rule <;> first | rfl | cases unreadable

end Proper

theorem mem_allTokens : token ∈ allTokens trees ↔ ∃ tree ∈ trees, token ∈ tree.tokens := by
  induction trees with
  | nil => simp [allTokens]
  | cons tree trees ih => simp [allTokens,ih]

theorem mem_tokens_of_child {tree : Tree} (member : child ∈ tree.children)
    (inside : token ∈ child.tokens) : token ∈ tree.tokens := by
  cases tree with
  | node rule start stop children => exact mem_allTokens.mpr ⟨child,member,inside⟩
  | leaf _ => cases member
  | error _ => cases member

theorem Proper.child {rule : Rule} {tree child : Tree} (proper : tree.Proper rule) (member : child ∈ tree.children) :
    (∃ token, child = .leaf token ∧ token.Genuine) ∨ ∃ other, child.Proper other := by
  obtain ⟨⟨level,derives⟩,genuine⟩ := proper
  have inside : ∀ token ∈ child.tokens, token.Genuine := fun token below => genuine token (mem_tokens_of_child member below)
  cases derives with
  | node listed spells =>
    rcases spells.child member with ⟨token,rfl⟩ | ⟨other,bound,derived⟩
    · exact .inl ⟨token,rfl,inside token (mem_singleton.mpr rfl)⟩
    · exact .inr ⟨other,⟨bound,derived⟩,inside⟩

theorem Proper.leaf_text {tree : Tree} (proper : tree.Proper rule)
    (member : .leaf token ∈ tree.children) {text : String} (only : token.kind.spelling? = some text) :
    token.text = text := by
  have genuine := proper.genuine token (mem_tokens_of_child member (mem_singleton.mpr rfl))
  refine (genuine.spelled ?_).text_eq only
  intro ended
  rw [ended] at only
  cases only

theorem Proper.inner {rule other : Rule} {tree child : Tree} (proper : tree.Proper rule)
    (member : child ∈ tree.inner other) : child.Proper other := by
  obtain ⟨member,found⟩ := mem_inner.mp member
  rcases proper.child member with ⟨token,rfl,_⟩ | ⟨own,inside⟩
  · cases found
  · exact inside.same found ▸ inside

theorem Proper.phrases {tree phrase : Tree} (proper : tree.Proper rule)
    (member : phrase ∈ tree.phrases) : ∃ other, phrase.Proper other := by
  induction tree using by_size generalizing rule with
  | step tree ih =>
    obtain ⟨level,derives⟩ := proper.derives
    cases derives with
    | node listed spells =>
      rcases mem_cons.mp member with rfl | below
      · exact ⟨rule,proper⟩
      · obtain ⟨child,inside,below⟩ := mem_allPhrases.mp below
        rcases proper.child inside with ⟨token,rfl,_⟩ | ⟨other,inner⟩
        · cases below
        · exact ih child (size_child inside) inner below

theorem Proper.clear {tree : Tree} (proper : tree.Proper rule) (quiet : rule.assembles = false) : tree.clear = true := by
  induction tree using by_size generalizing rule with
  | step tree ih =>
    obtain ⟨level,derives⟩ := proper.derives
    have silent : ∀ child ∈ tree.children, Member.assembles [] child.member = false := by
      intro child member
      apply derives.not_counted _ member
      have checked := Rule.quiet_checked rule
      simpa [quiet] using checked
    have inner : ∀ child ∈ tree.children, child.clear = true := by
      intro child member
      rcases proper.child member with ⟨token,rfl,_⟩ | ⟨other,inside⟩
      · rfl
      · apply ih child (size_child member) inside
        simpa [rule?_eq.mp inside.rule_eq,Member.assembles] using silent child member
    have readable : tree.unreadable = false := by
      refine eq_false_iff.mpr ?_
      intro unreadable
      rw [proper.unread unreadable] at quiet
      cases quiet
    cases derives with
    | node => exact clear_node.mpr ⟨readable,inner⟩

-- The tree has a meaning exactly if it is clear; this is known of everything smaller.
structure Known (rule : Rule) (tree : Tree) : Prop where
  proper : tree.Proper rule
  below : ∀ small : Tree, sizeOf small < sizeOf tree → ∀ other, small.Proper other → other ≠ .eventParameter →
    Hinges (small.clear = true) (small.meaning false)

def clearIn (rule : Rule) (tree : Tree) : Prop :=
  ∀ child ∈ tree.inner rule, child.clear = true

def clearInside (tree : Tree) : Prop :=
  ∀ child ∈ tree.children, child.clear = true

theorem Proper.clear_iff {tree : Tree} (proper : tree.Proper rule) :
    tree.clear = true ↔ tree.unreadable = false ∧ tree.clearInside := by
  obtain ⟨level,derives⟩ := proper.derives
  cases derives
  exact clear_node

namespace Known

variable {rule : Rule} {tree : Tree}

theorem inner (known : tree.Known rule) {other : Rule} {child : Tree} (member : child ∈ tree.inner other) :
    child.Known other where
  proper := known.proper.inner member
  below := by
    intro small smaller
    exact known.below small (Nat.lt_trans smaller (size_child (mem_inner.mp member).1))

theorem child_hinges (known : tree.Known rule) (member : child ∈ tree.children)
    (named : child.rule? ≠ some .eventParameter) : Hinges (child.clear = true) (child.meaning false) := by
  rcases known.proper.child member with ⟨token,rfl,_⟩ | ⟨other,inside⟩
  · exact .sure rfl _
  · apply known.below child (size_child member) other inside
    intro same
    exact named (same ▸ inside.rule_eq)

section Parts

variable {other : Rule}

theorem first (known : tree.Known rule) (always : 0 < rule.least (Member.isPhrase other)) :
    ∃ child ∈ tree.inner other, tree.phrase.first? other = some (child.understood false) := by
  obtain ⟨level,derives⟩ := known.proper.derives
  rw [first?_eq]
  cases present : tree.inner other with
  | nil => exact absurd present (derives.inner_ne_nil always)
  | cons child rest => exact ⟨child,mem_cons_self,rfl⟩

theorem exactly (known : tree.Known rule) (always : 0 < rule.least (Member.isPhrase other))
    (once : rule.most (Member.isPhrase other) = some 1) : ∃ child, tree.inner other = [child] := by
  obtain ⟨level,derives⟩ := known.proper.derives
  have filled := length_pos_iff.mpr (derives.inner_ne_nil always)
  have few := derives.inner_le once
  exact length_eq_one_iff.mp (by omega)

theorem text_hinges (known : tree.Known rule) (always : 0 < rule.least (Member.isPhrase other)) :
    Hinges True (Part.textOf (tree.phrase.first? other)) := by
  obtain ⟨child,_,found⟩ := known.first always
  exact Part.textOf_hinges (by simp [found])

theorem parts_ne_nil (known : tree.Known rule) (always : 0 < rule.least fun _ => true) : tree.phrase.parts ≠ [] := by
  obtain ⟨level,derives⟩ := known.proper.derives
  obtain ⟨child,member,_⟩ := derives.child_of_least always
  exact ne_nil_of_mem (mem_map_of_mem member)

theorem clearIn_quiet (known : tree.Known rule) (quiet : other.quiet = true) : tree.clearIn other := by
  intro child member
  apply (known.inner member).proper.clear
  simp only [Rule.quiet,and_eq_true,not_eq_true'] at quiet
  exact quiet.1

theorem inner_hinges (known : tree.Known rule) (named : other ≠ .eventParameter)
    (member : child ∈ tree.inner other) : Hinges (child.clear = true) (child.meaning false) := by
  obtain ⟨member,found⟩ := mem_inner.mp member
  apply known.child_hinges member
  intro same
  exact named (Option.some.inj (found.symm.trans same))

theorem listed (known : tree.Known rule) (named : other ≠ .eventParameter) :
    Hinges (tree.clearIn other) (Part.listOf (tree.phrase.allOf other)) := by
  have each : ∀ part ∈ (tree.inner other).map (understood false), Hinges (part.tree.clear = true) part.meaning := by
    intro part member
    obtain ⟨child,inside,rfl⟩ := mem_map.mp member
    simpa using known.inner_hinges named inside
  rw [allOf_eq]
  apply (Part.listOf_hinges each).congr
  simp [clearIn]

theorem optional (known : tree.Known rule) (named : other ≠ .eventParameter) :
    Hinges (∀ child ∈ (tree.inner other).head?, child.clear = true) (Part.meaningOf (tree.phrase.first? other)) := by
  rw [first?_eq]
  cases present : (tree.inner other).head? with
  | none => simp [Part.meaningOf,Hinges]
  | some child => simpa [Part.meaningOf] using known.inner_hinges named (mem_of_mem_head? present)

theorem single (known : tree.Known rule) (named : other ≠ .eventParameter)
    (once : rule.most (Member.isPhrase other) = some 1) :
    Hinges (tree.clearIn other) (Part.meaningOf (tree.phrase.first? other)) := by
  obtain ⟨level,derives⟩ := known.proper.derives
  have few := derives.inner_le once
  apply (known.optional named).congr
  unfold clearIn
  cases present : tree.inner other with
  | nil => simp
  | cons child rest =>
    rw [present] at few
    cases rest with
    | nil => simp
    | cons second rest => simp at few

theorem named_of_quiet (quiet : other.quiet = true) : other ≠ .eventParameter := by
  intro same
  subst same
  cases quiet

theorem listed_quiet (known : tree.Known rule) (quiet : other.quiet = true) :
    Hinges True (Part.listOf (tree.phrase.allOf other)) :=
  (known.listed (named_of_quiet quiet)).congr (iff_true_intro (known.clearIn_quiet quiet))

theorem optional_quiet (known : tree.Known rule) (quiet : other.quiet = true) :
    Hinges True (Part.meaningOf (tree.phrase.first? other)) := by
  apply (known.optional (named_of_quiet quiet)).congr
  refine iff_true_intro ?_
  intro child member
  exact known.clearIn_quiet quiet child (mem_of_mem_head? member)

end Parts

theorem covers (known : tree.Known rule) (read : List Rule) (others : rule.most (Member.assembles read) = some 0) :
    (∀ other ∈ read, tree.clearIn other) ↔ tree.clearInside := by
  obtain ⟨level,derives⟩ := known.proper.derives
  constructor
  · intro clear child member
    rcases known.proper.child member with ⟨token,rfl,_⟩ | ⟨other,inside⟩
    · rfl
    have silent := derives.not_counted others member
    rw [rule?_eq.mp inside.rule_eq] at silent
    by_cases assembles : other.assembles = true
    · have listed : other ∈ read := by simpa [Member.assembles,assembles] using silent
      exact clear other listed child (mem_inner.mpr ⟨member,inside.rule_eq⟩)
    · exact inside.clear (eq_false_iff.mpr assembles)
  · intro clear other _ child member
    exact clear child (mem_inner.mp member).1

theorem calm (known : tree.Known rule) (safe : rule.most Member.risky = some 0) :
    ∀ part ∈ tree.phrase.parts, Hinges True part.meaning := by
  intro part member
  obtain ⟨level,derives⟩ := known.proper.derives
  obtain ⟨child,inside,rfl⟩ := mem_map.mp member
  rcases known.proper.child inside with ⟨token,rfl,_⟩ | ⟨other,proper⟩
  · exact .sure trivial _
  have quiet : other.quiet = true := by
    simpa [rule?_eq.mp proper.rule_eq,Member.risky] using derives.not_counted safe inside
  have listed : child ∈ tree.inner other := mem_inner.mpr ⟨inside,proper.rule_eq⟩
  apply (known.inner_hinges (named_of_quiet quiet) listed).congr
  exact iff_true_intro (known.clearIn_quiet quiet child listed)

theorem meaningAt_hinges (known : tree.Known rule) (always : 0 < rule.least fun _ => true)
    (safe : rule.most Member.risky = some 0) (index : Nat) : Hinges True (Part.meaningAt tree.phrase index) := by
  rw [Part.meaningAt_eq (known.parts_ne_nil always)]
  cases found : tree.phrase.parts[index]? with
  | none => exact .sure trivial _
  | some part => exact known.calm safe part (mem_of_getElem? found)

theorem each (known : tree.Known rule) (named : rule.most (Member.isPhrase .eventParameter) = some 0) :
    ∀ child ∈ tree.children, Hinges (child.clear = true) (child.meaning false) := by
  intro child member
  obtain ⟨level,derives⟩ := known.proper.derives
  apply known.child_hinges member
  intro same
  have other := derives.not_counted named member
  rw [isPhrase_member.mpr same] at other
  cases other

theorem alone (known : tree.Known rule) (always : 0 < rule.least fun _ => true)
    (once : (rule.most fun _ => true) = some 1) (named : rule.most (Member.isPhrase .eventParameter) = some 0) :
    ∃ child, tree.children = [child] ∧ Hinges tree.clearInside (child.meaning false) := by
  obtain ⟨level,derives⟩ := known.proper.derives
  have filled := derives.least_le fun _ => true
  have few := derives.le_most once
  rw [countP_true] at filled few
  obtain ⟨child,only⟩ := length_eq_one_iff.mp (by omega : tree.children.length = 1)
  have inside : child ∈ tree.children := only ▸ mem_singleton.mpr rfl
  refine ⟨child,only,?_⟩
  apply (known.each named child inside).congr
  simp [clearInside,only]

theorem alone_hinges (known : tree.Known rule) (always : 0 < rule.least fun _ => true)
    (once : (rule.most fun _ => true) = some 1) (named : rule.most (Member.isPhrase .eventParameter) = some 0) :
    Hinges tree.clearInside (Part.meaningAt tree.phrase 0) := by
  obtain ⟨child,only,own⟩ := known.alone always once named
  have parts : tree.phrase.parts = [child.understood false] := by simp [phrase,only]
  rw [Part.meaningAt_eq (by simp [parts]),parts]
  exact own

theorem last_hinges (known : tree.Known rule) (named : rule.most (Member.isPhrase .eventParameter) = some 0) :
    Hinges tree.clearInside tree.phrase.lastMeaning := by
  have each : ∀ part ∈ tree.phrase.parts, Hinges (part.tree.clear = true) part.meaning := by
    intro part member
    obtain ⟨child,inside,rfl⟩ := mem_map.mp member
    rw [tree_understood]
    exact known.each named child inside
  apply ((Part.meanings_hinges each).before fun values _ => .sure trivial _).congr
  simp [phrase,clearInside]

end Known

end Tree

end SolReader
