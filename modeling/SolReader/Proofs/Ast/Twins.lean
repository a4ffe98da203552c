import Mathlib.Data.List.Forall2
import SolReader.Proofs.Ast.Asking

namespace SolReader

-- The kind of the token, for a leaf of either sort.
def Tree.kind? : Tree → Option Kind
  | .leaf token | .error token => some token.kind
  | .node .. => none

-- All that is asked of a tree while its meaning is worked out.
structure Tree.Similar (one two : Tree) : Prop where
  text : one.text = two.text
  shape : one.shape = two.shape
  kind : one.kind? = two.kind?

theorem Tree.Similar.refl (tree : Tree) : tree.Similar tree := ⟨rfl,rfl,rfl⟩

theorem Tree.Similar.rule? {one two : Tree} (similar : one.Similar two) : one.rule? = two.rule? := by
  have shape := similar.shape
  cases one <;> cases two <;> first | rfl | cases shape
  rfl

-- How two readings are compared: whether a result of the second has to come with one of the first, which faults then go
-- together, and which pieces of the trees they are read from.
structure Terms where
  both : Prop
  faults : Fault → Fault → Prop
  pieces : Tree → Tree → Prop
  same : ∀ fault, faults fault fault
  similar : ∀ {one two}, pieces one two → one.Similar two
  inner : ∀ {one two}, pieces one two → one.children.Forall₂ pieces two.children

-- Two readings of the same tree, whatever their faults.
def Terms.ofTree (both : Prop) : Terms where
  both := both
  faults _ _ := True
  pieces := Eq
  same _ := trivial
  similar := fun same => same ▸ .refl _
  inner := fun same => same ▸ List.forall₂_same.mpr fun _ _ => rfl

structure Tied {α β : Type} (terms : Terms) (related : α → β → Prop) (one : Except Fault α) (two : Except Fault β) :
    Prop where
  forth : ∀ a, one = .ok a → ∃ b, two = .ok b ∧ related a b
  back : terms.both → ∀ b, two = .ok b → ∃ a, one = .ok a ∧ related a b
  faulty : terms.both → ∀ fault other, one = .error fault → two = .error other → terms.faults fault other

namespace Tied

variable {fault : Fault}
variable {α β γ δ : Type} {terms : Terms} {related : α → β → Prop} {after : γ → δ → Prop}
  {one : Except Fault α} {two : Except Fault β}

theorem ok {a : α} {b : β} (holds : related a b) : Tied terms related (.ok a) (.ok b) := by
  refine ⟨?_,fun _ => ?_,fun _ _ _ impossible => by cases impossible⟩
  · rintro _ ⟨⟩
    exact ⟨b,rfl,holds⟩
  · rintro _ ⟨⟩
    exact ⟨a,rfl,holds⟩

theorem error {other : Fault} (same : terms.faults fault other) : Tied terms related (.error fault) (.error other) := by
  refine ⟨nofun,fun _ => nofun,fun _ => ?_⟩
  rintro _ _ ⟨⟩ ⟨⟩
  exact same

theorem fails : Tied terms related (.error fault) (.error fault) :=
  error (terms.same fault)

theorem bind {next : α → Except Fault γ} {next' : β → Except Fault δ} (first : Tied terms related one two)
    (second : ∀ a b, related a b → Tied terms after (next a) (next' b)) : Tied terms after (one >>= next) (two >>= next') := by
  cases one with
  | error fault =>
    cases two with
    | error other =>
      refine ⟨nofun,fun _ => nofun,fun holds => ?_⟩
      rintro _ _ ⟨⟩ ⟨⟩
      exact first.faulty holds fault other rfl rfl
    | ok b =>
      have impossible (holds : terms.both) : False := by
        obtain ⟨a,failed,_⟩ := first.back holds b rfl
        cases failed
      exact ⟨nofun,fun holds => (impossible holds).elim,fun holds => (impossible holds).elim⟩
  | ok a =>
    obtain ⟨b,rfl,holds⟩ := first.forth a rfl
    exact second a b holds

theorem imp {weaker : α → β → Prop} (tied : Tied terms related one two) (weaken : ∀ a b, related a b → weaker a b) :
    Tied terms weaker one two := by
  refine ⟨fun a result => ?_,fun holds b result => ?_,tied.faulty⟩
  · obtain ⟨b,other,pair⟩ := tied.forth a result
    exact ⟨b,other,weaken a b pair⟩
  · obtain ⟨a,other,pair⟩ := tied.back holds b result
    exact ⟨a,other,weaken a b pair⟩

theorem map {image : α → γ} {image' : β → δ} (tied : Tied terms related one two)
    (kept : ∀ a b, related a b → after (image a) (image' b)) : Tied terms after (image <$> one) (image' <$> two) :=
  tied.bind fun a b holds => .ok (kept a b holds)

theorem told {outcome : Except Fault α} {next : α → Except Fault γ} {next' : α → Except Fault δ}
    (second : ∀ a, outcome = .ok a → Tied terms after (next a) (next' a)) :
    Tied terms after (outcome >>= next) (outcome >>= next') := by
  cases outcome with
  | error fault => exact fails
  | ok a => exact second a rfl

theorem step {outcome : Except Fault α} {next : α → Except Fault γ} {next' : α → Except Fault δ}
    (second : ∀ a, Tied terms after (next a) (next' a)) : Tied terms after (outcome >>= next) (outcome >>= next') :=
  told fun a _ => second a

theorem known (tied : Tied terms related one two) : Tied terms (fun a b => one = .ok a ∧ related a b) one two := by
  refine ⟨fun a result => ?_,fun holds b result => ?_,tied.faulty⟩
  · obtain ⟨b,other,pair⟩ := tied.forth a result
    exact ⟨b,other,result,pair⟩
  · obtain ⟨a,other,pair⟩ := tied.back holds b result
    exact ⟨a,other,other,pair⟩

theorem mapM {items : List α} {others : List β} {each : α → Except Fault γ} {each' : β → Except Fault δ}
    (paired : items.Forall₂ related others) (go : ∀ a b, related a b → Tied terms after (each a) (each' b)) :
    Tied terms (List.Forall₂ after) (items.mapM each) (others.mapM each') := by
  induction paired with
  | nil => exact ok .nil
  | cons first _ ih =>
    rw [List.mapM_cons,List.mapM_cons]
    exact (go _ _ first).bind fun _ _ head => ih.bind fun _ _ tail => ok (.cons head tail)

end Tied

-- Two parts of trees that go together, whose parts go together and whose meanings are tied.
inductive Part.Twin (terms : Terms) (related : Value → Value → Prop) : Part → Part → Prop where
  | mk {tree piece : Tree} {parts others : List Part} {meaning other : Meaning} (same : terms.pieces tree piece)
      (paired : parts.Forall₂ (Twin terms related) others) (tied : Tied terms related meaning other) :
      Twin terms related (.mk tree parts meaning) (.mk piece others other)

section Parts

open SolReader.Part

variable {terms : Terms} {related : Value → Value → Prop} {part other : Part} {parts others : List Part}
  {part? other? : Option Part}

theorem Part.kind?_eq (part : Part) : part.kind? = part.tree.kind? := by
  rw [Part.kind?]
  cases part.tree <;> rfl

namespace Part.Twin

theorem same (twin : Twin terms related part other) : terms.pieces part.tree other.tree := by
  cases twin
  assumption

theorem text (twin : Twin terms related part other) : part.text = other.text :=
  (terms.similar twin.same).text

theorem shape (twin : Twin terms related part other) : part.tree.shape = other.tree.shape :=
  (terms.similar twin.same).shape

theorem rule? (twin : Twin terms related part other) : part.rule? = other.rule? :=
  (terms.similar twin.same).rule?

theorem kind? (twin : Twin terms related part other) : part.kind? = other.kind? := by
  rw [Part.kind?_eq,Part.kind?_eq,(terms.similar twin.same).kind]

theorem inside (twin : Twin terms related part other) : part.parts.Forall₂ (Twin terms related) other.parts := by
  cases twin
  assumption

theorem meaning (twin : Twin terms related part other) : Tied terms related part.meaning other.meaning := by
  cases twin
  assumption

end Part.Twin

-- Lists of parts that go together.
abbrev Twins (terms : Terms) (related : Value → Value → Prop) : List Part → List Part → Prop :=
  List.Forall₂ (Part.Twin terms related)

-- Parts that may be missing, on both sides or on none.
abbrev Counterpart (terms : Terms) (related : Value → Value → Prop) : Option Part → Option Part → Prop :=
  Option.Rel (Part.Twin terms related)

namespace Twins

theorem filter (twins : Twins terms related parts others) {test : Part → Bool}
    (agree : ∀ part other, Part.Twin terms related part other → test part = test other) :
    Twins terms related (parts.filter test) (others.filter test) := by
  induction twins with
  | nil => exact .nil
  | @cons part other _ _ twin _ ih =>
    rw [List.filter_cons,List.filter_cons,agree part other twin]
    split
    · exact .cons twin ih
    · exact ih

theorem all (twins : Twins terms related parts others) (rule : Rule) :
    Twins terms related (Phrase.all rule parts) (Phrase.all rule others) :=
  twins.filter fun part other twin => by rw [twin.rule?]

theorem get (twins : Twins terms related parts others) (index : Nat) :
    Counterpart terms related parts[index]? others[index]? := by
  induction twins generalizing index with
  | nil => exact .none
  | cons twin _ ih =>
    cases index with
    | zero => exact .some twin
    | succ index => exact ih index

theorem head (twins : Twins terms related parts others) : Counterpart terms related parts.head? others.head? := by
  rw [List.head?_eq_getElem?,List.head?_eq_getElem?]
  exact twins.get 0

theorem isEmpty (twins : Twins terms related parts others) : parts.isEmpty = others.isEmpty := by
  cases twins <;> rfl

theorem dropLast (twins : Twins terms related parts others) : Twins terms related parts.dropLast others.dropLast := by
  rw [List.dropLast_eq_take,List.dropLast_eq_take,twins.length_eq]
  exact List.forall₂_take _ twins

theorem any (twins : Twins terms related parts others) (kind : Kind) :
    (parts.any fun part => part.kind? == some kind) = others.any fun part => part.kind? == some kind := by
  induction twins with
  | nil => rfl
  | cons twin _ ih => rw [List.any_cons,List.any_cons,twin.kind?,ih]

theorem find (twins : Twins terms related parts others) (kind : Kind) : Counterpart terms related
    (parts.find? (·.kind? == some kind)) (others.find? (·.kind? == some kind)) := by
  induction twins with
  | nil => exact .none
  | cons twin _ ih =>
    rw [List.find?_cons,List.find?_cons,twin.kind?]
    split
    · exact .some twin
    · exact ih

theorem meanings (twins : Twins terms related parts others) :
    Tied terms (List.Forall₂ related) (meanings parts) (Part.meanings others) :=
  .mapM twins fun _ _ twin => twin.meaning

end Twins

namespace Counterpart

theorem either (pair : Counterpart terms related part? other?) : part? = none ∧ other? = none ∨
    ∃ part other, part? = some part ∧ other? = some other ∧ Part.Twin terms related part other := by
  cases pair with
  | none => exact .inl ⟨rfl,rfl⟩
  | some twin => exact .inr ⟨_,_,rfl,rfl,twin⟩

theorem textOf (pair : Counterpart terms related part? other?) : textOf part? = Part.textOf other? := by
  cases pair with
  | none => rfl
  | some twin => rw [Part.textOf,Part.textOf,twin.text]

theorem optionalText (pair : Counterpart terms related part? other?) :
    Part.optionalText part? = Part.optionalText other? := by
  cases pair with
  | none => rfl
  | some twin => rw [Part.optionalText,Part.optionalText,Option.map_some,Option.map_some,twin.text]

theorem isSome (pair : Counterpart terms related part? other?) : part?.isSome = other?.isSome := by
  cases pair <;> rfl

theorem within (pair : Counterpart terms related part? other?) (rule : Rule) (asked : String) :
    Tied terms (Twins terms related) (Part.within part? rule asked) (Part.within other? rule asked) := by
  cases pair with
  | none => exact .fails
  | some twin => exact .ok (Twins.all twin.inside rule)

end Counterpart

end Parts

-- A value that can be a name in a table whatever it says.
def Value.isSimple : Value → Bool
  | .null | .text _ => true
  | _ => false

@[simp] theorem Value.null_simple : Value.null.isSimple = true := rfl

@[simp] theorem Value.text_simple (content : String) : (Value.text content).isSimple = true := rfl

@[simp] theorem Value.ofOption_simple (text? : Option String) : (Value.ofOption text?).isSimple = true := by
  cases text? <;> rfl

@[simp] theorem Value.optionalText_simple (part? : Option Part) : (Part.optionalText part?).isSimple = true :=
  Value.ofOption_simple _

-- The fields that hold pieces of the parse tree.
@[simp] def Fields.pieces : List String := ["iden","decl"]

-- The fields that hold something else than what parts mean: their places and pieces of the parse tree.
def Fields.special : List String := "loc" :: Fields.pieces

-- What stands under a name on both sides.
def Fields.Held (terms : Terms) (related : Value → Value → Prop) (name : String) (value other : Value) : Prop :=
  related value other ∨
    (name ∈ Fields.pieces ∧ ∃ tree piece, value = .tree tree ∧ other = .tree piece ∧ terms.pieces tree piece)

def Fields.Related (terms : Terms) (related : Value → Value → Prop) : Fields → Fields → Prop :=
  List.Forall₂ fun one two => one.1 = two.1 ∧ Fields.Held terms related one.1 one.2 two.2

-- What a relation between values has to respect: how values are put together, and what is looked at in them later.
structure Congruent (related : Value → Value → Prop) : Prop where
  null : related .null .null
  bool (truth : Bool) : related (.bool truth) (.bool truth)
  text (content : String) : related (.text content) (.text content)
  record {fields : Fields} (simple : ∀ field ∈ fields, field.2.isSimple = true) : related (.record fields) (.record fields)
  list {values others : List Value} (paired : values.Forall₂ related others) : related (.list values) (.list others)
  null_iff {value other : Value} (pair : related value other) : value = .null ↔ other = .null
  text_iff {value other : Value} (pair : related value other) (content : String) :
    value = .text content ↔ other = .text content
  shape {value other : Value} (pair : related value other) : value.shape = other.shape
  nodes {value other : Value} (pair : related value other) :
    (∃ fields others, value = .node fields ∧ other = .node others ∧
      ∀ name, name ∉ Fields.special → Option.Rel related (Fields.get? fields name) (Fields.get? others name)) ∨
    (∀ fields, value ≠ .node fields) ∧ ∀ others, other ≠ .node others

theorem Congruent.ofOption {related : Value → Value → Prop} (good : Congruent related) (text? : Option String) :
    related (.ofOption text?) (.ofOption text?) := by
  cases text? with
  | none => exact good.null
  | some text => exact good.text text

-- The nodes that a phrase of each rule makes, by their types and the names of their fields.
@[simp] def Rule.makes : Rule → List (String × List String)
  | .sourceUnit => [("SourceUnit",["children"])]
  | .pragmaDirective => [("PragmaDirective",["name","value"])]
  | .importDirective => [("ImportDirective",["path","symbolAliases","unitAlias"])]
  | .contractDefinition => [("ContractDefinition",["name","baseContracts","subNodes","kind"])]
  | .inheritanceSpecifier => [("InheritanceSpecifier",["baseName","arguments"])]
  | .stateVariableDeclaration => [
      ("VariableDeclaration",
        ["typeName","name","expression","visibility","isStateVar","isDeclaredConst","isIndexed"]),
      ("StateVariableDeclaration",["variables","initialValue"])]
  | .fileLevelConstant => [("FileLevelConstant",["name","typeName","ConstantKeyword"])]
  | .customErrorDefinition => [("CustomErrorDefinition",["name","parameterList"])]
  | .typeDefinition => [("TypeDefinition",["typeKeyword","elementaryTypeName"])]
  | .usingForDeclaration => [("UsingForDeclaration",["typeName","libraryName"])]
  | .structDefinition => [("StructDefinition",["name","members"])]
  | .modifierDefinition => [("ModifierDefinition",["name","parameters","body"])]
  | .modifierInvocation => [("ModifierInvocation",["name","arguments"])]
  | .functionDefinition => [
      ("FunctionDefinition",["name","parameters","returnParameters","body","visibility","modifiers","isConstructor",
        "isFallback","isReceive","stateMutability"])]
  | .eventDefinition => [("EventDefinition",["name","parameters","isAnonymous"])]
  | .enumValue => [("EnumValue",["name"])]
  | .enumDefinition => [("EnumDefinition",["name","members"])]
  | .parameterList => [("ParameterList",["parameters"])]
  | .parameter => [("Parameter",["typeName","name","storageLocation","isStateVar","isIndexed"])]
  | .eventParameterList => [
      ("VariableDeclaration",["typeName","name","isStateVar","isIndexed"]),("ParameterList",["parameters"])]
  | .eventParameter | .functionTypeParameter => [
      ("VariableDeclaration",["typeName","name","storageLocation","isStateVar","isIndexed"])]
  | .variableDeclaration => [("VariableDeclaration",["typeName","name","storageLocation"])]
  | .typeName => [("ArrayTypeName",["baseTypeName","length"]),("ElementaryTypeName",["name","stateMutability"])]
  | .userDefinedTypeName => [("UserDefinedTypeName",["namePath"])]
  | .mapping => [("Mapping",["keyType","valueType"])]
  | .functionTypeName => [
      ("FunctionTypeName",["parameterTypes","returnTypes","visibility","stateMutability"])]
  | .block => [("Block",["statements"])]
  | .expressionStatement => [("ExpressionStatement",["expression"])]
  | .ifStatement => [("IfStatement",["condition","TrueBody","FalseBody"])]
  | .tryStatement => [("TryStatement",["expression","block","returnParameters","catchClause"])]
  | .catchClause => [("CatchClause",["identifier","parameterList","block"])]
  | .whileStatement => [("WhileStatement",["condition","body"])]
  | .doWhileStatement => [("DoWhileStatement",["condition","body"])]
  | .uncheckedStatement => [("UncheckedStatement",["body"])]
  | .forStatement => [
      ("ExpressionStatement",["expression"]),
      ("ForStatement",["initExpression","conditionExpression","loopExpression","body"])]
  | .inlineAssemblyStatement => [("InLineAssemblyStatement",["language","body"])]
  | .throwStatement => [("ThrowStatement",[])]
  | .emitStatement => [("EmitStatement",["eventCall"])]
  | .revertStatement => [("RevertStatement",["functionCall"])]
  | .variableDeclarationStatement => [("VariableDeclarationStatement",["variables","initialValue"])]
  | .variableDeclarationList => [("VariableDeclaration",["name","typeName","isStateVar","isIndexed","decl"])]
  | .identifierList => [("VariableDeclaration",["name","isStateVar","isIndexed","iden"])]
  | .elementaryTypeName => [("ElementaryTypeName",["name"])]
  | .expression => [
      ("NewExpression",["typeName"]),("UnaryOperation",["operator","subExpression","isPrefix"]),
      ("TupleExpression",["components","isArray"]),("MemberAccess",["expression","memberName"]),
      ("BinaryOperation",["operator","left","right"]),("FunctionCall",["expression","arguments","names"]),
      ("IndexAccess",["base","index"]),("Conditional",["condition","TrueExpression","FalseExpression"])]
  | .primaryExpression => [
      ("BooleanLiteral",["value"]),("hexLiteral",["value"]),("stringLiteral",["value"]),
      ("UserDefinedTypeName",["namePath"]),("ElementaryTypeName",["name"]),
      ("ArrayTypeName",["baseTypeName","length"])]
  | .functionCall => [("FunctionCall",["expression","arguments","names"])]
  | .assemblyBlock => [("AssemblyBlock",["operations"])]
  | .assemblyItem => [("HexLiteral",["value"]),("StringLiteral",["value"]),("Break",[]),("Continue",[])]
  | .assemblyCall => [("AssemblyExpression",["functionName","arguments"])]
  | .assemblyLocalDefinition => [("AssemblyLocalDefinition",["names","expression"])]
  | .assemblyAssignment => [("AssemblyAssignment",["names","expression"])]
  | .assemblyStackAssignment => [("AssemblyStackAssignment",["name"])]
  | .labelDefinition => [("LabelDefinition",["name"])]
  | .assemblySwitch => [("AssemblySwitch",["expression","cases"])]
  | .assemblyCase => [("AssemblyCase",["block","default"]),("AssemblyCase",["block","value"])]
  | .assemblyFunctionDefinition => [("AssemblyFunctionDefinition",["name","arguments","returnArguments","body"])]
  | .assemblyFor => [("AssemblyFor",["pre","condition","post","body"])]
  | .assemblyIf => [("AssemblyIf",["condition","body"])]
  | .assemblyLiteral => [
      ("StringLiteral",["value"]),("DecimalNumber",["value"]),("HexNumber",["value"]),("HexLiteral",["value"])]
  | .tupleExpression => [("TupleExpression",["components","isArray"])]
  | .numberLiteral => [("NumberLiteral",["number","subdenomination"])]
  | .identifier => [("Identifier",["name"])]
  | _ => []

-- The fields that hold a text or nothing, wherever they stand.
@[simp] def Fields.words : List String := ["name","visibility","stateMutability"]

-- Only these nodes have for a name a node of its own.
@[simp] def Fields.nodeNamed : List String := ["CustomErrorDefinition","FileLevelConstant"]

def Fields.Worded (type : String) (fields : Fields) : Prop :=
  ∀ field ∈ fields, field.1 ∈ Fields.words → field.2.isSimple = true ∨ type ∈ Fields.nodeNamed

-- The nodes of operators that stand between operands.
@[simp] def Fields.operations : List String := ["BinaryOperation","Conditional"]

-- The nodes that are known to be all that their phrases mean.
@[simp] def Fields.wholes : List String := "IfStatement" :: Fields.operations

-- What is known of a node when a phrase makes it.  An empty list of variables declares none, and an operation is all that
-- its phrase means.
structure Made (phrase : Phrase) (rule : Rule) (type : String) (fields : Fields) : Prop where
  listed : (type,fields.names) ∈ rule.makes
  worded : fields.Worded type
  filled : rule = .variableDeclarationList → phrase.parts ≠ []
  whole : type ∈ Fields.wholes → phrase.meaning rule = phrase.node type fields

-- Two phrases of a rule that are read from trees that go together.
structure Alike (terms : Terms) (related : Value → Value → Prop) (rule : Rule) (one two : Phrase) : Prop where
  good : Congruent related
  tree : terms.pieces one.tree two.tree
  paired : Twins terms related one.parts two.parts
  node {type : String} {fields others : Fields} (made : Made one rule type fields)
    (same : fields.Related terms related others) : Tied terms related (one.node type fields) (two.node type others)

namespace Alike

open SolReader.Part

variable {type : String} {fields others : Fields}
variable {terms : Terms} {related : Value → Value → Prop} {rule : Rule} {one two : Phrase}

theorem text (alike : Alike terms related rule one two) : one.text = two.text :=
  (terms.similar alike.tree).text

theorem count (alike : Alike terms related rule one two) : one.count = two.count := by
  rw [Phrase.count,Phrase.count,alike.paired.length_eq,alike.paired.isEmpty]

theorem all (alike : Alike terms related rule one two) (asked : Rule) :
    Twins terms related (one.allOf asked) (two.allOf asked) :=
  alike.paired.all asked

theorem first (alike : Alike terms related rule one two) (asked : Rule) :
    Counterpart terms related (one.first? asked) (two.first? asked) :=
  (alike.all asked).head

theorem token (alike : Alike terms related rule one two) (kind : Kind) :
    Counterpart terms related (one.token? kind) (two.token? kind) :=
  alike.paired.find kind

theorem textOf (alike : Alike terms related rule one two) (asked : Rule) :
    Part.textOf (one.first? asked) = Part.textOf (two.first? asked) :=
  (alike.first asked).textOf

theorem optionalText (alike : Alike terms related rule one two) (asked : Rule) :
    Part.optionalText (one.first? asked) = Part.optionalText (two.first? asked) :=
  (alike.first asked).optionalText

theorem isSome (alike : Alike terms related rule one two) (asked : Rule) :
    (one.first? asked).isSome = (two.first? asked).isSome :=
  (alike.first asked).isSome

theorem has (alike : Alike terms related rule one two) (kind : Kind) :
    (one.token? kind).isSome = (two.token? kind).isSome :=
  (alike.token kind).isSome

theorem child (alike : Alike terms related rule one two) (index : Nat) :
    Tied terms (Counterpart terms related) (one.child? index) (two.child? index) := by
  rw [Phrase.child?,Phrase.child?,alike.count]
  exact .step fun _ => .ok (alike.paired.get index)

theorem textAt (alike : Alike terms related rule one two) (index : Nat) :
    Part.textAt one index = Part.textAt two index := by
  rw [Part.textAt,Part.textAt,Phrase.child?,Phrase.child?,alike.count]
  cases two.count with
  | error fault => rfl
  | ok count => exact Counterpart.textOf (alike.paired.get index)

theorem meaningOf (alike : Alike terms related rule one two) {part? other? : Option Part}
    (pair : Counterpart terms related part? other?) : Tied terms related (Part.meaningOf part?) (Part.meaningOf other?) := by
  cases pair with
  | none => exact .ok alike.good.null
  | some twin => exact twin.meaning

theorem meaning (alike : Alike terms related rule one two) (asked : Rule) :
    Tied terms related (Part.meaningOf (one.first? asked)) (Part.meaningOf (two.first? asked)) :=
  alike.meaningOf (alike.first asked)

theorem meaningAt (alike : Alike terms related rule one two) (index : Nat) :
    Tied terms related (Part.meaningAt one index) (Part.meaningAt two index) :=
  (alike.child index).bind fun _ _ pair => alike.meaningOf pair

theorem listOf (alike : Alike terms related rule one two) {parts others : List Part}
    (twins : Twins terms related parts others) : Tied terms related (Part.listOf parts) (Part.listOf others) :=
  twins.meanings.bind fun _ _ paired => .ok (alike.good.list paired)

theorem listed (alike : Alike terms related rule one two) (asked : Rule) :
    Tied terms related (Part.listOf (one.allOf asked)) (Part.listOf (two.allOf asked)) :=
  alike.listOf (alike.all asked)

theorem makes (alike : Alike terms related rule one two)
    (listed : (type,fields.names) ∈ rule.makes) (worded : fields.Worded type)
    (plain : type ∉ "VariableDeclaration" :: Fields.wholes) (same : fields.Related terms related others) :
    Tied terms related (one.node type fields) (two.node type others) := by
  obtain ⟨single,alone⟩ := not_or.mp (List.mem_cons.not.mp plain)
  exact alike.node ⟨listed,worded,fun list => by subst list; simp [single] at listed,fun whole => absurd whole alone⟩
    same

theorem makesWhole (alike : Alike terms related rule one two)
    (listed : (type,fields.names) ∈ rule.makes) (worded : fields.Worded type) (filled : rule ≠ .variableDeclarationList)
    (whole : one.meaning rule = one.node type fields) (same : fields.Related terms related others) :
    Tied terms related (one.node type fields) (two.node type others) :=
  alike.node ⟨listed,worded,fun list => absurd list filled,fun _ => whole⟩ same

theorem declares (alike : Alike terms related rule one two)
    (listed : ("VariableDeclaration",fields.names) ∈ rule.makes) (worded : fields.Worded "VariableDeclaration")
    (filled : rule = .variableDeclarationList → one.parts ≠ []) (same : fields.Related terms related others) :
    Tied terms related (one.node "VariableDeclaration" fields) (two.node "VariableDeclaration" others) :=
  alike.node ⟨listed,worded,filled,fun whole => absurd whole (by decide)⟩ same

end Alike

section Fields

variable {name : String}
variable (terms : Terms) (related : Value → Value → Prop)

@[simp] theorem Fields.related_nil : Fields.Related terms related [] [] := .nil

@[simp] theorem Fields.related_cons (one two : String × Value) (ones twos : Fields) :
    Fields.Related terms related (one :: ones) (two :: twos) ↔
      (one.1 = two.1 ∧ Fields.Held terms related one.1 one.2 two.2) ∧ Fields.Related terms related ones twos :=
  List.forall₂_cons

@[simp] theorem Fields.held_value (plain : name ∉ Fields.pieces) (value other : Value) :
    Fields.Held terms related name value other ↔ related value other :=
  or_iff_left fun piece => plain piece.1

theorem Fields.held_piece (listed : name ∈ Fields.pieces) {tree piece : Tree}
    (same : terms.pieces tree piece) : Fields.Held terms related name (.tree tree) (.tree piece) :=
  .inr ⟨listed,tree,piece,rfl,rfl,same⟩

end Fields

theorem Fields.Related.values {terms : Terms} {related : Value → Value → Prop} {fields others : Fields}
    (same : fields.Related terms related others)
    (pieces : ∀ {tree piece}, terms.pieces tree piece → related (.tree tree) (.tree piece)) :
    fields.Forall₂ (fun one two => one.1 = two.1 ∧ related one.2 two.2) others := by
  refine List.Forall₂.imp ?_ same
  rintro one two ⟨name,value | ⟨_,tree,piece,held,again,pair⟩⟩
  · exact ⟨name,value⟩
  · rw [held,again]
    exact ⟨name,pieces pair⟩

end SolReader
