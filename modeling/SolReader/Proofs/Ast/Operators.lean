import SolReader.Proofs.Ast.Faults
import SolReader.Proofs.Ast.Nodes
import SolReader.Proofs.Parse.Precedence

namespace SolReader

open List

-- The kind of the tokens that are always written with this text.
def Kind.ofWord? (word : String) : Option Kind :=
  Kind.all.find? (·.spelling? == some word)

theorem Kind.ofWord?_checked :
    ∀ kind : Kind, (kind.spelling?.all fun word => Kind.ofWord? word == some kind) = true := by
  decide

theorem Kind.ofWord?_spelling {kind : Kind} {word : String} (spelled : kind.spelling? = some word) :
    Kind.ofWord? word = some kind := by
  have checked := Kind.ofWord?_checked kind
  rw [spelled] at checked
  exact beq_iff_eq.mp checked

namespace Fields

-- The operator of a node that is a binary operation, an assignment or a conditional.
def operator? (node : Fields) : Option Kind :=
  match node.get? "type", node.get? "operator" with
  | some (.text "BinaryOperation"), some (.text word) => Kind.ofWord? word
  | some (.text "Conditional"), _ => some .question
  | _, _ => none

-- How tightly the operator of a node binds.
def binding? (node : Fields) : Option Nat := node.operator?.bind Kind.binding?

-- The operand of an operation that stands before its operator.
def firstOperand? (node : Fields) : Option Value :=
  match node.get? "type" with
  | some (.text "Conditional") => node.get? "condition"
  | _ => node.get? "left"

-- The operand of an operation that nothing comes after.
def lastOperand? (node : Fields) : Option Value :=
  match node.get? "type" with
  | some (.text "Conditional") => node.get? "FalseExpression"
  | _ => node.get? "right"

end Fields

-- The level of a value that is an operation. What stands in parentheses is none: it is a tuple with one component.
def Value.binding? : Value → Option Nat
  | .node fields => Fields.binding? fields
  | _ => none

-- The operation has two operands at its ends.  The first binds at least as tightly as the operation itself, and the last
-- binds more tightly, so that of two operators of one level the one further to the right is the outer one.
def Fields.NestsLeft (node : Fields) : Prop :=
  ∀ level ∈ node.binding?, ∃ first ∈ node.firstOperand?, ∃ last ∈ node.lastOperand?,
    (∀ inner ∈ first.binding?, level ≤ inner) ∧ ∀ inner ∈ last.binding?, level < inner

-- The value is no operation.
def Value.Atomic (value : Value) : Prop := value.binding? = none

-- The value is no node of these types.
def Value.OtherThan (types : List String) : Value → Prop
  | .node fields => ∀ type ∈ types, Fields.get? fields "type" ≠ some (.text type)
  | _ => True

theorem Value.OtherThan.node {types : List String} {type : String} (other : type ∉ types) (fields : Fields) :
    (Value.node (("type",.text type) :: fields)).OtherThan types := by
  intro name listed same
  cases Value.text.inj (Option.some.inj (show some (Value.text type) = some (.text name) from same))
  exact other listed

theorem Value.OtherThan.atomic {value : Value} (other : value.OtherThan Fields.operations) : value.Atomic := by
  cases value with
  | node fields =>
    rw [Value.Atomic,Value.binding?,Fields.binding?,Fields.operator?]
    split
    · rename_i same _
      exact absurd same (other _ (by simp))
    · rename_i same
      exact absurd same (other _ (by simp))
    · rfl
  | _ => rfl

-- The types of the nodes that stand for literals, names, types, tuples and operators with one operand.
def Fields.atoms : List String :=
  ["BooleanLiteral","hexLiteral","stringLiteral","NumberLiteral","Identifier","TupleExpression","UserDefinedTypeName",
   "ElementaryTypeName","ArrayTypeName","NewExpression","UnaryOperation"]

namespace Phrase

open SolReader.Part

variable {phrase : Phrase}

theorem node_gives {good : Value → Prop}
    (holds : ∀ place, good (.node (("type",.text type) :: fields ++ place))) : Yields good (phrase.node type fields) := by
  intro value made
  obtain ⟨place,_,rfl⟩ := node_ok made
  exact holds place

theorem node_atomic (other : type ∉ Fields.operations) (fields : Fields) :
    Yields Value.Atomic (phrase.node type fields) :=
  node_gives fun _ => (Value.OtherThan.node other _).atomic

theorem listOf_other (types : List String) (parts : List Part) : Yields (Value.OtherThan types) (listOf parts) :=
  .chain fun _ _ => .ok trivial

theorem listOf_atomic (parts : List Part) : Yields Value.Atomic (listOf parts) :=
  (listOf_other _ parts).imp fun _ other => other.atomic

section Atoms

variable {types : List String} (apart : ∀ type ∈ Fields.atoms, type ∉ types)

include apart

theorem atom_other (type : String) (atom : type ∈ Fields.atoms) (fields : Fields) :
    Yields (Value.OtherThan types) (phrase.node type fields) :=
  node_gives fun _ => Value.OtherThan.node (apart type atom) _

theorem ofTwo_other : Yields (Value.OtherThan types) phrase.ofTwo := by
  refine .chain fun _ _ => ?_
  split
  · exact .chain fun _ _ => atom_other apart _ (by decide) _
  · split
    · exact .chain fun _ _ => atom_other apart _ (by decide) _
    · refine .chain fun _ _ => ?_
      split
      · exact .chain fun _ _ => atom_other apart _ (by decide) _
      · exact listOf_other _ _

theorem primaryExpression_other (first : Yields (Value.OtherThan types) (meaningAt phrase 0)) :
    Yields (Value.OtherThan types) phrase.primaryExpression := by
  rw [primaryExpression]
  split
  · exact atom_other apart _ (by decide) _
  · split
    · exact atom_other apart _ (by decide) _
    · split
      · exact atom_other apart _ (by decide) _
      · refine .chain fun _ _ => ?_
        split
        · exact .chain fun _ _ => .chain fun _ _ => atom_other apart _ (by decide) _
        · exact first

end Atoms

theorem lastMeaning_other (each : ∀ part ∈ phrase.parts, Yields (Value.OtherThan types) part.meaning) :
    Yields (Value.OtherThan types) phrase.lastMeaning := by
  refine .chain fun values result => .ok ?_
  have other := Yields.mapM each values result
  cases last : values.getLast? with
  | none => trivial
  | some value => exact other value (mem_of_getLast? last)

-- An operation that the phrase means, with its operands and the number of the phrase's parts.
structure Operates (phrase : Phrase) (value : Value) (count : Nat) (first last : Value) : Prop where
  counted : phrase.count = .ok count
  several : count = 3 ∨ count = 5
  bare : count = 3 → textAt phrase 0 = .ok "(" → textAt phrase 2 ≠ .ok ")"
  before : meaningAt phrase 0 = .ok first
  after : meaningAt phrase (count - 1) = .ok last
  made : ∃ (node : Fields) (kind : Kind) (word : String), value = .node node ∧ node.firstOperand? = some first ∧ node.lastOperand? = some last ∧
    node.operator? = some kind ∧ textAt phrase 1 = .ok word ∧ Kind.ofWord? word = some kind

theorem ofFour_atomic : Yields Value.Atomic phrase.ofFour := by
  refine .chain fun _ _ => .chain fun _ _ => ?_
  split
  · exact .chain fun _ _ => .chain fun _ _ => node_atomic (by decide) _
  · split
    · exact .chain fun _ _ => .chain fun _ _ => node_atomic (by decide) _
    · exact listOf_atomic _

theorem binary_checked : ∀ word ∈ binaryOperators, (Kind.ofWord? word).isSome = true := by
  decide

theorem ofThree_operates (counted : phrase.count = .ok 3) :
    Yields (fun value => value.Atomic ∨ ∃ first last, phrase.Operates value 3 first last) phrase.ofThree := by
  have atomic {meaning : Meaning} (gives : Yields Value.Atomic meaning) :
      Yields (fun value => value.Atomic ∨ ∃ first last, phrase.Operates value 3 first last) meaning :=
    gives.imp fun _ => .inl
  refine .chain fun opening opens => .chain fun closing closes => ?_
  split
  · exact atomic (.chain fun _ _ => node_atomic (by decide) _)
  · rename_i bare
    refine .chain fun word between => ?_
    split
    · exact atomic (.chain fun _ _ => .chain fun _ _ => node_atomic (by decide) _)
    · split
      · exact atomic (.chain fun _ _ => .chain fun _ _ => node_atomic (by decide) _)
      · split
        · rename_i listed
          refine .chain fun left before => .chain fun right after => node_gives fun place => ?_
          obtain ⟨kind,told⟩ := Option.isSome_iff_exists.mp (binary_checked word (contains_iff_mem.mp listed))
          refine .inr ⟨left,right,counted,.inl rfl,fun _ first last => bare ?_,before,after,_,kind,word,rfl,rfl,
            rfl,told,between,told⟩
          rw [Except.ok.inj (opens.symm.trans first),Except.ok.inj (closes.symm.trans last)]
          rfl
        · exact atomic (listOf_atomic _)

theorem ofFive_operates (counted : phrase.count = .ok 5) :
    Yields (fun value => value.Atomic ∨ ∃ first last, phrase.Operates value 5 first last) phrase.ofFive := by
  refine .chain fun question asks => .chain fun colon _ => ?_
  split
  · rename_i both
    rw [Bool.and_eq_true,decide_eq_true_eq] at both
    rw [both.1] at asks
    refine .chain fun condition before => .chain fun yes _ => .chain fun no after => node_gives fun place => ?_
    exact .inr ⟨condition,no,counted,.inr rfl,nofun,before,after,_,.question,"?",rfl,rfl,rfl,rfl,asks,
      by decide⟩
  · exact (listOf_atomic _).imp fun _ => .inl

theorem expression_operates : Yields (fun value => value.Atomic ∨ (phrase.count = .ok 1 ∧ meaningAt phrase 0 = .ok value) ∨
    ∃ count first last, phrase.Operates value count first last) phrase.expression := by
  refine .chain fun count counted => ?_
  match count with
  | 0 => exact (listOf_atomic _).imp fun _ => .inl
  | 1 => exact fun value means => .inr (.inl ⟨counted,means⟩)
  | 2 => exact (ofTwo_other (by decide)).imp fun _ other => .inl other.atomic
  | 3 => exact (ofThree_operates counted).imp fun _ => .imp_right fun made => .inr ⟨3,made⟩
  | 4 => exact ofFour_atomic.imp fun _ => .inl
  | 5 => exact (ofFive_operates counted).imp fun _ => .imp_right fun made => .inr ⟨5,made⟩
  | _ + 6 => exact (listOf_atomic _).imp fun _ => .inl

end Phrase

-- Phrases that mean a node of their own which is no operation.
def Rule.named : List Rule := [.numberLiteral,.identifier,.tupleExpression,.elementaryTypeName,.userDefinedTypeName]

theorem Phrase.named_other {phrase : Phrase} (listed : rule ∈ Rule.named)
    (apart : ∀ type ∈ Fields.atoms, type ∉ types) : Yields (Value.OtherThan types) (phrase.meaning rule) := by
  simp only [Rule.named,mem_cons,not_mem_nil,or_false] at listed
  rcases listed with rfl | rfl | rfl | rfl | rfl
  · refine .chain fun _ _ => .chain fun _ _ => ?_
    split
    · exact .chain fun _ _ => atom_other apart _ (by decide) _
    · exact atom_other apart _ (by decide) _
  · exact atom_other apart _ (by decide) _
  · exact .chain fun _ _ => .chain fun _ _ => .chain fun _ _ => .chain fun _ _ => atom_other apart _ (by decide) _
  · exact atom_other apart _ (by decide) _
  · exact atom_other apart _ (by decide) _

-- Phrases that mean what the last of their parts means.
def Rule.handsOn : List Rule := [.hexLiteral,.stringLiteral,.typeNameExpression]

def Member.isUnnamed : Member → Bool
  | .phrase rule => !Rule.named.contains rule
  | .token _ => false

theorem Rule.handsOn_checked :
    (Rule.handsOn.all fun rule => rule.most Member.isUnnamed == some 0) = true := by
  decide

namespace Tree

variable {located : Bool} {tree child : Tree} {rule : Rule} {index : Nat}

section Seen

theorem seen_part (found : tree.children[index]? = some child) :
    (tree.seen located).parts[index]? = some (child.understood located) := by
  simp [seen,found]

theorem seen_textAt (found : tree.children[index]? = some child) :
    Part.textAt (tree.seen located) index = .ok child.text := by
  rw [Part.textAt_eq (seen_part found),Part.text,understood_mk]
  rfl

theorem seen_meaningAt (found : tree.children[index]? = some child) :
    Part.meaningAt (tree.seen located) index = child.meaning located := by
  have filled : (tree.seen located).parts ≠ [] := fun absent => by
    have found := @seen_part located _ _ _ found
    simp [absent] at found
  rw [Part.meaningAt_eq filled,seen_part found]
  rfl

theorem seen_count {count : Nat} (counted : (tree.seen located).count = .ok count) : tree.children.length = count := by
  rw [Phrase.count] at counted
  split at counted
  · cases counted
  · simpa [seen] using Except.ok.inj counted

end Seen

section Atoms

variable {types : List String} (apart : ∀ type ∈ Fields.atoms, type ∉ types)

theorem leaf_other (token : Token) : Yields (Value.OtherThan types) ((leaf token).meaning located) := .ok trivial

include apart

theorem Proper.named_other (proper : tree.Proper rule) (listed : rule ∈ Rule.named ++ Rule.handsOn) :
    Yields (Value.OtherThan types) (tree.meaning located) := by
  rw [meaning_seen proper.rule_eq]
  rcases mem_append.mp listed with named | other
  · exact Phrase.named_other named apart
  · have checked := all_eq_true.mp Rule.handsOn_checked rule other
    have last : (tree.seen located).meaning rule = (tree.seen located).lastMeaning := by
      simp only [Rule.handsOn,mem_cons,not_mem_nil,or_false] at other
      rcases other with rfl | rfl | rfl <;> rfl
    rw [last]
    refine Phrase.lastMeaning_other fun part member => ?_
    obtain ⟨child,inside,rfl⟩ := mem_map.mp member
    rcases proper.child inside with ⟨token,rfl,_⟩ | ⟨inner,below⟩
    · exact leaf_other token
    · obtain ⟨level,derives⟩ := proper.derives
      have named := derives.not_counted (beq_iff_eq.mp checked) inside
      rw [rule?_eq.mp below.rule_eq] at named
      change Yields (Value.OtherThan types) (child.meaning located)
      rw [meaning_seen below.rule_eq]
      exact Phrase.named_other (by simpa [Member.isUnnamed] using named) apart

theorem Proper.atom_other (proper : tree.Proper .primaryExpression) :
    Yields (Value.OtherThan types) (tree.meaning located) := by
  obtain ⟨level,derives⟩ := proper.derives
  rw [meaning_seen proper.rule_eq]
  refine Phrase.primaryExpression_other apart ?_
  have made := Primary.derives_made derives
  generalize same : tree.children = children at made
  have phrase {rule : Rule} {first : Tree} (found : tree.children[0]? = some first) (derived : Derives rule 0 first)
      (listed : rule ∈ Rule.named ++ Rule.handsOn) :
      Yields (Value.OtherThan types) (Part.meaningAt (tree.seen located) 0) := by
    rw [seen_meaningAt found]
    have inside := mem_inner.mpr ⟨mem_of_getElem? found,rule?_eq.mpr (Form.Derives.member_eq derived)⟩
    exact (proper.inner inside).named_other apart listed
  cases made with
  | @boolean token kind =>
    rw [seen_meaningAt (show tree.children[0]? = some (.leaf token) by simp [same])]
    exact leaf_other token
  | @keyword token kind =>
    rw [seen_meaningAt (show tree.children[0]? = some (.leaf token) by simp [same])]
    exact leaf_other token
  | single listed derived =>
    refine phrase (by simp [same]) derived ?_
    simp only [mem_cons,not_mem_nil,or_false] at listed
    rcases listed with rfl | rfl | rfl | rfl | rfl | rfl <;> decide
  | array listed derived =>
    refine phrase (by simp [same]) derived ?_
    simp only [mem_cons,not_mem_nil,or_false] at listed
    rcases listed with rfl | rfl <;> decide

end Atoms

-- The phrase of an operation, with its operands.
structure Operating (located : Bool) (tree : Tree) (node : Fields) (level : Nat) (first last : Tree) : Prop where
  binds : tree.binding? = some level
  before : tree.children.head? = some first
  after : tree.children.getLast? = some last
  left : first.Proper .expression
  right : last.Proper .expression
  firstMeans : ∃ value, first.meaning located = .ok value ∧ node.firstOperand? = some value
  lastMeans : ∃ value, last.meaning located = .ok value ∧ node.lastOperand? = some value

theorem binaryKinds_checked : ∀ kind ∈ Expression.binaryKinds, kind.spelling?.isSome = true := by
  decide

theorem Operating.intro (proper : tree.Proper .expression) {operator : Token} {first last : Tree} (middle : List Tree)
    (same : tree.children = first :: .leaf operator :: (middle ++ [last])) {one two : Nat}
    (left : Derives .expression one first) (right : Derives .expression two last) {level count : Nat}
    (binds : operator.kind.binding? = some level) {node : Fields} {before after : Value}
    (operates : (tree.seen located).Operates (.node node) count before after) :
    Operating located tree node level first last := by
  have inner {child : Tree} {bound : Nat} (member : child ∈ tree.children) (derived : Derives .expression bound child) :
      child.Proper .expression :=
    proper.inner (mem_inner.mpr ⟨member,rule?_eq.mpr (Form.Derives.member_eq derived)⟩)
  obtain ⟨_,derives⟩ := proper.derives
  have length := seen_count operates.counted
  have ending : tree.children.getLast? = some last := by
    rw [same,← cons_append,← cons_append]
    exact List.getLast?_concat
  obtain ⟨again,_,_,equal,isFirst,isLast,_⟩ := operates.made
  cases Value.node.inj equal
  have start := operates.before
  have stop := operates.after
  rw [seen_meaningAt (show tree.children[0]? = some first by simp [same])] at start
  rw [← length,seen_meaningAt (show tree.children[tree.children.length - 1]? = some last by
    rw [← List.getLast?_eq_getElem?,ending])] at stop
  refine ⟨?_,by simp [same],ending,inner (by simp [same]) left,inner (by simp [same]) right,⟨_,start,isFirst⟩,
    ⟨_,stop,isLast⟩⟩
  rw [binding?,operator?,derives.isExpression,if_pos rfl,same]
  simp [left.isExpression,binds]

theorem Proper.operating (proper : tree.Proper .expression) (means : tree.meaning located = .ok value)
    (binds : value.binding? = some level) :
    ∃ node first last, value = .node node ∧ Operating located tree node level first last := by
  obtain ⟨_,derives⟩ := proper.derives
  have made := Expression.derives_made derives
  generalize same : tree.children = children at made
  rw [meaning_seen proper.rule_eq] at means
  rcases Phrase.expression_operates value means with atomic | ⟨counted,alone⟩ | ⟨count,left,right,operates⟩
  · cases binds.symm.trans atomic
  · have length := seen_count counted
    rw [same] at length
    cases made with
    | @primary atom derived =>
      rw [seen_meaningAt (show tree.children[0]? = some atom by simp [same])] at alone
      have inside := mem_inner.mpr ⟨show atom ∈ tree.children by simp [same],rule?_eq.mpr (Form.Derives.member_eq derived)⟩
      cases binds.symm.trans ((proper.inner inside).atom_other (by decide) value alone).atomic
    | slice => simp at length
    | _ => cases length
  · have length := seen_count operates.counted
    rw [same] at length
    obtain ⟨node,kind,word,rfl,_,_,operator,between,told⟩ := operates.made
    have level : kind.binding? = some level := by
      rw [Value.binding?,Fields.binding?,operator] at binds
      exact binds
    -- The operator is told by what stands in second place.
    have known {token : Token} (found : tree.children[1]? = some (.leaf token)) (spelled : token.kind.spelling?.isSome = true) :
        token.kind = kind := by
      obtain ⟨text,spelled⟩ := Option.isSome_iff_exists.mp spelled
      have written : token.text = text := proper.leaf_text (mem_of_getElem? found) spelled
      rw [seen_textAt found] at between
      have word : text = word := written.symm.trans (Except.ok.inj between)
      exact Option.some.inj ((Kind.ofWord?_spelling spelled).symm.trans (word ▸ told))
    have odd : children.length ≠ 4 := by have := operates.several; omega
    have long : 3 ≤ children.length := by have := operates.several; omega
    cases made with
    | primary | creation | before | after => simp at long
    | index | options | call => simp at odd
    | @parentheses opening closing inside opens closes _ =>
      have first : opening.text = "(" := proper.leaf_text (by simp [same]) (by rw [opens]; rfl)
      have last : closing.text = ")" := proper.leaf_text (by simp [same]) (by rw [closes]; rfl)
      refine absurd ?_ (operates.bare length.symm ?_)
      · rw [seen_textAt (show tree.children[2]? = some (.leaf closing) by simp [same])]
        exact congrArg _ last
      · rw [seen_textAt (show tree.children[0]? = some (.leaf opening) by simp [same])]
        exact congrArg _ first
    | @slice opening _ _ _ start _ opens =>
      have bracket := known (show tree.children[1]? = some (.leaf opening) by simp [same]) (by rw [opens]; rfl)
      rw [← bracket,opens] at level
      cases level
    | @member dot _ _ isDot =>
      have period := known (show tree.children[1]? = some (.leaf dot) by simp [same]) (by rw [isDot]; rfl)
      rw [← period,isDot] at level
      cases level
    | @between token one two _ listed first second =>
      have operator := known (show tree.children[1]? = some (.leaf token) by simp [same]) (binaryKinds_checked _ listed)
      exact ⟨node,one,two,rfl,.intro proper [] same first second (operator ▸ level) operates⟩
    | @conditional question colon condition yes no asks _ first _ third =>
      have operator := known (show tree.children[1]? = some (.leaf question) by simp [same]) (by rw [asks]; rfl)
      exact ⟨node,condition,no,rfl,
        .intro proper [yes,.leaf colon] same first third (operator ▸ level) operates⟩

end Tree

theorem Rule.operations_checked : ∀ rule : Rule, (rule == .expression ||
    rule.makes.all fun made => !Fields.operations.contains made.1) = true := by
  decide

theorem Made.isExpression
    (made : Made phrase rule type fields) (operation : type ∈ Fields.operations) : rule = .expression := by
  have checked := Rule.operations_checked rule
  rw [Bool.or_eq_true,beq_iff_eq] at checked
  refine checked.resolve_right fun lacking => ?_
  have absent := all_eq_true.mp lacking _ made.listed
  rw [contains_iff_mem.mpr operation] at absent
  cases absent

namespace Tree

variable {located : Bool} {tree : Tree}

theorem whole_phrase (means : tree.meaning located = .ok value) : value.All fun node =>
    ∀ type ∈ Fields.wholes, node.get? "type" = some (.text type) → ∃ phrase ∈ tree.phrases, ∃ rule fields,
      phrase.rule? = some rule ∧ Made (phrase.seen located) rule type fields ∧
        phrase.meaning located = .ok (.node node) := by
  let Comes (tree : Tree) (node : Fields) : Prop :=
    ∀ type ∈ Fields.wholes, node.get? "type" = some (.text type) → ∃ phrase ∈ tree.phrases, ∃ rule fields,
      phrase.rule? = some rule ∧ Made (phrase.seen located) rule type fields ∧
        phrase.meaning located = .ok (.node node)
  refine @nodes_hold Comes (fun _ => True) located ?_ ?_ tree (fun _ _ => trivial) value means
  · intro tree phrase inside node comes type listed typed
    obtain ⟨inner,below,found⟩ := comes type listed typed
    exact ⟨inner,phrases_trans inside below,found⟩
  · intro tree rule found _ type fields place made placed _ other listed typed
    cases Value.text.inj (Option.some.inj typed)
    refine ⟨tree,self_mem found,rule,fields,found,made,?_⟩
    rw [meaning_seen found,made.whole listed,Phrase.node_eq,placed]
    rfl

theorem operation_phrase (means : tree.meaning located = .ok value) : value.All fun node =>
    node.binding?.isSome = true → ∃ phrase ∈ tree.phrases, phrase.rule? = some .expression ∧
      phrase.meaning located = .ok (.node node) := by
  intro node member binds
  by_cases other : (Value.node node).OtherThan Fields.operations
  · rw [show node.binding? = none from other.atomic] at binds
    cases binds
  · simp only [Value.OtherThan,not_forall,not_not] at other
    obtain ⟨type,listed,typed⟩ := other
    obtain ⟨phrase,inside,rule,fields,found,made,same⟩ :=
      whole_phrase means node member type (mem_cons_of_mem _ listed) typed
    cases made.isExpression listed
    exact ⟨phrase,inside,found,same⟩

theorem Proper.nestsLeft (proper : tree.Proper rule) (left : ∀ phrase ∈ tree.phrases, phrase.LeftBinds)
    (right : ∀ phrase ∈ tree.phrases, phrase.RightBinds) (means : tree.meaning located = .ok value) :
    value.All Fields.NestsLeft := by
  intro node member level binds
  obtain ⟨phrase,inside,found,made⟩ := operation_phrase means node member (by rw [Option.mem_def.mp binds]; rfl)
  obtain ⟨own,derived⟩ := proper.phrases inside
  cases derived.same found
  obtain ⟨_,first,last,equal,operating⟩ := derived.operating made binds
  cases Value.node.inj equal
  obtain ⟨before,firstMeans,isFirst⟩ := operating.firstMeans
  obtain ⟨after,lastMeans,isLast⟩ := operating.lastMeans
  refine ⟨before,isFirst,after,isLast,fun inner bound => ?_,fun inner bound => ?_⟩
  · obtain ⟨_,_,_,_,deeper⟩ := operating.left.operating firstMeans bound
    exact (binds_of (left phrase inside) (right phrase inside)).first level operating.binds first operating.before inner
      deeper.binds
  · obtain ⟨_,_,_,_,deeper⟩ := operating.right.operating lastMeans bound
    exact (right phrase inside last operating.after inner deeper.binds).2 level operating.binds

end Tree

-- In a text that is read without complaint, operators of one level hang to the left in the abstract tree, and no operand
-- binds less tightly than its operation.  This is so for all levels, those of powers, conditionals and assignments too.
theorem parse_nests_left (text start : String) (located : Bool) (value : Value)
    (parsed : parse text start located = (.ok value,[])) : ∀ node ∈ value.nodes, Fields.NestsLeft node := by
  obtain ⟨rule,_,means,clean⟩ := parse_ok parsed
  obtain ⟨input,tree,final,ahead,ran,result⟩ := Reading.ofText_ran rule text
  have closed : Token.Closed input.ahead := ahead ▸ closed_visible text
  have proper := Reading.ofText_proper clean
  rw [result] at clean means proper
  have quiet : final.diagnostics = [] := reverse_eq_nil_iff.mp (append_eq_nil_iff.mp clean).2
  obtain ⟨_,_,derives,_⟩ := Parse.outcome_last closed ran quiet
  exact proper.nestsLeft (Parse.outcome_leftBinds closed ran quiet) (fun _ => derives.rightBinds_phrase) means

-- The second of two assignments is not the value of the first: the first is what the second assigns to.
theorem assignments_nest_left : ∃ node : Fields, parse Parse.assignedProduct "expression" false = (.ok (.node node),[]) ∧
    node.binding? = some 2 ∧ (∃ first ∈ node.firstOperand?, first.binding? = some 2) ∧
    ∃ last ∈ node.lastOperand?, ∀ inner ∈ last.binding?, 2 < inner := by
  have read := Parse.assignedProduct_read
  rw [Parse.assignedTwice,Bool.and_eq_true,Bool.and_eq_true,Bool.and_eq_true,List.isEmpty_iff] at read
  obtain ⟨⟨⟨silent,_⟩,_⟩,shown⟩ := read
  have known : Rule.ofName? "expression" = some .expression := by decide
  split at shown
  · rename_i inner right means
    have parsed := parse_known known Parse.assignedProduct false
    rw [means,silent] at parsed
    have assigns : Kind.ofWord? "=" = some .assign := by decide
    have bound : ∀ rest, Fields.binding? (("type",.text "BinaryOperation") :: ("operator",.text "=") :: rest) = some 2 := by
      intro rest
      have operator : Fields.operator? (("type",.text "BinaryOperation") :: ("operator",.text "=") :: rest) =
        Kind.ofWord? "=" := rfl
      rw [Fields.binding?,operator,assigns]
      rfl
    obtain ⟨_,_,last,isLast,_,after⟩ :=
      parse_nests_left Parse.assignedProduct "expression" false _ parsed _ List.mem_cons_self 2 (bound _)
    exact ⟨_,parsed,bound _,⟨_,rfl,bound _⟩,last,isLast,after⟩
  · cases shown

end SolReader
