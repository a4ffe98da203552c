import SolReader.Proofs.Ast.Expressions

namespace SolReader

open List

variable {text : String} {before : List Char}

namespace Tree

variable {rule : Rule} {tree : Tree}

-- The texts of the tokens, in order.
def texts (tree : Tree) : List String :=
  tree.tokens.map Token.text

def holds (children : List Tree) (member : Member) : Bool :=
  children.any (isMember member)

-- What a phrase of the core language must not be: something new, call options or a slice; a string, a bare `type` or
-- `payable`, or an array type; a dotted type; a literal in several pieces; named arguments with no name or with a comma
-- behind the last.
def isCore : Tree → Bool
  | .node .expression _ _ children =>
    !holds children (.token .kwNew) && !holds children (.token .lbrace) &&
      !(holds children (.token .lbracket) && holds children (.token .colon))
  | .node .primaryExpression _ _ children =>
    children.length == 1 && !holds children (.phrase .stringLiteral) && !holds children (.token .kwType) &&
      !holds children (.token .kwPayable)
  | .node .typeNameExpression _ _ children => holds children (.phrase .elementaryTypeName)
  | .node .hexLiteral _ _ children => children.length == 1
  | .node .functionCallArguments _ _ children =>
    !holds children (.token .lbrace) || holds children (.phrase .nameValueList)
  | .node .nameValueList _ _ children => !children.getLast?.any (isMember (.token .comma))
  | _ => true

def core (tree : Tree) : Bool :=
  tree.phrases.all isCore

theorem isMember_eq (member : Member) (tree : Tree) : isMember member tree = (tree.member == member) := by
  rw [Bool.eq_iff_iff,beq_iff_eq]
  cases tree <;> simp [isMember,Tree.member,eq_comm]

theorem Proper.core_iff (proper : tree.Proper rule) :
    tree.core = true ↔ tree.isCore = true ∧ ∀ child ∈ tree.children, child.core = true := by
  obtain ⟨level,derives⟩ := proper.derives
  cases derives
  exact all_phrases_node

theorem allTokens_eq (trees : List Tree) : allTokens trees = trees.flatMap tokens := by
  induction trees with
  | nil => rfl
  | cons tree trees ih => rw [allTokens,ih,flatMap_cons]

theorem Proper.texts_eq (proper : tree.Proper rule) : tree.texts = tree.children.flatMap texts := by
  obtain ⟨level,derives⟩ := proper.derives
  cases derives
  rw [texts,tokens,allTokens_eq,map_flatMap]
  rfl

@[simp] theorem texts_leaf (token : Token) : (leaf token).texts = [token.text] := rfl

theorem text_eq (tree : Tree) : tree.text = String.join tree.texts := rfl

end Tree

-- The texts by which the parts of an expression are told apart, and the empty one.
def reserved : List String :=
  ["","new","(",","] ++ Phrase.prefixOperators

def reservedKinds : List Kind :=
  [.kwNew,.lparen,.comma] ++ Expression.prefixKinds

theorem reserved_checked :
    (reserved.all fun word => (Lexicon.first? word.toList).all reservedKinds.contains) = true := by
  decide

theorem Token.Genuine.unreserved {token : Token} (genuine : token.Genuine) (passed : token.kind ≠ .eof)
    (other : token.kind ∉ reservedKinds) : token.text ∉ reserved := by
  intro member
  have checked := all_eq_true.mp reserved_checked token.text member
  rw [genuine.first passed] at checked
  exact other (by simpa using checked)

-- Reserved texts of more than two characters are words.
def marked (letters : List Char) : Bool :=
  2 < letters.length && letters.any (!·.isAlpha)

theorem marked_checked : (reserved.all fun word => !marked word.toList) = true := by
  decide

theorem unreserved_of_marked (shows : marked text.toList = true) : text ∉ reserved := by
  intro member
  have plain := all_eq_true.mp marked_checked text member
  rw [shows] at plain
  cases plain

theorem unreserved_of_mark {after : List Char} (split : text.toList = before ++ mark ++ after)
    (shows : mark.any (!·.isAlpha) = true) (long : 2 < before.length + mark.length + after.length) : text ∉ reserved := by
  apply unreserved_of_marked
  have filled : (before ++ mark ++ after).any (!·.isAlpha) = true := by simp [shows]
  rw [split,marked,filled,Bool.and_true,decide_eq_true_eq]
  simpa [Nat.add_assoc] using long

theorem closing_checked :
    (reserved.all fun word => word.toList.getLast? != some ')' && word.toList.getLast? != some ']') = true := by
  decide

theorem unreserved_of_closing (split : text.toList = before ++ [last])
    (closes : last = ')' ∨ last = ']') : text ∉ reserved := by
  intro member
  have other := all_eq_true.mp closing_checked text member
  rcases closes with rfl | rfl <;> simp [split] at other

theorem left_checked : (Phrase.prefixOperators.all fun operator => reserved.all fun word =>
    !operator.toList.isPrefixOf word.toList ||
      reserved.contains (String.ofList (word.toList.drop operator.toList.length))) = true := by
  decide

theorem unreserved_of_operator {operator operand : String} (split : text.toList = operator.toList ++ operand.toList)
    (listed : operator ∈ Phrase.prefixOperators) (other : operand ∉ reserved) : text ∉ reserved := by
  intro member
  have checked := all_eq_true.mp (all_eq_true.mp left_checked operator listed) text member
  have starts : operator.toList.isPrefixOf text.toList = true := by
    rw [split]
    exact isPrefixOf_iff_prefix.mpr (prefix_append ..)
  rw [starts,split,drop_left,String.ofList_toList] at checked
  exact other (by simpa using checked)

theorem operators_spelled :
    (∀ kind ∈ Expression.prefixKinds, ∃ text ∈ Phrase.prefixOperators, kind.spelling? = some text) ∧
    (∀ kind ∈ Expression.stepKinds, ∃ text ∈ Phrase.stepOperators, kind.spelling? = some text) ∧
    (∀ kind ∈ Expression.binaryKinds, ∃ text ∈ Phrase.binaryOperators, kind.spelling? = some text) := by
  decide

theorem binary_checked : (Phrase.binaryOperators.all fun word => word.toList.any (!·.isAlpha)) = true := by
  decide

theorem number_checked : ([Kind.decimalNumber,.hexNumber].all fun kind => reserved.all fun word =>
    word.toList.head?.all fun letter => ((Lexicon.pattern kind).derive letter).isNever) = true := by
  decide

namespace Tree

variable {tree : Tree}

section Proper

variable {token : Token}
variable {rule other : Rule} {level : Nat} {tree child : Tree}

theorem Proper.derived (proper : tree.Proper rule) (member : child ∈ tree.children)
    (derives : Derives other level child) : child.Proper other :=
  proper.inner (mem_inner.mpr ⟨member,rule?_eq.mpr (Form.Derives.member_eq derives)⟩)

theorem Proper.letters (proper : tree.Proper rule) :
    tree.text.toList = tree.children.flatMap fun child => child.text.toList := by
  simp [text_eq,String.toList_join,proper.texts_eq,flatMap_assoc]

theorem Proper.leaf_genuine (proper : tree.Proper rule) (member : .leaf token ∈ tree.children) : token.Genuine :=
  proper.genuine token (mem_tokens_of_child member (mem_singleton.mpr rfl))

theorem Proper.text_single (proper : tree.Proper rule) (only : tree.children = [.leaf token]) :
    tree.text = token.text := by
  apply String.toList_injective
  simp [proper.letters,only]

theorem Proper.unreserved_single (proper : tree.Proper rule) (only : tree.children = [.leaf token])
    (plain : token.kind ∉ .eof :: reservedKinds) : tree.text ∉ reserved := by
  rw [mem_cons,not_or] at plain
  rw [proper.text_single only]
  exact (proper.leaf_genuine (by simp [only])).unreserved plain.1 plain.2

theorem Proper.unreserved_among {kinds : List Kind} (proper : tree.Proper rule)
    (body : rule.variants = [Form.among kinds]) (plain : ∀ kind ∈ kinds, kind ∉ .eof :: reservedKinds) :
    tree.text ∉ reserved := by
  obtain ⟨level,derives⟩ := proper.derives
  obtain ⟨token,kind,only⟩ := derives.single body
  exact proper.unreserved_single only (plain _ kind)

end Proper

section Atoms

variable {tree : Tree}

theorem unreserved_number (proper : tree.Proper .numberLiteral) : tree.text ∉ reserved := by
  obtain ⟨level,derives⟩ := proper.derives
  obtain ⟨number,listed,shape⟩ := derives.number
  have starts : ∃ rest, tree.children = .leaf number :: rest := by
    rcases shape with only | ⟨unit,_,both⟩
    · exact ⟨[],only⟩
    · exact ⟨[.leaf unit],both⟩
  obtain ⟨rest,split⟩ := starts
  have genuine := proper.leaf_genuine (show .leaf number ∈ tree.children by simp [split])
  have spelled : number.Spelled := genuine.spelled (fun ended => by simp [ended] at listed)
  have first := proper.letters
  rw [split,flatMap_cons,text_leaf] at first
  intro member
  have checked := all_eq_true.mp (all_eq_true.mp number_checked _ listed) _ member
  -- The number is not empty, and nothing that begins like it is reserved.
  rw [Token.Spelled] at spelled
  cases letters : number.text.toList with
  | nil =>
    rw [letters] at spelled
    simp only [mem_cons,not_mem_nil,or_false] at listed
    rcases listed with kind | kind <;> rw [kind] at spelled <;> revert spelled <;> decide
  | cons letter more =>
    rw [letters,Pattern.accepts_cons] at spelled
    rw [first,letters,cons_append,List.head?_cons,Option.all_some] at checked
    rw [Pattern.eq_never checked,Pattern.accepts_never] at spelled
    cases spelled

theorem unreserved_tuple (proper : tree.Proper .tupleExpression) : tree.text ∉ reserved := by
  obtain ⟨level,derives⟩ := proper.derives
  obtain ⟨opening,closing,inside,split,brackets,_⟩ := derives.tuple
  have member : .leaf closing ∈ tree.children := by simp [split]
  have letters := proper.letters
  rw [split,flatMap_append,flatMap_singleton,text_leaf] at letters
  rcases brackets with ⟨_,kind⟩ | ⟨_,kind⟩
  · rw [proper.leaf_text member (by rw [kind]; rfl)] at letters
    exact unreserved_of_closing letters (.inl rfl)
  · rw [proper.leaf_text member (by rw [kind]; rfl)] at letters
    exact unreserved_of_closing letters (.inr rfl)

theorem hex_shape (proper : tree.Proper .hexLiteral) (core : tree.core = true) :
    ∃ token, token.kind = .hexFragment ∧ tree.children = [.leaf token] := by
  obtain ⟨level,derives⟩ := proper.derives
  have one : tree.children.length = 1 := by
    have own := (proper.core_iff.mp core).1
    cases derives
    simpa [isCore,Tree.children] using own
  obtain ⟨child,only⟩ := length_eq_one_iff.mp one
  have member : child ∈ tree.children := by simp [only]
  have kind := derives.not_counted (show Rule.hexLiteral.most (· != .token .hexFragment) = some 0 by decide) member
  rcases proper.child member with ⟨token,rfl,_⟩ | ⟨other,inside⟩
  · exact ⟨token,by simpa [Tree.member] using kind,only⟩
  · simp [rule?_eq.mp inside.rule_eq] at kind

theorem unreserved_hex (proper : tree.Proper .hexLiteral) (core : tree.core = true) : tree.text ∉ reserved := by
  obtain ⟨token,kind,only⟩ := hex_shape proper core
  exact proper.unreserved_single only (by rw [kind]; decide)

theorem Proper.text_alone {rule : Rule} {child : Tree} (proper : tree.Proper rule) (only : tree.children = [child]) :
    tree.text = child.text := by
  apply String.toList_injective
  simp [proper.letters,only]

theorem elementary_shape (proper : tree.Proper .typeNameExpression) (core : tree.core = true) :
    ∃ type, tree.children = [type] ∧ type.Proper .elementaryTypeName := by
  obtain ⟨type,only,own | own⟩ := typeNameExpression_shape proper
  · exact ⟨type,only,own⟩
  · have elementary := (proper.core_iff.mp core).1
    obtain ⟨level,derives⟩ := proper.derives
    cases derives
    simp only [Tree.children] at only
    simp [isCore,only,holds,isMember_eq,rule?_eq.mp own.rule_eq] at elementary

end Atoms

-- A derivation in the core language.
structure Core (rule : Rule) (tree : Tree) : Prop where
  proper : tree.Proper rule
  core : tree.core = true

theorem Core.derived (whole : tree.Core rule)
    (member : child ∈ tree.children) (derives : Derives other level child) : child.Core other :=
  ⟨whole.proper.derived member derives,(whole.proper.core_iff.mp whole.core).2 child member⟩

-- The atoms of the core language.
inductive Atom (tree : Tree) : Prop where
  | boolean {token : Token} (only : tree.children = [.leaf token]) (kind : token.kind = .booleanLiteral)
  | phrase {rule : Rule} {child : Tree} (only : tree.children = [child]) (inner : child.Core rule)
      (listed : rule ∈ [.numberLiteral,.hexLiteral,.identifier,.tupleExpression,.typeNameExpression])

theorem Core.atom (whole : tree.Core .primaryExpression) : Atom tree := by
  obtain ⟨level,derives⟩ := whole.proper.derives
  have made := Primary.derives_made derives
  have own := (whole.proper.core_iff.mp whole.core).1
  have derived : ∀ {child : Tree} {other : Rule} {bound : Nat}, child ∈ tree.children → Derives other bound child →
      child.Core other := whole.derived
  cases derives with
  | node =>
    simp only [Tree.children] at made derived
    cases made with
    | boolean kind => exact .boolean rfl kind
    | keyword kind => rcases kind with kind | kind <;> simp [isCore,holds,isMember_eq,Tree.member,kind] at own
    | single listed derives =>
      simp only [mem_cons,not_mem_nil,or_false] at listed
      rcases listed with rfl | rfl | rfl | rfl | rfl | rfl
      case inr.inr.inl => simp [isCore,holds,isMember_eq,Form.Derives.member_eq derives] at own
      all_goals exact .phrase rfl (derived (by simp) derives) (by decide)
    | array => simp [isCore] at own

-- The expressions of the core language that are made of others.
inductive Operation (tree : Tree) : Prop where
  | primary {atom : Tree} (shape : tree.children = [atom]) (inner : atom.Core .primaryExpression)
  | parentheses {opening closing : Token} {operand : Tree} (shape : tree.children = [.leaf opening,operand,.leaf closing])
      (left : opening.text = "(") (right : closing.text = ")") (inner : operand.Core .expression)
  | before {operator : Token} {operand : Tree} (shape : tree.children = [.leaf operator,operand])
      (listed : operator.text ∈ Phrase.prefixOperators) (inner : operand.Core .expression)
  | after {operator : Token} {operand : Tree} (shape : tree.children = [operand,.leaf operator])
      (listed : operator.text ∈ Phrase.stepOperators) (inner : operand.Core .expression)
  | between {operator : Token} {one two : Tree} (shape : tree.children = [one,.leaf operator,two])
      (listed : operator.text ∈ Phrase.binaryOperators) (first : one.Core .expression) (second : two.Core .expression)
  | conditional {question colon : Token} {condition yes no : Tree}
      (shape : tree.children = [condition,.leaf question,yes,.leaf colon,no]) (asks : question.text = "?")
      (divides : colon.text = ":") (first : condition.Core .expression) (second : yes.Core .expression)
      (third : no.Core .expression)
  | index {opening closing : Token} {base place : Tree}
      (shape : tree.children = [base,.leaf opening,place,.leaf closing]) (left : opening.text = "[")
      (right : closing.text = "]") (first : base.Core .expression) (second : place.Core .expression)
  | member {dot : Token} {base name : Tree} (shape : tree.children = [base,.leaf dot,name]) (divides : dot.text = ".")
      (first : base.Core .expression) (second : name.Core .identifier)
  | call {opening closing : Token} {callee arguments : Tree}
      (shape : tree.children = [callee,.leaf opening,arguments,.leaf closing]) (left : opening.text = "(")
      (right : closing.text = ")") (first : callee.Core .expression) (second : arguments.Core .functionCallArguments)

theorem Core.operation (whole : tree.Core .expression) : Operation tree := by
  obtain ⟨level,derives⟩ := whole.proper.derives
  have made := Expression.derives_made derives
  have own := (whole.proper.core_iff.mp whole.core).1
  have derived : ∀ {child : Tree} {other : Rule} {bound : Nat}, child ∈ tree.children → Derives other bound child →
      child.Core other := whole.derived
  have text : ∀ {token : Token}, .leaf token ∈ tree.children → ∀ {kind : Kind} {word : String}, token.kind = kind →
      kind.spelling? = some word → token.text = word :=
    fun member _ _ same only => whole.proper.leaf_text member (same ▸ only)
  cases derives with
  | node =>
    simp only [Tree.children] at made derived text
    cases made with
    | primary derives => exact .primary rfl (derived (by simp) derives)
    | creation new => simp [isCore,holds,isMember_eq,Tree.member,new] at own
    | parentheses left right derives =>
      exact .parentheses rfl (text (by simp) left rfl) (text (by simp) right rfl) (derived (by simp) derives)
    | before kind derives =>
      obtain ⟨word,listed,only⟩ := operators_spelled.1 _ kind
      exact .before rfl (text (by simp) rfl only ▸ listed) (derived (by simp) derives)
    | after kind derives =>
      obtain ⟨word,listed,only⟩ := operators_spelled.2.1 _ kind
      exact .after rfl (text (by simp) rfl only ▸ listed) (derived (by simp) derives)
    | between kind first second =>
      obtain ⟨word,listed,only⟩ := operators_spelled.2.2 _ kind
      exact .between rfl (text (by simp) rfl only ▸ listed) (derived (by simp) first) (derived (by simp) second)
    | conditional asks divides first second third =>
      exact .conditional rfl (text (by simp) asks rfl) (text (by simp) divides rfl) (derived (by simp) first)
        (derived (by simp) second) (derived (by simp) third)
    | index left right first second =>
      exact .index rfl (text (by simp) left rfl) (text (by simp) right rfl) (derived (by simp) first)
        (derived (by simp) second)
    | slice left divides => simp [isCore,holds,isMember_eq,Tree.member,left,divides] at own
    | member kind first second =>
      exact .member rfl (text (by simp) kind rfl) (derived (by simp) first) (derived (by simp) second)
    | options left => simp [isCore,holds,isMember_eq,Tree.member,left] at own
    | call left right first second =>
      exact .call rfl (text (by simp) left rfl) (text (by simp) right rfl) (derived (by simp) first)
        (derived (by simp) second)

theorem Core.unreserved_atom (whole : tree.Core .primaryExpression) : tree.text ∉ reserved := by
  cases whole.atom with
  | boolean only kind => exact whole.proper.unreserved_single only (by rw [kind]; decide)
  | phrase only inner listed =>
    rw [whole.proper.text_alone only]
    simp only [mem_cons,not_mem_nil,or_false] at listed
    rcases listed with rfl | rfl | rfl | rfl | rfl
    · exact unreserved_number inner.proper
    · exact unreserved_hex inner.proper inner.core
    · exact inner.proper.unreserved_among rfl (by decide)
    · exact unreserved_tuple inner.proper
    · obtain ⟨type,alone,elementary⟩ := elementary_shape inner.proper inner.core
      rw [inner.proper.text_alone alone]
      exact elementary.unreserved_among rfl (by decide)

theorem nonempty_of_unreserved {text : String} (other : text ∉ reserved) : 0 < text.toList.length := by
  refine length_pos_iff.mpr fun empty => other ?_
  rw [String.toList_injective (empty.trans rfl : text.toList = "".toList)]
  exact mem_cons_self

theorem Core.unreserved (whole : tree.Core .expression) : tree.text ∉ reserved := by
  induction tree using by_size with
  | step tree ih =>
    have letters := whole.proper.letters
    have below : ∀ {operand : Tree}, operand ∈ tree.children → operand.Core .expression → operand.text ∉ reserved :=
      fun member inner => ih _ (size_child member) inner
    cases whole.operation with
    | primary shape inner =>
      rw [whole.proper.text_alone shape]
      exact inner.unreserved_atom
    | @parentheses opening closing operand shape left right inner =>
      rw [shape] at letters
      have split : tree.text.toList = ("(".toList ++ operand.text.toList) ++ [')'] := by simpa [left,right] using letters
      exact unreserved_of_closing split (.inl rfl)
    | before shape listed inner =>
      rw [shape] at letters
      exact unreserved_of_operator (by simpa using letters) listed (below (by simp [shape]) inner)
    | @after operator operand shape listed inner =>
      have filled := nonempty_of_unreserved (below (by simp [shape]) inner)
      rw [shape] at letters
      have split : tree.text.toList = operand.text.toList ++ operator.text.toList ++ [] := by simpa using letters
      simp only [Phrase.stepOperators,mem_cons,not_mem_nil,or_false] at listed
      rcases listed with text | text
      · rw [text] at split
        exact unreserved_of_mark split (by decide) (by simpa using filled)
      · rw [text] at split
        exact unreserved_of_mark split (by decide) (by simpa using filled)
    | @between operator one two shape listed first second =>
      have left := nonempty_of_unreserved (below (by simp [shape]) first)
      have right := nonempty_of_unreserved (below (by simp [shape]) second)
      have shows := all_eq_true.mp binary_checked _ listed
      have filled : 0 < operator.text.toList.length := length_pos_iff.mpr fun absent => by simp [absent] at shows
      rw [shape] at letters
      have split : tree.text.toList = one.text.toList ++ operator.text.toList ++ two.text.toList := by simpa using letters
      exact unreserved_of_mark split shows (by omega)
    | @conditional question colon condition yes no shape asks divides first second third =>
      have left := nonempty_of_unreserved (below (by simp [shape]) first)
      rw [shape] at letters
      have split : tree.text.toList =
          condition.text.toList ++ ['?'] ++ (yes.text.toList ++ [':'] ++ no.text.toList) := by
        simpa [asks,divides] using letters
      refine unreserved_of_mark split (by decide) ?_
      simp only [length_append,length_singleton]
      omega
    | @index opening closing base place shape left right first second =>
      rw [shape] at letters
      have split : tree.text.toList = (base.text.toList ++ "[".toList ++ place.text.toList) ++ [']'] := by
        simpa [left,right] using letters
      exact unreserved_of_closing split (.inr rfl)
    | @member dot base name shape divides first second =>
      have left := nonempty_of_unreserved (below (by simp [shape]) first)
      have right := nonempty_of_unreserved (second.proper.unreserved_among rfl (by decide))
      rw [shape] at letters
      have split : tree.text.toList = base.text.toList ++ ['.'] ++ name.text.toList := by
        simpa [divides] using letters
      refine unreserved_of_mark split (by decide) ?_
      rw [length_singleton]
      omega
    | @call opening closing callee arguments shape left right first second =>
      rw [shape] at letters
      have split : tree.text.toList = (callee.text.toList ++ "(".toList ++ arguments.text.toList) ++ [')'] := by
        simpa [left,right] using letters
      exact unreserved_of_closing split (.inl rfl)

end Tree

end SolReader
