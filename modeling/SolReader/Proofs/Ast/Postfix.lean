import SolReader.Proofs.Ast.Faithful
import SolReader.Proofs.Ast.Operators
import SolReader.Proofs.Grammar.Rows
import SolReader.Proofs.Outline.Blocks

namespace SolReader

open List

theorem paired_last {α β : Type} {related : α → β → Prop} {items : List α} {values : List β}
    (paired : List.Forall₂ related items values) {item : α} (last : items.getLast? = some item) :
    ∃ value, values.getLast? = some value ∧ related item value := by
  rw [List.getLast?_eq_getElem?] at last ⊢
  rw [← paired.length_eq]
  exact paired_at paired last

namespace Tree

-- One value for each tree, in order.
def Mean (located : Bool) : List Tree → List Value → Prop :=
  List.Forall₂ fun tree value => tree.meaning located = .ok value

variable {rule : Rule} {tree : Tree} {located : Bool}

theorem Derives.row_checked (derives : Derives rule level tree) {holds : List Member → Bool}
    (checked : (rule.rows.any fun rows => rows.all holds) = true) : holds (tree.children.map member) = true := by
  cases listed : rule.rows with
  | none =>
    rw [listed] at checked
    cases checked
  | some rows =>
    rw [listed] at checked
    exact all_eq_true.mp checked _ (derives.mem_rows listed)

section Rows

variable (proper : tree.Proper rule) (index : Nat) (kind : Kind) (word : String)

include proper

theorem Proper.leaf_at (found : (tree.children.map member)[index]? = some (.token kind))
    (spelled : kind.spelling? = some word) : ∃ token, tree.children[index]? = some (.leaf token) ∧ token.text = word := by
  rw [List.getElem?_map,Option.map_eq_some_iff] at found
  obtain ⟨child,here,sort⟩ := found
  have inside := mem_of_getElem? here
  rcases proper.child inside with ⟨token,rfl,_⟩ | ⟨other,own⟩
  · cases sort
    exact ⟨token,here,proper.leaf_text inside spelled⟩
  · rw [rule?_eq.mp own.rule_eq] at sort
    cases sort

theorem Proper.word_at (found : (tree.children.map member)[index]? = some (.token kind))
    (spelled : kind.spelling? = some word) : Part.textAt (tree.seen located) index = .ok word := by
  obtain ⟨token,here,text⟩ := proper.leaf_at index kind word found spelled
  rw [seen_textAt here,text_leaf,text]

end Rows

theorem counted_of_row {row : List Member} (shape : tree.children.map member = row) (present : row ≠ []) :
    (tree.seen located).count = .ok row.length := by
  have filled : (tree.seen located).parts ≠ [] := by
    rintro absent
    apply present
    rw [← shape,map_eq_nil_iff.mp (show tree.children.map (understood located) = [] from absent)]
    rfl
  rw [Phrase.count_eq filled,← shape]
  simp [seen]

theorem listOf_mean : Yields (fun value => ∃ values, value = .list values ∧ Mean located tree.children values)
    (Part.listOf (tree.seen located).parts) := by
  rw [Part.listOf,show (tree.seen located).parts = tree.children.map (understood located) from rfl,meanings_understood]
  exact (Yields.paired _).bind fun values paired => .ok ⟨values,rfl,paired⟩

-- A phrase with options, an index and a slice, by the sorts of their parts.
def optionsRow : List Member := [.phrase .expression,.token .lbrace,.phrase .nameValueList,.token .rbrace]

def indexRow : List Member := [.phrase .expression,.token .lbracket,.phrase .expression,.token .rbracket]

def sliceRow (start stop : Bool) : List Member :=
  [.phrase .expression,.token .lbracket] ++ (if start then [.phrase .expression] else []) ++ [.token .colon] ++
    (if stop then [.phrase .expression] else []) ++ [.token .rbracket]

def callRow : List Member := [.phrase .expression,.token .lparen,.phrase .functionCallArguments,.token .rparen]

end Tree

theorem Value.type_of_isOf {node : Fields} (isType : Value.isOf [type] node = true) :
    node.get? "type" = some (.text type) := by
  rw [Value.isOf,Fields.typeName] at isType
  split at isType
  · rename_i found
    split at found
    · rename_i name has
      cases found
      rw [has,mem_singleton.mp (contains_iff_mem.mp isType)]
    · cases found
    · cases found
  · cases isType

set_option maxRecDepth 100000 in
theorem Rule.expression_one : (Rule.expression.rows.any fun rows => rows.all fun row => row.length != 1 ||
    row == [.phrase .primaryExpression]) = true := by
  decide

set_option maxRecDepth 100000 in
theorem Rule.expression_options : (Rule.expression.rows.any fun rows => rows.all fun row =>
    !row.contains (.phrase .nameValueList) || row == Tree.optionsRow) = true := by
  decide

set_option maxRecDepth 100000 in
theorem Rule.expression_four : (Rule.expression.rows.any fun rows => rows.all fun row => row.length != 4 ||
    [Tree.optionsRow,Tree.indexRow,Tree.sliceRow false false,Tree.callRow].contains row) = true := by
  decide

-- The types of the nodes of all expressions but indexes.
def Fields.unindexed : List String :=
  Fields.atoms ++ ["MemberAccess","BinaryOperation","Conditional","FunctionCall"]

namespace Phrase

open SolReader.Part

variable {phrase : Phrase} {types : List String} (apart : ∀ type ∈ Fields.unindexed, type ∉ types)

include apart

theorem node_other (type : String) (listed : type ∈ Fields.unindexed) (fields : Fields) :
    Yields (Value.OtherThan types) (phrase.node type fields) :=
  node_gives fun _ => Value.OtherThan.node (apart type listed) _

theorem ofThree_other : Yields (Value.OtherThan types) phrase.ofThree := by
  refine .chain fun _ _ => .chain fun _ _ => ?_
  split
  · exact .chain fun _ _ => node_other apart _ (by decide) _
  · refine .chain fun _ _ => ?_
    split
    · exact .chain fun _ _ => .chain fun _ _ => node_other apart _ (by decide) _
    · split
      · exact .chain fun _ _ => .chain fun _ _ => node_other apart _ (by decide) _
      · split
        · exact .chain fun _ _ => .chain fun _ _ => node_other apart _ (by decide) _
        · exact listOf_other _ _

theorem ofFive_other : Yields (Value.OtherThan types) phrase.ofFive := by
  refine .chain fun _ _ => .chain fun _ _ => ?_
  split
  · exact .chain fun _ _ => .chain fun _ _ => .chain fun _ _ => node_other apart _ (by decide) _
  · exact listOf_other _ _

theorem ofFour_index : Yields (fun value => value.OtherThan types ∨ textAt phrase 1 = .ok "[" ∧ textAt phrase 3 = .ok "]")
    phrase.ofFour := by
  refine .chain fun opening opens => .chain fun closing closes => ?_
  split
  · exact .chain fun _ _ => .chain fun _ _ => (node_other apart _ (by decide) _).imp fun _ => .inl
  · split
    · rename_i both
      rw [Bool.and_eq_true,decide_eq_true_eq,decide_eq_true_eq] at both
      rw [both.1] at opens
      rw [both.2] at closes
      exact fun _ _ => .inr ⟨opens,closes⟩
    · exact (listOf_other _ _).imp fun _ => .inl

theorem expression_index : Yields (fun value => value.OtherThan types ∨ phrase.count = .ok 1 ∧ meaningAt phrase 0 = .ok value ∨
    phrase.count = .ok 4 ∧ textAt phrase 1 = .ok "[" ∧ textAt phrase 3 = .ok "]") phrase.expression := by
  refine .chain fun count counted => ?_
  match count with
  | 0 => exact (listOf_other _ _).imp fun _ => .inl
  | 1 => exact fun value means => .inr (.inl ⟨counted,means⟩)
  | 2 => exact (ofTwo_other fun type atom => apart type (mem_append_left _ atom)).imp fun _ => .inl
  | 3 => exact (ofThree_other apart).imp fun _ => .inl
  | 4 => exact (ofFour_index apart).imp fun _ => .imp_right fun brackets => .inr ⟨counted,brackets⟩
  | 5 => exact (ofFive_other apart).imp fun _ => .inl
  | _ + 6 => exact (listOf_other _ _).imp fun _ => .inl

end Phrase

namespace Tree

variable {tree : Tree} {located : Bool}

theorem lastMeaning_last {last : Tree} (isLast : tree.children.getLast? = some last) :
    Yields (fun value => last.meaning located = .ok value) (tree.seen located).lastMeaning := by
  rw [Phrase.lastMeaning,show (tree.seen located).parts = tree.children.map (understood located) from rfl,
    meanings_understood]
  refine (Yields.paired _).bind fun values paired => .ok ?_
  obtain ⟨value,found,means⟩ := paired_last paired isLast
  rw [found]
  exact means

section Options

-- Whether a comma is left behind the last option.
def trailing (list : Tree) : Bool :=
  list.children.getLast?.any (·.member == .token .comma)

-- What is left of a list of options.
def OptionsMean (located : Bool) (list : Tree) (value : Value) : Prop :=
  (list.trailing = true → value = .text ",") ∧ (list.trailing = false → ∃ pair expression,
    (list.inner .nameValue).getLast? = some pair ∧ pair.inner .expression = [expression] ∧
    expression.meaning located = .ok value)

theorem getLast_rounds (first : Tree) (rounds : List (Token × Tree)) :
    (first :: rounds.flatMap fun round => [.leaf round.1,round.2]).getLast? = (first :: rounds.map Prod.snd).getLast? := by
  induction rounds using List.reverseRecOn with
  | nil => rfl
  | append_singleton rounds round _ =>
    rw [flatMap_append,map_append,← cons_append,← cons_append,List.getLast?_append,List.getLast?_append]
    rfl

theorem Proper.nameValue_value (proper : tree.Proper .nameValue) (located : Bool) :
    ∃ expression, tree.inner .expression = [expression] ∧ Yields (fun value => expression.meaning located = .ok value) (tree.meaning located) := by
  obtain ⟨level,derives⟩ := proper.derives
  obtain ⟨name,colon,value,split,_,named,valued⟩ := derives.nameValue
  have isName := Form.Derives.member_eq named
  have isValue := Form.Derives.member_eq valued
  have isColon : (leaf colon).member = .token colon.kind := rfl
  refine ⟨value,by simp [inner_eq,split,isName,isColon,isValue],?_⟩
  rw [meaning_seen proper.rule_eq]
  exact lastMeaning_last (by rw [split]; rfl)

theorem Derives.nameValueList_last (derives : Derives .nameValueList level tree) :
    ∃ last, tree.children.getLast? = some last ∧
      (tree.trailing = true → ∃ comma : Token, comma.kind = .comma ∧ last = .leaf comma) ∧
      (tree.trailing = false → (tree.inner .nameValue).getLast? = some last) := by
  have spells := derives.spelled_alone rfl
  simp only [Form.row,Form.opt,Form.tok,Form.spells_seq,Form.spells_optional,Form.spells_token] at spells
  obtain ⟨pairs,_,list,rfl | ⟨comma,kind,rfl⟩,split⟩ := spells
  · obtain ⟨first,rounds,one,made,rfl⟩ := Form.commaList_shape list
    rw [append_nil] at split
    have items := Core.inner_commaList one (fun round member => (made round member).2) split
    obtain ⟨last,isLast⟩ : ∃ last, tree.children.getLast? = some last :=
      ⟨_,List.getLast?_eq_some_getLast (by rw [split]; exact cons_ne_nil _ _)⟩
    have same : (tree.inner .nameValue).getLast? = some last := by rw [items,← getLast_rounds,← split,isLast]
    refine ⟨last,isLast,fun ends => ?_,fun _ => same⟩
    rw [trailing,isLast,Option.any_some,rule?_eq.mp (mem_inner.mp (mem_of_getLast? same)).2] at ends
    cases ends
  · have isLast : tree.children.getLast? = some (.leaf comma) := by rw [split,List.getLast?_concat]
    refine ⟨_,isLast,fun _ => ⟨comma,kind,rfl⟩,fun open_ => ?_⟩
    rw [trailing,isLast,Option.any_some,Tree.member,kind] at open_
    cases open_

theorem Proper.nameValueList_means (proper : tree.Proper .nameValueList) :
    Yields (tree.OptionsMean located) (tree.meaning located) := by
  obtain ⟨level,derives⟩ := proper.derives
  obtain ⟨last,isLast,comma,pair⟩ := derives.nameValueList_last
  rw [meaning_seen proper.rule_eq]
  intro value means
  have own : last.meaning located = .ok value := lastMeaning_last isLast value means
  refine ⟨fun ends => ?_,fun ends => ?_⟩
  · obtain ⟨token,kind,rfl⟩ := comma ends
    have text := proper.leaf_text (mem_of_getLast? isLast) (show token.kind.spelling? = some "," by rw [kind]; rfl)
    exact (Except.ok.inj own).symm.trans (congrArg Value.text text)
  · have found := pair ends
    obtain ⟨expression,only,yields⟩ := (proper.inner (mem_of_getLast? found)).nameValue_value located
    exact ⟨last,expression,found,only,yields value own⟩

end Options

section Forms

variable {types : List String}
variable (proper : tree.Proper .expression)

include proper

theorem Proper.meaning_counted {row : List Member} (shape : tree.children.map member = row) (filled : row ≠ []) :
    tree.meaning located = match row.length with
      | 1 => Part.meaningAt (tree.seen located) 0
      | 2 => (tree.seen located).ofTwo
      | 3 => (tree.seen located).ofThree
      | 4 => (tree.seen located).ofFour
      | 5 => (tree.seen located).ofFive
      | _ => Part.listOf (tree.seen located).parts := by
  have whole : tree.meaning located = (tree.seen located).expression := meaning_seen proper.rule_eq located
  exact whole.trans (Phrase.expression_counted (counted_of_row shape filled))

theorem Proper.bracketed_index
    (shape : tree.children.map member = [.phrase .expression,.token .lbracket,middle,.token .rbracket]) :
    Yields (Value.IsNode fun node => Value.isOf ["IndexAccess"] node = true ∧ ∃ base place,
      Part.meaningAt (tree.seen located) 0 = .ok base ∧ node.get? "base" = some base ∧
      Part.meaningAt (tree.seen located) 2 = .ok place ∧ node.get? "index" = some place) (tree.meaning located) := by
  rw [proper.meaning_counted shape (cons_ne_nil _ _)]
  change Yields _ (tree.seen located).ofFour
  rw [Phrase.ofFour,proper.word_at 1 .lbracket "[" (by rw [shape]; rfl) rfl]
  refine Yields.chain fun opening opens => ?_
  cases opens
  rw [proper.word_at 3 .rbracket "]" (by rw [shape]; rfl) rfl]
  refine Yields.chain fun closing closes => ?_
  cases closes
  refine Yields.chain fun base first => Yields.chain fun place third => ?_
  refine Phrase.yields_node fun fields placed _ => ⟨_,rfl,rfl,base,place,first,?_,third,?_⟩
  · exact Fields.get?_made placed (by decide) (by decide)
  · exact Fields.get?_made placed (by decide) (by decide)

theorem Proper.options_list (shape : tree.children.map member = optionsRow) :
    Yields (fun value => ∃ values, value = .list values ∧ Mean located tree.children values) (tree.meaning located) := by
  rw [proper.meaning_counted shape (cons_ne_nil _ _)]
  change Yields _ (tree.seen located).ofFour
  rw [Phrase.ofFour,proper.word_at 1 .lbrace "\x7b" (by rw [shape]; rfl) rfl]
  refine Yields.chain fun opening opens => Yields.any.bind fun closing _ => ?_
  cases opens
  exact listOf_mean

theorem Proper.slice_list (bounded : (start || stop) = true)
    (shape : tree.children.map member = sliceRow start stop) :
    Yields (fun value => ∃ values, value = .list values ∧ Mean located tree.children values) (tree.meaning located) := by
  have five (row : List Member) (shape : tree.children.map member = row) (long : row.length = 5)
      (opens : row[1]? = some (.token .lbracket)) :
      Yields (fun value => ∃ values, value = .list values ∧ Mean located tree.children values) (tree.meaning located) := by
    rw [proper.meaning_counted shape (ne_nil_of_length_pos (by omega)),long]
    change Yields _ (tree.seen located).ofFive
    rw [Phrase.ofFive,proper.word_at 1 .lbracket "[" (by rw [shape]; exact opens) rfl]
    refine Yields.chain fun question asks => Yields.any.bind fun colon _ => ?_
    cases asks
    exact listOf_mean
  cases start with
  | false =>
    cases stop with
    | false => cases bounded
    | true => exact five _ shape rfl rfl
  | true =>
    cases stop with
    | false => exact five _ shape rfl rfl
    | true =>
      rw [proper.meaning_counted shape (cons_ne_nil _ _)]
      exact listOf_mean

-- An index is written between brackets, and so is the colon of a slice without bounds.
theorem Proper.other_or_bracketed (apart : ∀ type ∈ Fields.unindexed, type ∉ types) :
    Yields (fun value => value.OtherThan types ∨ tree.children.map member = indexRow ∨
      tree.children.map member = sliceRow false false) (tree.meaning located) := by
  obtain ⟨level,derives⟩ := proper.derives
  rw [meaning_seen proper.rule_eq]
  intro value means
  rcases Phrase.expression_index apart _ means with other | ⟨counted,alone⟩ | ⟨counted,opens,closes⟩
  · exact .inl other
  · -- A single part is an atom.
    have row := derives.row_checked Rule.expression_one
    rw [length_map,seen_count counted,bne_self_eq_false,Bool.false_or,beq_iff_eq] at row
    obtain ⟨atom,only,sort⟩ := map_eq_singleton_iff.mp row
    rw [seen_meaningAt (show tree.children[0]? = some atom by rw [only]; rfl)] at alone
    have inside := mem_inner.mpr ⟨show atom ∈ tree.children by simp [only],rule?_eq.mpr sort⟩
    exact .inl ((proper.inner inside).atom_other (fun type atom => apart type (mem_append_left _ atom)) _ alone)
  · have own := derives.row_checked Rule.expression_four
    rw [length_map,seen_count counted] at own
    have opened {kind : Kind} {word : String} {others : List Member} (spelled : kind.spelling? = some word)
        (shape : tree.children.map member = .phrase .expression :: .token kind :: others) : word = "[" :=
      Except.ok.inj ((proper.word_at 1 kind word (by rw [shape]; rfl) spelled).symm.trans opens)
    simp only [bne_self_eq_false,Bool.false_or,contains_iff_mem,mem_cons,not_mem_nil,or_false] at own
    rcases own with row | row | row | row
    · exact absurd (opened rfl row) (by decide)
    · exact .inr (.inl row)
    · exact .inr (.inr row)
    · exact absurd (opened rfl row) (by decide)

theorem Proper.expression_other (apart : ∀ type ∈ "IndexAccess" :: Fields.unindexed, type ∉ types) :
    Yields (Value.OtherThan types) (tree.meaning located) := by
  intro value means
  have bracketed {middle : Member}
      (shape : tree.children.map member = [.phrase .expression,.token .lbracket,middle,.token .rbracket]) :
      value.OtherThan types := by
    obtain ⟨node,rfl,sort,_⟩ := proper.bracketed_index shape value means
    intro type listed same
    cases Value.text.inj (Option.some.inj ((Value.type_of_isOf sort).symm.trans same))
    exact apart _ mem_cons_self listed
  rcases proper.other_or_bracketed (fun type listed => apart type (mem_cons_of_mem _ listed)) value means with
    other | shape | shape
  · exact other
  · exact bracketed shape
  · exact bracketed shape

end Forms

theorem Proper.options_kept (proper : tree.Proper .expression) (held : list ∈ tree.inner .nameValueList) :
    Yields (fun value => ∃ callee base options, tree.children.head? = some callee ∧ callee.meaning located = .ok base ∧
      list.OptionsMean located options ∧ value = .list [base,.text "\x7b",options,.text "\x7d"])
      (tree.meaning located) := by
  obtain ⟨level,derives⟩ := proper.derives
  obtain ⟨member,isRule⟩ := mem_inner.mp held
  have row := derives.row_checked Rule.expression_options
  rw [contains_iff_mem.mpr (mem_map.mpr ⟨list,member,rule?_eq.mp isRule⟩),Bool.not_true,Bool.false_or,
    beq_iff_eq] at row
  have lists : Yields (list.OptionsMean located) (list.meaning located) := (proper.inner held).nameValueList_means
  obtain ⟨opening,second,opens⟩ := proper.leaf_at 1 .lbrace "\x7b" (by rw [row]; rfl) rfl
  obtain ⟨closing,fourth,closes⟩ := proper.leaf_at 3 .rbrace "\x7d" (by rw [row]; rfl) rfl
  refine (proper.options_list row).imp ?_
  rintro _ ⟨values,rfl,mean⟩
  simp only [optionsRow,map_eq_cons_iff,map_eq_nil_iff] at row
  obtain ⟨callee,_,split,isCallee,_,_,rfl,isOpening,third,_,rfl,isList,_,_,rfl,isClosing,rfl⟩ := row
  rw [split] at mean second fourth member
  cases Option.some.inj second
  cases Option.some.inj fourth
  simp only [mem_cons,not_mem_nil,or_false] at member
  have same : list = third := by
    rw [rule?_eq] at isRule
    rcases member with rfl | rfl | rfl | rfl
    · cases isCallee.symm.trans isRule
    · cases isOpening.symm.trans isRule
    · rfl
    · cases isClosing.symm.trans isRule
  cases same
  simp only [Mean,forall₂_cons_left_iff,forall₂_nil_left_iff] at mean
  obtain ⟨base,_,first,⟨_,_,left,⟨options,_,own,⟨_,_,right,rfl,rfl⟩,rfl⟩,rfl⟩,rfl⟩ := mean
  cases left
  cases right
  exact ⟨callee,base,options,by rw [split]; rfl,first,lists _ own,by rw [opens,closes]⟩

end Tree

-- In a text read without complaint, an expression with options means a list, in which of the options the value of the last
-- is left, or the comma behind it.  A slice with a bound means the list of what its pieces mean.  An index keeps what is
-- indexed and the index, but a slice without bounds is an index as well, with its colon; nothing else is one.
theorem parse_postfix {text start : String} {located : Bool} {rule : Rule} (known : Rule.ofName? start = some rule)
    (clean : (parse text start located).2 = []) {phrase : Tree}
    (inside : phrase ∈ (Reading.ofText rule text).tree.phrases) (found : phrase.rule? = some .expression) :
    (∀ list ∈ phrase.inner .nameValueList, ∃ callee base options, phrase.children.head? = some callee ∧
      callee.meaning located = .ok base ∧ list.OptionsMean located options ∧
      phrase.meaning located = .ok (.list [base,.text "\x7b",options,.text "\x7d"])) ∧
    (∀ lower upper, (lower || upper) = true → phrase.children.map Tree.member = Tree.sliceRow lower upper →
      ∃ values, phrase.meaning located = .ok (.list values) ∧ Tree.Mean located phrase.children values) ∧
    (∀ middle, phrase.children.map Tree.member = [.phrase .expression,.token .lbracket,middle,.token .rbracket] →
      ∃ (node : Fields) (base place : Tree) (value index : Value), phrase.meaning located = .ok (.node node) ∧
        phrase.children[0]? = some base ∧ base.meaning located = .ok value ∧ node.get? "base" = some value ∧
        phrase.children[2]? = some place ∧ place.meaning located = .ok index ∧ node.get? "index" = some index ∧
        (middle = .token .colon → index = .text ":")) ∧
    ((∃ node : Fields, phrase.meaning located = .ok (.node node) ∧ Value.isOf ["IndexAccess"] node = true) ↔
      phrase.children.map Tree.member = Tree.indexRow ∨ phrase.children.map Tree.member = Tree.sliceRow false false) := by
  rw [parse_known known] at clean
  obtain ⟨_,proper⟩ := (Reading.ofText_proper clean).phrases inside
  cases proper.same found
  obtain ⟨value,means⟩ := Reading.phrase_means clean inside found nofun nofun (proper.clear rfl) located
  refine ⟨fun list held => ?_,fun lower upper bounded shape => ?_,fun middle shape => ?_,?_⟩
  · obtain ⟨callee,base,options,first,meant,left,rfl⟩ := proper.options_kept held value means
    exact ⟨callee,base,options,first,meant,left,means⟩
  · obtain ⟨values,rfl,mean⟩ := proper.slice_list bounded shape value means
    exact ⟨values,means,mean⟩
  · obtain ⟨node,rfl,_,base,place,first,hasBase,third,hasIndex⟩ := proper.bracketed_index shape value means
    have four : phrase.children.length = 4 := by simpa using congrArg List.length shape
    have at0 : phrase.children[0]? = some phrase.children[0] := List.getElem?_eq_getElem (by omega)
    have at2 : phrase.children[2]? = some phrase.children[2] := List.getElem?_eq_getElem (by omega)
    rw [Tree.seen_meaningAt at0] at first
    rw [Tree.seen_meaningAt at2] at third
    refine ⟨node,_,_,base,place,means,at0,first,hasBase,at2,third,hasIndex,?_⟩
    rintro rfl
    obtain ⟨token,here,text⟩ := proper.leaf_at 2 .colon ":" (by rw [shape]; rfl) rfl
    rw [Option.some.inj (at2.symm.trans here)] at third
    exact (Except.ok.inj third).symm.trans (congrArg Value.text text)
  · constructor
    · rintro ⟨node,own,index⟩
      have apart : ∀ type ∈ Fields.unindexed, type ∉ ["IndexAccess"] := by decide
      refine (proper.other_or_bracketed apart _ own).resolve_left fun other => ?_
      exact other _ mem_cons_self (Value.type_of_isOf index)
    · intro shape
      obtain ⟨middle,row⟩ : ∃ middle, phrase.children.map Tree.member =
          [.phrase .expression,.token .lbracket,middle,.token .rbracket] := by
        rcases shape with shape | shape
        · exact ⟨_,shape⟩
        · exact ⟨_,shape⟩
      obtain ⟨node,rfl,index,_⟩ := proper.bracketed_index row value means
      exact ⟨node,means,index⟩

-- A slice of which neither bound is written.
def bareSlice : String := "true[:]"

set_option maxRecDepth 100000 in
theorem bareSlice_read : ((Reading.ofText .expression bareSlice).diagnostics.isEmpty &&
    (Reading.ofText .expression bareSlice).tree.children.map Tree.member == Tree.sliceRow false false) = true := by
  decide +kernel

theorem bareSlice_indexed : (parse bareSlice "expression" false).2 = [] ∧ ∃ node : Fields,
    (parse bareSlice "expression" false).1 = .ok (.node node) ∧ Value.isOf ["IndexAccess"] node = true ∧
    node.get? "index" = some (.text ":") := by
  have known : Rule.ofName? "expression" = some .expression := by decide
  have read := bareSlice_read
  rw [Bool.and_eq_true,List.isEmpty_iff,beq_iff_eq] at read
  obtain ⟨whole,shape⟩ := read
  have clean : (parse bareSlice "expression" false).2 = [] := by rw [parse_known known,whole]
  have found := (Reading.ofText_proper whole).rule_eq
  obtain ⟨_,_,bracketed,index⟩ := parse_postfix known clean (Tree.self_mem found) found
  obtain ⟨node,_,_,_,_,means,_,_,_,_,_,has,colon⟩ := bracketed (.token .colon) shape
  obtain ⟨other,again,sort⟩ := index.mpr (.inr shape)
  cases Value.node.inj (Except.ok.inj (means.symm.trans again))
  refine ⟨clean,node,?_,sort,colon rfl ▸ has⟩
  rw [parse_known known]
  exact means

end SolReader
