import SolReader.Proofs.Ast.Faults
import SolReader.Proofs.Ast.Unparse
import SolReader.Proofs.Ast.Wording

namespace SolReader

open List

namespace Tree

variable {rule : Rule} {tree : Tree}

-- The abstract tree, written out, has the texts of the tokens.
def Faithful (tree : Tree) : Prop :=
  ∃ value, tree.meaning false = .ok value ∧ value.unparse = tree.texts

theorem Proper.meaning_eq (proper : tree.Proper rule) : tree.meaning false = tree.phrase.meaning rule := by
  obtain ⟨level,derives⟩ := proper.derives
  cases derives
  exact understood_node ..

section Parts

variable {tree child : Tree} {index : Nat}

theorem part_of_child (found : tree.children[index]? = some child) :
    tree.phrase.parts[index]? = some (child.understood false) := by
  simp [phrase,found]

theorem textAt_child (found : tree.children[index]? = some child) : Part.textAt tree.phrase index = .ok child.text := by
  rw [Part.textAt_eq (part_of_child found),Part.text,tree_understood]

theorem meaningAt_child (found : tree.children[index]? = some child) :
    Part.meaningAt tree.phrase index = child.meaning false := by
  have filled : tree.phrase.parts ≠ [] := fun absent => by simpa [absent] using part_of_child found
  rw [Part.meaningAt_eq filled,part_of_child found]
  rfl

theorem count_children (found : tree.children[index]? = some child) :
    tree.phrase.count = .ok tree.children.length := by
  have filled : tree.phrase.parts ≠ [] := fun absent => by simpa [absent] using part_of_child found
  rw [Phrase.count_eq filled]
  simp [phrase]

theorem count_shape {children : List Tree} (shape : tree.children = children) (filled : children ≠ []) :
    tree.phrase.count = .ok children.length := by
  have parts : tree.phrase.parts ≠ [] := by simp [phrase,shape,filled]
  rw [Phrase.count_eq parts]
  simp [phrase,shape]

@[simp] theorem node_phrase (tree : Tree) (type : String) (fields : Fields) :
    tree.phrase.node type fields = .ok (.node (("type",.text type) :: fields)) := rfl

end Parts

-- What comes after a step that has a result.
@[simp] theorem ok_bind {α β : Type} (value : α) (next : α → Except Fault β) : (Except.ok value >>= next) = next value := rfl

theorem Proper.faithful (proper : tree.Proper rule) (value : Value)
    (means : tree.phrase.meaning rule = .ok value) (written : value.unparse = tree.children.flatMap texts) :
    tree.Faithful :=
  ⟨value,proper.meaning_eq.trans means,written.trans proper.texts_eq.symm⟩

theorem Proper.faithful_alone {child : Tree} (proper : tree.Proper rule)
    (only : tree.children = [child]) (same : tree.phrase.meaning rule = child.meaning false) (inner : child.Faithful) :
    tree.Faithful := by
  obtain ⟨value,means,written⟩ := inner
  exact proper.faithful value (same.trans means) (by simp [only,written])

theorem meanings_faithful {trees : List Tree} (each : ∀ tree ∈ trees, tree.Faithful) :
    ∃ values, Part.meanings (trees.map (understood false)) = .ok values ∧
      values.map Value.unparse = trees.map texts := by
  induction trees with
  | nil => exact ⟨[],rfl,rfl⟩
  | cons tree trees ih =>
    obtain ⟨value,means,written⟩ := each tree mem_cons_self
    obtain ⟨values,others,rest⟩ := ih fun tree member => each tree (mem_cons_of_mem _ member)
    refine ⟨value :: values,?_,by simp [written,rest]⟩
    rw [Part.meanings] at others ⊢
    rw [map_cons,mapM_cons,others,meaning_understood,means]
    rfl

namespace Core

variable {child : Tree} {rule : Rule}
variable {tree : Tree}

theorem faithful_number (whole : tree.Core .numberLiteral) : tree.Faithful := by
  obtain ⟨level,derives⟩ := whole.proper.derives
  obtain ⟨number,_,only | ⟨unit,_,both⟩⟩ := derives.number
  · have first : tree.children[0]? = some (leaf number) := by simp [only]
    refine whole.proper.faithful (.node [("type",.text "NumberLiteral"),("number",.text number.text),
      ("subdenomination",.null)]) ?_ ?_
    · change tree.phrase.numberLiteral = _
      simp [Phrase.numberLiteral,textAt_child first,count_children first,only]
    · simp [Value.unparse_numberLiteral,only]
  · have first : tree.children[0]? = some (leaf number) := by simp [both]
    have second : tree.children[1]? = some (leaf unit) := by simp [both]
    refine whole.proper.faithful (.node [("type",.text "NumberLiteral"),("number",.text number.text),
      ("subdenomination",.text unit.text)]) ?_ ?_
    · change tree.phrase.numberLiteral = _
      simp [Phrase.numberLiteral,textAt_child first,textAt_child second,count_children first,both]
    · simp [Value.unparse_numberLiteral,both]

theorem faithful_identifier (whole : tree.Core .identifier) : tree.Faithful := by
  obtain ⟨level,derives⟩ := whole.proper.derives
  obtain ⟨token,_,only⟩ := derives.single rfl
  refine ⟨_,meaning_identifier whole.proper,?_⟩
  rw [Value.unparse_identifier,whole.proper.texts_eq,whole.proper.text_single only,only]
  rfl

theorem faithful_elementary (whole : tree.Core .typeNameExpression) : tree.Faithful := by
  obtain ⟨type,only,elementary⟩ := elementary_shape whole.proper whole.core
  obtain ⟨level,derives⟩ := elementary.derives
  obtain ⟨token,_,single⟩ := derives.single rfl
  refine whole.proper.faithful_alone only (lastMeaning_alone only) ⟨_,meaning_elementaryTypeName elementary,?_⟩
  rw [Value.unparse_elementaryTypeName,elementary.texts_eq,elementary.text_single single,single]
  rfl

section Tuples

variable {slots : List (Option Part)}

-- The texts of a slot, if there is anything in it.
def slotTexts (slot : Option Part) : List String :=
  slot.elim [] fun part => part.tree.texts

theorem slots_faithful (each : ∀ part, some part ∈ slots → ∃ value,
      part.meaning = .ok value ∧ value.unparse = part.tree.texts) :
    ∃ components, slots.mapM Part.meaningOf = .ok components ∧ components.map Value.unparse = slots.map slotTexts := by
  induction slots with
  | nil => exact ⟨[],rfl,rfl⟩
  | cons slot slots ih =>
    obtain ⟨components,others,rest⟩ := ih fun part member => each part (mem_cons_of_mem _ member)
    obtain ⟨value,means,written⟩ : ∃ value, Part.meaningOf slot = .ok value ∧ value.unparse = slotTexts slot := by
      cases slot with
      | none => exact ⟨.null,rfl,Value.unparse_null⟩
      | some part => exact each part mem_cons_self
    refine ⟨value :: components,?_,by simp [written,rest]⟩
    rw [mapM_cons,means,others]
    rfl

-- Cutting at commas loses nothing: the slots with commas between them are the whole again.
theorem cut_texts (cut : Commas.Cut Phrase.isComma atSlot parts slots)
    (commas : ∀ part ∈ parts, Phrase.isComma part = true → part.tree.texts = [","]) :
    parts.flatMap (fun part => part.tree.texts) =
      if atSlot then SolReader.commas (slots.map slotTexts) else (slots.map slotTexts).flatMap ("," :: ·) := by
  induction cut with
  | finish => rfl
  | empty => rfl
  | @gap item rest found separates others ih =>
    have inner := ih fun part member => commas part (mem_cons_of_mem _ member)
    simp only [flatMap_cons,commas item mem_cons_self separates,inner]
    cases found with
    | nil => cases others
    | cons slot found => simp [SolReader.commas,slotTexts]
  | fill plain others ih =>
    have inner := ih fun part member => commas part (mem_cons_of_mem _ member)
    simp only [flatMap_cons,inner]
    simp [SolReader.commas,slotTexts]
  | @next item rest found separates others ih =>
    have inner := ih fun part member => commas part (mem_cons_of_mem _ member)
    simp only [flatMap_cons,commas item mem_cons_self separates,inner]
    cases found with
    | nil => cases others
    | cons slot found => simp [SolReader.commas]

theorem tuple_components (whole : tree.Core .tupleExpression)
    (listed : ∀ child ∈ inside, child ∈ tree.children) (slotted : Commas.Slotted isSeparator true inside)
    (made : ∀ child ∈ inside, (∃ token, token.kind = .comma ∧ child = .leaf token) ∨ Derives .expression 0 child)
    (below : ∀ child ∈ tree.children, child.Core .expression → child.Faithful) :
    ∃ slots components, Commas.slots Phrase.isComma (inside.map (understood false)) = .ok slots ∧
      slots.mapM Part.meaningOf = .ok components ∧
      inside.flatMap texts = SolReader.commas (components.map Value.unparse) := by
  have known : tree.Known .tupleExpression := ⟨whole.proper,fun small _ other proper => proper.meaning_hinges⟩
  obtain ⟨slots,sliced⟩ := (known.slotted listed slotted).slots_ok
  -- A part is a comma exactly if it is one by its text.
  have told : ∀ child ∈ inside, (Phrase.isComma (child.understood false) = true → child.texts = [","]) ∧
      (Phrase.isComma (child.understood false) = false → child.Faithful) := by
    intro child member
    rcases made child member with ⟨token,kind,rfl⟩ | derived
    · have text : token.text = "," := whole.proper.leaf_text (listed _ member) (by rw [kind]; rfl)
      simp [Phrase.isComma,Part.text,text]
    · have core := whole.derived (listed child member) derived
      have other : child.text ≠ "," := fun same => core.unreserved (same ▸ by decide)
      simp [Phrase.isComma,Part.text,other,below child (listed child member) core]
  have commas : ∀ part ∈ inside.map (understood false), Phrase.isComma part = true → part.tree.texts = [","] := by
    intro part member separates
    obtain ⟨child,within,rfl⟩ := mem_map.mp member
    rw [tree_understood]
    exact (told child within).1 separates
  have values : ∀ part, some part ∈ slots → ∃ value, part.meaning = .ok value ∧ value.unparse = part.tree.texts := by
    intro part member
    obtain ⟨within,plain⟩ := Commas.mem_slots sliced member
    obtain ⟨child,here,rfl⟩ := mem_map.mp within
    rw [tree_understood]
    exact (told child here).2 plain
  obtain ⟨components,found,written⟩ := slots_faithful values
  refine ⟨slots,components,sliced,found,?_⟩
  rw [written]
  cases inside with
  | nil =>
    cases sliced
    rfl
  | cons first rest => simpa [flatMap_map] using cut_texts (Commas.cut_of_slotsFrom sliced) commas

theorem faithful_tuple (whole : tree.Core .tupleExpression)
    (below : ∀ child ∈ tree.children, child.Core .expression → child.Faithful) : tree.Faithful := by
  obtain ⟨level,derives⟩ := whole.proper.derives
  obtain ⟨opening,closing,inside,split,brackets,made⟩ := derives.tuple
  have filled : tree.phrase.parts ≠ [] := by simp [phrase,split]
  have between : (tree.children.drop 1).dropLast = inside := by simp [split]
  have listed : ∀ child ∈ inside, child ∈ tree.children := by
    intro child member
    simp [split,member]
  have slotted : Commas.Slotted isSeparator true inside := between ▸ Known.tupleExpression_slotted whole.proper
  obtain ⟨slots,components,sliced,found,texts⟩ := tuple_components whole listed slotted made below
  have first : tree.children[0]? = Option.some (leaf opening) := by simp [split]
  have means : tree.phrase.meaning .tupleExpression = .ok (.node [("type",.text "TupleExpression"),
      ("components",.list components),("isArray",.bool (decide (opening.text = "[")))]) := by
    change tree.phrase.tupleExpression = _
    rw [Phrase.tupleExpression,Known.innerParts_eq filled,between,ok_bind,sliced,ok_bind,found,
      ok_bind,textAt_child first,ok_bind,text_leaf]
    rfl
  rcases brackets with ⟨left,right⟩ | ⟨left,right⟩
  · have opens : opening.text = "(" := whole.proper.leaf_text (by simp [split]) (by rw [left]; rfl)
    have closes : closing.text = ")" := whole.proper.leaf_text (by simp [split]) (by rw [right]; rfl)
    rw [opens] at means
    refine whole.proper.faithful _ means ((Value.unparse_tuple components).trans ?_)
    simp [split,opens,closes,texts]
  · have opens : opening.text = "[" := whole.proper.leaf_text (by simp [split]) (by rw [left]; rfl)
    have closes : closing.text = "]" := whole.proper.leaf_text (by simp [split]) (by rw [right]; rfl)
    rw [opens] at means
    refine whole.proper.faithful _ means ((Value.unparse_array components).trans ?_)
    simp [split,opens,closes,texts]

end Tuples

theorem token?_alone (only : tree.children = [child]) (found : child.rule? = some rule)
    (kind : Kind) : tree.phrase.token? kind = none := by
  cases child with
  | node => simp [Phrase.token?,phrase,only,Part.kind?]
  | leaf token => cases found
  | error token => cases found

theorem faithful_hex {literal : Tree} (whole : tree.Core .primaryExpression) (only : tree.children = [literal])
    (inner : literal.Core .hexLiteral) : tree.Faithful := by
  obtain ⟨token,_,single⟩ := hex_shape inner.proper inner.core
  have rule := inner.proper.rule_eq
  have missing := token?_alone only rule .booleanLiteral
  have found : tree.phrase.first? .hexLiteral = some (literal.understood false) := by
    simp [first?_eq,Tree.inner,only,rule]
  refine whole.proper.faithful (.node [("type",.text "hexLiteral"),("value",.text literal.text)]) ?_ ?_
  · change tree.phrase.primaryExpression = _
    simp [Phrase.primaryExpression,missing,found,Part.text]
  · rw [Value.unparse_hexLiteral,inner.proper.text_single single,only]
    simp [inner.proper.texts_eq,single]

theorem primary_phrase (only : tree.children = [child]) (found : child.rule? = some rule)
    (plain : rule ≠ .hexLiteral ∧ rule ≠ .stringLiteral) : tree.phrase.primaryExpression = child.meaning false := by
  have missing := token?_alone only found .booleanLiteral
  have others : tree.phrase.first? .hexLiteral = none ∧ tree.phrase.first? .stringLiteral = none := by
    simp [first?_eq,Tree.inner,only,found,plain]
  have first : tree.children[0]? = some child := by simp [only]
  simp [Phrase.primaryExpression,missing,others,Phrase.hasEmptyBrackets,count_children first,only,
    meaningAt_child first,pure,Except.pure]

theorem faithful_primary (whole : tree.Core .primaryExpression)
    (below : ∀ small : Tree, sizeOf small < sizeOf tree → small.Core .expression → small.Faithful) : tree.Faithful := by
  cases whole.atom with
  | @boolean token only kind =>
    have found : tree.phrase.token? .booleanLiteral = some ((leaf token).understood false) := by
      simp [Phrase.token?,phrase,only,Part.kind?,kind]
    refine whole.proper.faithful (.node [("type",.text "BooleanLiteral"),("value",.bool (token.text == "true"))]) ?_ ?_
    · change tree.phrase.primaryExpression = _
      simp [Phrase.primaryExpression,found,Part.text]
    · have genuine := whole.proper.leaf_genuine (show .leaf token ∈ tree.children by simp [only])
      have spelled := genuine.spelled (by simp [kind])
      rw [Token.Spelled,kind] at spelled
      obtain ⟨word,listed,same⟩ := Pattern.accepts_words.mp spelled
      have text : token.text = word := String.toList_injective same
      rw [Value.unparse_booleanLiteral,only]
      simp only [mem_cons,not_mem_nil,or_false] at listed
      rcases listed with rfl | rfl <;> simp [text]
  | @phrase rule child only inner listed =>
    have smaller : sizeOf child < sizeOf tree := size_child (by simp [only])
    simp only [mem_cons,not_mem_nil,or_false] at listed
    rcases listed with rfl | rfl | rfl | rfl | rfl
    · exact whole.proper.faithful_alone only (primary_phrase only inner.proper.rule_eq (by decide)) inner.faithful_number
    · exact faithful_hex whole only inner
    · exact whole.proper.faithful_alone only (primary_phrase only inner.proper.rule_eq (by decide))
        inner.faithful_identifier
    · refine whole.proper.faithful_alone only (primary_phrase only inner.proper.rule_eq (by decide))
        (inner.faithful_tuple fun operand member core => below operand ?_ core)
      exact Nat.lt_trans (size_child member) smaller
    · exact whole.proper.faithful_alone only (primary_phrase only inner.proper.rule_eq (by decide))
        inner.faithful_elementary

section Arguments

variable {first list : Tree} {rounds : List (Token × Tree)}

theorem texts_commaList (commas : ∀ round ∈ rounds, round.1.text = ",") :
    (first :: rounds.flatMap fun round => [.leaf round.1,round.2]).flatMap texts =
      SolReader.commas ((first :: rounds.map Prod.snd).map texts) := by
  rw [flatMap_cons,map_cons,SolReader.commas]
  congr 1
  induction rounds with
  | nil => rfl
  | cons round rounds ih =>
    have others := ih fun round member => commas round (mem_cons_of_mem _ member)
    simp [commas round mem_cons_self,others]

theorem inner_commaList {item : Rule} (derives : Derives item 0 first)
    (made : ∀ round ∈ rounds, Derives item 0 round.2)
    (split : tree.children = first :: rounds.flatMap fun round => [.leaf round.1,round.2]) :
    tree.inner item = first :: rounds.map Prod.snd := by
  have own : ∀ {tree : Tree}, Derives item 0 tree → tree.rule? = some item :=
    fun derived => rule?_eq.mpr (Form.Derives.member_eq derived)
  rw [inner,split,filter_cons_of_pos (by simp [own derives])]
  clear split
  congr 1
  induction rounds with
  | nil => rfl
  | cons round rounds ih =>
    have others := ih fun round member => made round (mem_cons_of_mem _ member)
    simp [own (made round mem_cons_self),others]

theorem arguments_values (whole : list.Core .expressionList)
    (below : ∀ child ∈ list.children, child.Core .expression → child.Faithful) :
    ∃ values, Part.meanings ((list.inner .expression).map (understood false)) = .ok values ∧
      list.texts = SolReader.commas (values.map Value.unparse) := by
  obtain ⟨level,derives⟩ := whole.proper.derives
  have spells := derives.spelled_alone rfl
  obtain ⟨first,rounds,one,made,split⟩ := Form.commaList_shape spells
  have items : list.inner .expression = first :: rounds.map Prod.snd :=
    inner_commaList one (fun round member => (made round member).2) split
  have each : ∀ value ∈ list.inner .expression, value.Faithful := by
    intro value member
    obtain ⟨inside,found⟩ := mem_inner.mp member
    obtain ⟨own,derived⟩ := (whole.proper.inner member).derives
    exact below value inside (whole.derived inside derived)
  obtain ⟨values,means,written⟩ := meanings_faithful each
  refine ⟨values,means,?_⟩
  rw [written,items,whole.proper.texts_eq,split]
  refine texts_commaList fun round member => ?_
  refine whole.proper.leaf_text ?_ (by rw [(made round member).1]; rfl)
  rw [split]
  exact mem_cons_of_mem _ (mem_flatMap.mpr ⟨round,member,mem_cons_self⟩)

-- A named argument, as it is read off its phrase.
def named (pair : Tree) : Except Fault (Value × Value) := do
  let value ← Part.meaningOf (Phrase.all .expression (pair.understood false).parts).head?
  let name ← Part.textOf (Phrase.all .identifier (pair.understood false).parts).head?
  return (value,Value.text name)

theorem named_faithful {pair : Tree} (whole : pair.Core .nameValue)
    (below : ∀ child ∈ pair.children, child.Core .expression → child.Faithful) :
    ∃ value name, named pair = .ok (value,.text name) ∧ pair.texts = labelled [name] value.unparse := by
  obtain ⟨level,derives⟩ := whole.proper.derives
  obtain ⟨name,colon,value,split,kind,first,second⟩ := derives.nameValue
  have colonText : colon.text = ":" := whole.proper.leaf_text (by simp [split]) (by rw [kind]; rfl)
  have nameCore := whole.derived (by simp [split]) first
  have valueCore := whole.derived (by simp [split]) second
  obtain ⟨meant,means,written⟩ := below value (by simp [split]) valueCore
  obtain ⟨token,_,single⟩ := first.single rfl
  refine ⟨meant,name.text,?_,?_⟩
  · have values : pair.inner .expression = [value] := by
      simp [inner,split,nameCore.proper.rule_eq,valueCore.proper.rule_eq]
    have names : pair.inner .identifier = [name] := by
      simp [inner,split,nameCore.proper.rule_eq,valueCore.proper.rule_eq]
    rw [named,parts_understood,all_understood,all_understood,values,names]
    simp [Part.meaningOf,Part.textOf,Part.text,means,pure,Except.pure]
  · rw [whole.proper.texts_eq,split,nameCore.proper.text_single single]
    simp [labelled,written,colonText,nameCore.proper.texts_eq,single]

theorem pairs_faithful {pairs : List Tree} (each : ∀ pair ∈ pairs, ∃ value name,
      named pair = .ok (value,.text name) ∧ pair.texts = labelled [name] value.unparse) :
    ∃ results, pairs.mapM named = .ok results ∧ results.length = pairs.length ∧ pairs.map texts =
      ((results.map Prod.snd).map Value.unparse).zipWith labelled ((results.map Prod.fst).map Value.unparse) := by
  induction pairs with
  | nil => exact ⟨[],rfl,rfl,rfl⟩
  | cons pair pairs ih =>
    obtain ⟨value,name,means,written⟩ := each pair mem_cons_self
    obtain ⟨results,others,same,rest⟩ := ih fun pair member => each pair (mem_cons_of_mem _ member)
    refine ⟨(value,.text name) :: results,?_,by simp [same],by simp [written,rest]⟩
    rw [mapM_cons,means,others]
    rfl

theorem arguments_named (whole : list.Core .nameValueList)
    (below : ∀ pair ∈ list.children, ∀ child ∈ pair.children, child.Core .expression → child.Faithful) :
    ∃ results, (list.inner .nameValue).mapM named = .ok results ∧ results ≠ [] ∧ list.texts = SolReader.commas
      (((results.map Prod.snd).map Value.unparse).zipWith labelled ((results.map Prod.fst).map Value.unparse)) := by
  obtain ⟨level,derives⟩ := whole.proper.derives
  have spells := derives.spelled_alone rfl
  simp only [Form.row,Form.opt,Form.tok,Form.spells_seq,Form.spells_optional,Form.spells_token] at spells
  obtain ⟨items,last,list',ending,split⟩ := spells
  obtain ⟨first,rounds,one,made,rfl⟩ := Form.commaList_shape list'
  -- There is no comma behind the last name.
  have nothing : last = [] := by
    rcases ending with absent | ⟨comma,kind,rfl⟩
    · exact absent
    · have own := (whole.proper.core_iff.mp whole.core).1
      have final : list.children.getLast? = some (leaf comma) := by rw [split,List.getLast?_concat]
      cases derives
      simp only [Tree.children] at final
      simp [isCore,final,isMember_eq,Tree.member,kind] at own
  subst nothing
  rw [append_nil] at split
  have pairs : list.inner .nameValue = first :: rounds.map Prod.snd :=
    inner_commaList one (fun round member => (made round member).2) split
  have each : ∀ pair ∈ list.inner .nameValue, ∃ value name,
      named pair = .ok (value,.text name) ∧ pair.texts = labelled [name] value.unparse := by
    intro pair member
    obtain ⟨inside,_⟩ := mem_inner.mp member
    obtain ⟨own,derived⟩ := (whole.proper.inner member).derives
    exact named_faithful (whole.derived inside derived) (below pair inside)
  obtain ⟨results,found,same,written⟩ := pairs_faithful each
  refine ⟨results,found,?_,?_⟩
  · rintro rfl
    simp [pairs] at same
  · rw [← written,pairs,whole.proper.texts_eq,split]
    refine texts_commaList fun round member => ?_
    refine whole.proper.leaf_text ?_ (by rw [(made round member).1]; rfl)
    rw [split]
    exact mem_cons_of_mem _ (mem_flatMap.mpr ⟨round,member,mem_cons_self⟩)

theorem arguments_faithful {arguments : Tree} (whole : arguments.Core .functionCallArguments)
    (below : ∀ small : Tree, sizeOf small < sizeOf arguments → small.Core .expression → small.Faithful) :
    ∃ values names, Phrase.callArguments (some (arguments.understood false)) = .ok (values,names) ∧
      ((names = [] ∧ arguments.texts = SolReader.commas (values.map Value.unparse)) ∨
       (names ≠ [] ∧ arguments.texts = "\x7b" ::
         SolReader.commas ((names.map Value.unparse).zipWith labelled (values.map Value.unparse)) ++ ["\x7d"])) := by
  obtain ⟨level,derives⟩ := whole.proper.derives
  have made := Arguments.derives_made derives
  simp only [Phrase.callArguments,parts_understood,all_understood,List.head?_map]
  generalize shape : arguments.children = children at made
  cases made with
  | nothing =>
    refine ⟨[],[],by simp [inner,shape],.inl ⟨rfl,?_⟩⟩
    rw [whole.proper.texts_eq,shape]
    rfl
  | @values list derived =>
    have core := whole.derived (by simp [shape]) derived
    have found : arguments.inner .expressionList = [list] := by simp [inner,shape,core.proper.rule_eq]
    have smaller : sizeOf list < sizeOf arguments := size_child (by simp [shape])
    obtain ⟨values,means,written⟩ := arguments_values core
      fun child member core => below child (Nat.lt_trans (size_child member) smaller) core
    refine ⟨values,[],by simp [found,all_understood,means,pure,Except.pure],.inl ⟨rfl,?_⟩⟩
    rw [whole.proper.texts_eq,shape]
    simpa using written
  | noNames left right =>
    have own := (whole.proper.core_iff.mp whole.core).1
    cases derives
    simp only [Tree.children] at shape
    simp [isCore,shape,holds,isMember_eq,Tree.member,left,right] at own
  | @names opening closing list left right derived =>
    have core := whole.derived (by simp [shape]) derived
    have missing : arguments.inner .expressionList = [] := by simp [inner,shape,core.proper.rule_eq]
    have found : arguments.inner .nameValueList = [list] := by simp [inner,shape,core.proper.rule_eq]
    have smaller : sizeOf list < sizeOf arguments := size_child (by simp [shape])
    obtain ⟨results,means,filled,written⟩ := arguments_named core fun pair inside child member core =>
      below child (Nat.lt_trans (size_child member) (Nat.lt_trans (size_child inside) smaller)) core
    have opens : opening.text = "\x7b" := whole.proper.leaf_text (by simp [shape]) (by rw [left]; rfl)
    have closes : closing.text = "\x7d" := whole.proper.leaf_text (by simp [shape]) (by rw [right]; rfl)
    refine ⟨results.map Prod.fst,results.map Prod.snd,?_,.inr ⟨by simpa using filled,?_⟩⟩
    · have pairs : ((list.inner .nameValue).map (understood false)).mapM (fun pair => do
          let value ← Part.meaningOf (Phrase.all .expression pair.parts).head?
          let name ← Part.textOf (Phrase.all .identifier pair.parts).head?
          return (value,Value.text name)) = .ok results := by
        rw [mapM_map]
        exact means
      simp only [missing,found,List.head?_nil,List.head?_cons,Option.map_none,Option.map_some,parts_understood,
        all_understood]
      rw [pairs]
      rfl
    · rw [whole.proper.texts_eq,shape]
      simp [opens,closes,written]

end Arguments

section Operations

theorem not_operator {operand : Tree} (inner : operand.Core .expression) :
    operand.text ≠ "new" ∧ operand.text ≠ "(" ∧ operand.text ∉ Phrase.prefixOperators := by
  refine ⟨fun same => inner.unreserved (same ▸ by decide),fun same => inner.unreserved (same ▸ by decide),?_⟩
  exact fun listed => inner.unreserved (mem_append_right _ listed)

theorem binary_plain : ∀ word ∈ Phrase.binaryOperators, word ≠ "," ∧ word ≠ "." := by
  decide

theorem prefix_plain : ∀ word ∈ Phrase.prefixOperators, word ≠ "new" := by
  decide

variable {operand one two three : Tree} {operator opening closing question colon dot : Token}

theorem faithful_before (whole : tree.Core .expression) (shape : tree.children = [.leaf operator,operand])
    (listed : operator.text ∈ Phrase.prefixOperators) (inner : operand.Faithful) : tree.Faithful := by
  obtain ⟨value,means,written⟩ := inner
  have first : tree.children[0]? = some (leaf operator) := by simp [shape]
  have second : tree.children[1]? = some operand := by simp [shape]
  refine whole.proper.faithful _ ?_ ((Value.unparse_before value operator.text).trans (by simp [shape,written]))
  have told : tree.phrase.expression = tree.phrase.ofTwo := Phrase.expression_counted (count_shape shape (by simp))
  refine told.trans ?_
  simp [Phrase.ofTwo,Phrase.unary,textAt_child first,
    prefix_plain _ listed,listed,meaningAt_child second,means]

theorem faithful_after (whole : tree.Core .expression) (shape : tree.children = [operand,.leaf operator])
    (listed : operator.text ∈ Phrase.stepOperators) (core : operand.Core .expression) (inner : operand.Faithful) :
    tree.Faithful := by
  obtain ⟨value,means,written⟩ := inner
  obtain ⟨notNew,_,notPrefix⟩ := not_operator core
  have first : tree.children[0]? = some operand := by simp [shape]
  have second : tree.children[1]? = some (leaf operator) := by simp [shape]
  refine whole.proper.faithful _ ?_ ((Value.unparse_after value operator.text).trans (by simp [shape,written]))
  have told : tree.phrase.expression = tree.phrase.ofTwo := Phrase.expression_counted (count_shape shape (by simp))
  refine told.trans ?_
  simp [Phrase.ofTwo,Phrase.unary,textAt_child first,
    notNew,notPrefix,textAt_child second,listed,meaningAt_child first,means]

theorem faithful_parentheses (whole : tree.Core .expression)
    (shape : tree.children = [.leaf opening,operand,.leaf closing]) (left : opening.text = "(")
    (right : closing.text = ")") (inner : operand.Faithful) : tree.Faithful := by
  obtain ⟨value,means,written⟩ := inner
  have first : tree.children[0]? = some (leaf opening) := by simp [shape]
  have second : tree.children[1]? = some operand := by simp [shape]
  have third : tree.children[2]? = some (leaf closing) := by simp [shape]
  refine whole.proper.faithful _ ?_ ((Value.unparse_tuple [value]).trans
    (by simp [shape,written,left,right,SolReader.commas]))
  have told : tree.phrase.expression = tree.phrase.ofThree := Phrase.expression_counted (count_shape shape (by simp))
  refine told.trans ?_
  simp [Phrase.ofThree,Phrase.tuple,textAt_child first,
    textAt_child third,left,right,meaningAt_child second,means]

theorem faithful_between (whole : tree.Core .expression) (shape : tree.children = [one,.leaf operator,two])
    (listed : operator.text ∈ Phrase.binaryOperators) (core : one.Core .expression) (left : one.Faithful)
    (right : two.Faithful) : tree.Faithful := by
  obtain ⟨before,leftMeans,leftWritten⟩ := left
  obtain ⟨after,rightMeans,rightWritten⟩ := right
  obtain ⟨_,notOpen,_⟩ := not_operator core
  obtain ⟨notComma,notDot⟩ := binary_plain _ listed
  have first : tree.children[0]? = some one := by simp [shape]
  have second : tree.children[1]? = some (leaf operator) := by simp [shape]
  have third : tree.children[2]? = some two := by simp [shape]
  refine whole.proper.faithful _ ?_ ((Value.unparse_between before after operator.text).trans
    (by simp [shape,leftWritten,rightWritten]))
  have told : tree.phrase.expression = tree.phrase.ofThree := Phrase.expression_counted (count_shape shape (by simp))
  refine told.trans ?_
  simp [Phrase.ofThree,textAt_child first,
    textAt_child second,textAt_child third,notOpen,notComma,notDot,listed,meaningAt_child first,
    meaningAt_child third,leftMeans,rightMeans]

theorem faithful_member (whole : tree.Core .expression) (shape : tree.children = [one,.leaf dot,name])
    (divides : dot.text = ".") (core : one.Core .expression) (inner : one.Faithful) (named : name.Core .identifier) :
    tree.Faithful := by
  obtain ⟨base,means,written⟩ := inner
  obtain ⟨_,notOpen,_⟩ := not_operator core
  obtain ⟨level,derives⟩ := named.proper.derives
  obtain ⟨token,_,single⟩ := derives.single rfl
  have first : tree.children[0]? = some one := by simp [shape]
  have second : tree.children[1]? = some (leaf dot) := by simp [shape]
  have third : tree.children[2]? = some name := by simp [shape]
  refine whole.proper.faithful _ ?_ ((Value.unparse_member base name.text).trans
    (by simp [shape,written,divides,named.proper.texts_eq,named.proper.text_single single,single]))
  have told : tree.phrase.expression = tree.phrase.ofThree := Phrase.expression_counted (count_shape shape (by simp))
  refine told.trans ?_
  simp [Phrase.ofThree,textAt_child first,
    textAt_child second,textAt_child third,notOpen,divides,meaningAt_child first,means]

theorem faithful_conditional (whole : tree.Core .expression)
    (shape : tree.children = [one,.leaf question,two,.leaf colon,three]) (asks : question.text = "?")
    (divides : colon.text = ":") (left : one.Faithful) (middle : two.Faithful) (right : three.Faithful) :
    tree.Faithful := by
  obtain ⟨condition,firstMeans,firstWritten⟩ := left
  obtain ⟨yes,secondMeans,secondWritten⟩ := middle
  obtain ⟨no,thirdMeans,thirdWritten⟩ := right
  have first : tree.children[0]? = some one := by simp [shape]
  have second : tree.children[1]? = some (leaf question) := by simp [shape]
  have third : tree.children[2]? = some two := by simp [shape]
  have fourth : tree.children[3]? = some (leaf colon) := by simp [shape]
  have fifth : tree.children[4]? = some three := by simp [shape]
  refine whole.proper.faithful _ ?_ ((Value.unparse_conditional condition no yes).trans
    (by simp [shape,firstWritten,secondWritten,thirdWritten,asks,divides]))
  have told : tree.phrase.expression = tree.phrase.ofFive := Phrase.expression_counted (count_shape shape (by simp))
  refine told.trans ?_
  simp [Phrase.ofFive,textAt_child second,
    textAt_child fourth,asks,divides,meaningAt_child first,meaningAt_child third,meaningAt_child fifth,firstMeans,
    secondMeans,thirdMeans]

theorem faithful_index (whole : tree.Core .expression)
    (shape : tree.children = [one,.leaf opening,two,.leaf closing]) (opens : opening.text = "[")
    (closes : closing.text = "]") (left : one.Faithful) (right : two.Faithful) : tree.Faithful := by
  obtain ⟨base,firstMeans,firstWritten⟩ := left
  obtain ⟨place,secondMeans,secondWritten⟩ := right
  have first : tree.children[0]? = some one := by simp [shape]
  have second : tree.children[1]? = some (leaf opening) := by simp [shape]
  have third : tree.children[2]? = some two := by simp [shape]
  have fourth : tree.children[3]? = some (leaf closing) := by simp [shape]
  refine whole.proper.faithful _ ?_ ((Value.unparse_index base place).trans
    (by simp [shape,firstWritten,secondWritten,opens,closes]))
  have told : tree.phrase.expression = tree.phrase.ofFour := Phrase.expression_counted (count_shape shape (by simp))
  refine told.trans ?_
  simp [Phrase.ofFour,textAt_child second,
    textAt_child fourth,opens,closes,meaningAt_child first,meaningAt_child third,firstMeans,secondMeans]

theorem faithful_call (whole : tree.Core .expression)
    (shape : tree.children = [one,.leaf opening,arguments,.leaf closing]) (opens : opening.text = "(")
    (closes : closing.text = ")") (left : one.Faithful) (core : one.Core .expression)
    (inner : arguments.Core .functionCallArguments)
    (below : ∀ small : Tree, sizeOf small < sizeOf arguments → small.Core .expression → small.Faithful) :
    tree.Faithful := by
  obtain ⟨callee,means,written⟩ := left
  obtain ⟨values,names,found,plain⟩ := arguments_faithful inner below
  have first : tree.children[0]? = some one := by simp [shape]
  have second : tree.children[1]? = some (leaf opening) := by simp [shape]
  have fourth : tree.children[3]? = some (leaf closing) := by simp [shape]
  have given : tree.phrase.first? .functionCallArguments = some (arguments.understood false) := by
    simp [first?_eq,Tree.inner,shape,core.proper.rule_eq,inner.proper.rule_eq]
  have computed : tree.phrase.meaning .expression = .ok (.node [("type",.text "FunctionCall"),("expression",callee),
      ("arguments",.list values),("names",.list names)]) := by
    have told : tree.phrase.expression = tree.phrase.ofFour := Phrase.expression_counted (count_shape shape (by simp))
    refine told.trans ?_
    simp [Phrase.ofFour,textAt_child second,
      textAt_child fourth,opens,closes,given,found,meaningAt_child first,means]
  rcases plain with ⟨rfl,texts⟩ | ⟨filled,texts⟩
  · refine whole.proper.faithful _ computed ((Value.unparse_call callee values).trans ?_)
    simp [shape,written,opens,closes,texts]
  · refine whole.proper.faithful _ computed ((Value.unparse_call_named callee values names filled).trans ?_)
    simp [shape,written,opens,closes,texts]

theorem faithful (whole : tree.Core .expression) : tree.Faithful := by
  induction tree using by_size with
  | step tree ih =>
    have below : ∀ {operand : Tree}, operand ∈ tree.children → operand.Core .expression → operand.Faithful :=
      fun member inner => ih _ (size_child member) inner
    cases whole.operation with
    | @primary atom shape inner =>
      have smaller : sizeOf atom < sizeOf tree := size_child (by simp [shape])
      have told : tree.phrase.expression = Part.meaningAt tree.phrase 0 :=
        Phrase.expression_counted (count_shape shape (by simp))
      refine whole.proper.faithful_alone shape (told.trans (meaningAt_child (by simp [shape]))) ?_
      exact inner.faithful_primary fun small less core => ih small (Nat.lt_trans less smaller) core
    | parentheses shape left right inner =>
      exact whole.faithful_parentheses shape left right (below (by simp [shape]) inner)
    | before shape listed inner => exact whole.faithful_before shape listed (below (by simp [shape]) inner)
    | after shape listed inner => exact whole.faithful_after shape listed inner (below (by simp [shape]) inner)
    | between shape listed first second =>
      exact whole.faithful_between shape listed first (below (by simp [shape]) first) (below (by simp [shape]) second)
    | conditional shape asks divides first second third =>
      exact whole.faithful_conditional shape asks divides (below (by simp [shape]) first) (below (by simp [shape]) second)
        (below (by simp [shape]) third)
    | index shape left right first second =>
      exact whole.faithful_index shape left right (below (by simp [shape]) first) (below (by simp [shape]) second)
    | member shape divides first second =>
      exact whole.faithful_member shape divides first (below (by simp [shape]) first) second
    | @call _ _ _ arguments shape left right first second =>
      have smaller : sizeOf arguments < sizeOf tree := size_child (by simp [shape])
      exact whole.faithful_call shape left right (below (by simp [shape]) first) first second fun small less core =>
        ih small (Nat.lt_trans less smaller) core

end Operations

end Core

-- An expression of the core language without errors: a derivation from the tokens of a text.
structure CoreExpression (tree : Tree) : Prop where
  proper : tree.Proper .expression
  core : tree.core = true

theorem CoreExpression.faithful (expression : tree.CoreExpression) : tree.Faithful :=
  Core.faithful ⟨expression.proper,expression.core⟩

theorem coreExpression_of_clean {text : String} (clean : (Reading.ofText rule text).diagnostics = [])
    (member : tree ∈ (Reading.ofText rule text).tree.phrases) (found : tree.rule? = some .expression)
    (core : tree.core = true) : tree.CoreExpression := by
  obtain ⟨other,proper⟩ := (Reading.ofText_proper clean).phrases member
  have same := proper.same found
  subst same
  exact ⟨proper,core⟩

-- From the abstract tree of a core expression the texts of its tokens can be told, so that two of them with one abstract
-- tree are the same text.
theorem unparse_core :
    (∀ tree : Tree, tree.CoreExpression → ∃ value, tree.meaning false = .ok value ∧ value.unparse = tree.texts) ∧
    (∀ one two : Tree, one.CoreExpression → two.CoreExpression → one.meaning false = two.meaning false →
      one.texts = two.texts) ∧
    ∀ rule text, (Reading.ofText rule text).diagnostics = [] → ∀ tree ∈ (Reading.ofText rule text).tree.phrases,
      tree.rule? = some .expression → tree.core = true → tree.CoreExpression := by
  refine ⟨fun tree expression => expression.faithful,?_,fun rule text clean tree => coreExpression_of_clean clean⟩
  intro one two first second same
  obtain ⟨value,means,written⟩ := first.faithful
  obtain ⟨other,otherMeans,otherWritten⟩ := second.faithful
  have agree : value = other := by
    rw [means,otherMeans] at same
    exact Except.ok.inj same
  rw [← written,← otherWritten,agree]

-- The expression `-a`.
def negated : Tree :=
  let minus : Token := ⟨.minus,"-",⟨1,0⟩,0,1⟩
  let name : Token := ⟨.identifier,"a",⟨1,1⟩,1,1⟩
  .node .expression minus (some name) [.leaf minus,.node .expression name (some name)
    [.node .primaryExpression name (some name) [.node .identifier name (some name) [.leaf name]]]]

theorem negated_derives : Derives .expression 0 negated := by
  have name : ∀ token : Token, token.kind = .identifier →
      Derives .identifier 0 (.node .identifier token (some token) [.leaf token]) := by
    intro token same
    exact .node mem_cons_self (.oneOf (by rw [same]; decide))
  have operand : ∀ (token : Token) (level : Nat), token.kind = .identifier → Derives .expression level
      (.node .expression token (some token) [.node .primaryExpression token (some token)
        [.node .identifier token (some token) [.leaf token]]]) := by
    intro token level same
    have primary : Derives .primaryExpression 0 (.node .primaryExpression token (some token)
        [.node .identifier token (some token) [.leaf token]]) :=
      .node mem_cons_self (.choice (mem_of_getElem? (i := 4) rfl) (.seq (.call (name token same)) .absent))
    exact .node mem_cons_self (.choice (mem_of_getElem? (i := 7) rfl) (.call primary))
  refine .node mem_cons_self (.choice (mem_of_getElem? (i := 3) rfl) ?_)
  exact .seq (.oneOf (by decide)) (.call (operand _ 18 rfl))

theorem negated_core : negated.CoreExpression where
  proper := ⟨⟨0,negated_derives⟩,by
    intro token member
    left
    revert token
    decide⟩
  core := by decide

theorem negated_unparse : negated.CoreExpression ∧
    ∃ value, negated.meaning false = .ok value ∧ value.unparse = ["-","a"] :=
  ⟨negated_core,unparse_core.1 negated negated_core⟩

end Tree

end SolReader
