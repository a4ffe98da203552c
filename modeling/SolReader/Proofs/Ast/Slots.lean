import SolReader.Proofs.Ast.Locations
import SolReader.Proofs.Ast.Shapes
import SolReader.Proofs.Grammar.Starts

namespace SolReader

open List

namespace Commas

variable {α β : Type} {separates : α → Bool} {isComma : β → Bool} {f : α → β} {atSlot : Bool} {items : List α}

-- The first group of a list is empty where no slot is open, and stands for no slot then.
theorem Slotted.slotsFrom_split (slotted : Slotted separates atSlot items)
    (told : ∀ item ∈ items, isComma (f item) = separates item) :
    ∃ first others, items.splitOnP separates = first :: others ∧ (atSlot = false → first = []) ∧
      slotsFrom isComma atSlot (items.map f) =
        .ok (((if atSlot then first :: others else others).map List.head?).map (Option.map f)) := by
  induction items generalizing atSlot with
  | nil => cases atSlot <;> exact ⟨[],[],rfl,fun _ => rfl,rfl⟩
  | cons item rest ih =>
    obtain ⟨own,others⟩ := forall_mem_cons.mp told
    cases comma : separates item with
    | true =>
      have opened : Slotted separates true rest := by
        cases slotted with
        | comma _ later => exact later
        | element later => exact later.opened
      obtain ⟨first,groups,split,_,cut⟩ := ih opened others
      refine ⟨[],first :: groups,by rw [splitOnP_cons_eq_if_modifyHead,if_pos comma,split],fun _ => rfl,?_⟩
      rw [if_pos rfl] at cut
      cases atSlot <;> simp [slotsFrom,own,comma,cut,bind,Except.bind,pure,Except.pure]
    | false =>
      cases slotted with
      | comma separated _ => simp [comma] at separated
      | element later =>
        obtain ⟨first,groups,split,empty,cut⟩ := ih later others
        cases empty rfl
        rw [if_neg Bool.false_ne_true] at cut
        refine ⟨[item],groups,by simp [splitOnP_cons_eq_if_modifyHead,comma,split],by simp,?_⟩
        simp [slotsFrom,own,comma,cut,bind,Except.bind,pure,Except.pure]

theorem Cut.found {found : List (Option α)} (cut : Cut separates atSlot items found) (member : item ∈ items)
    (plain : separates item = false) : some item ∈ found := by
  induction cut with
  | finish => cases member
  | empty => cases member
  | gap separated _ ih =>
    rcases mem_cons.mp member with rfl | later
    · simp [plain] at separated
    · exact mem_cons_of_mem _ (ih later)
  | fill _ _ ih =>
    rcases mem_cons.mp member with rfl | later
    · exact mem_cons_self
    · exact mem_cons_of_mem _ (ih later)
  | next separated _ ih =>
    rcases mem_cons.mp member with rfl | later
    · simp [plain] at separated
    · exact ih later

end Commas

-- A phrase that could be taken for a comma, or be missed.
def Member.isHidden : Member → Bool
  | .phrase rule => rule.next.ends || rule.next.kinds.contains .comma
  | _ => false

-- Lists with slots have no such phrases.
def Rule.listed : List Rule := [.identifierList,.variableDeclarationList,.tupleExpression]

set_option maxRecDepth 10000 in
theorem Rule.listed_checked : (Rule.listed.all fun rule => rule.most Member.isHidden == some 0) = true := by
  decide

theorem Lexicon.first_comma : Lexicon.first? [','] = some .comma := by
  decide

namespace Tree

-- The slots of a list, each with its element or empty.  Nothing at all has no slots.
def slots : List Tree → List (Option Tree)
  | [] => []
  | items => (items.splitOnP isSeparator).map List.head?

-- What stands between the brackets around a list.
def between (tree : Tree) : List Tree :=
  (tree.children.drop 1).dropLast

-- What a slot means; if it is empty, nothing.
def Slot (means : Tree → Value → Prop) : Option Tree → Value → Prop
  | none, value => value = .null
  | some item, value => means item value

theorem mem_between {tree : Tree} (member : item ∈ tree.between) : item ∈ tree.children :=
  mem_of_mem_drop ((dropLast_sublist _).subset member)

section Slots

variable {items : List Tree}

theorem slots_split {β : Type} {isComma : β → Bool} {f : Tree → β} (slotted : Commas.Slotted isSeparator true items)
    (told : ∀ item ∈ items, isComma (f item) = item.isSeparator) :
    Commas.slots isComma (items.map f) = .ok ((slots items).map (Option.map f)) := by
  cases items with
  | nil => rfl
  | cons item rest =>
    obtain ⟨first,others,split,_,cut⟩ := slotted.slotsFrom_split told
    rw [slots,split,map_cons,Commas.slots,← map_cons,cut]
    · rfl
    · exact nofun
    · exact nofun

theorem slots_own (slotted : Commas.Slotted isSeparator true items) : Commas.slots isSeparator items = .ok (slots items) := by
  have own := slots_split (f := id) slotted fun _ _ => rfl
  simpa using own

theorem mem_slots (slotted : Commas.Slotted isSeparator true items) (member : some item ∈ slots items) :
    item ∈ items ∧ item.isSeparator = false :=
  Commas.mem_slots (slots_own slotted) member

theorem slot_of_mem (slotted : Commas.Slotted isSeparator true items) (member : item ∈ items)
    (plain : item.isSeparator = false) : some item ∈ slots items := by
  have own := slots_own slotted
  cases items with
  | nil => cases member
  | cons first rest => exact (Commas.cut_of_slotsFrom own).found member plain

end Slots

section Proper

variable {rule : Rule} {tree : Tree} (proper : tree.Proper rule) (list : rule ∈ Rule.listed)

include proper list

theorem Proper.isComma_eq (member : item ∈ tree.children) (located : Bool) :
    Phrase.isComma (item.understood located) = item.isSeparator := by
  obtain ⟨level,derives⟩ := proper.derives
  have shown := derives.not_counted (beq_iff_eq.mp (all_eq_true.mp Rule.listed_checked rule list)) member
  rw [Phrase.isComma,Part.text,tree_understood,Bool.eq_iff_iff,beq_iff_eq]
  rcases proper.child member with ⟨token,rfl,genuine⟩ | ⟨other,inner⟩
  · simp only [text_leaf,isSeparator,Tree.member,beq_iff_eq,Member.token.injEq]
    constructor
    · intro text
      exact genuine.kind_eq (by rw [text]; exact Lexicon.first_comma)
    · intro kind
      exact proper.leaf_text member (by rw [kind]; rfl)
  · rw [rule?_eq.mp inner.rule_eq,Member.isHidden,Bool.or_eq_false_iff] at shown
    have other : item.text ≠ "," := inner.text_ne shown.1 shown.2 Lexicon.first_comma
    simp [other,isSeparator,rule?_eq.mp inner.rule_eq]

theorem Proper.slots_eq (inside : ∀ item ∈ items, item ∈ tree.children)
    (slotted : Commas.Slotted isSeparator true items) (located : Bool) :
    Commas.slots Phrase.isComma (items.map (understood located)) =
      .ok ((slots items).map (Option.map (understood located))) :=
  slots_split slotted fun item member => proper.isComma_eq list (inside item member) located

end Proper

-- A variable of which nothing but the name is written.
def NamedVariable (name : Tree) (value : Value) : Prop :=
  value.IsNode fun node => Value.isOf ["VariableDeclaration"] node = true ∧ node.get? "name" = some (.text name.text)

-- A variable that is declared with its type.
def TypedVariable (located : Bool) (declaration : Tree) (value : Value) : Prop :=
  value.IsNode fun node => Value.isOf ["VariableDeclaration"] node = true ∧ ∃ name type kind,
    declaration.inner .identifier = [name] ∧ node.get? "name" = some (.text name.text) ∧
    declaration.inner .typeName = [type] ∧ type.meaning located = .ok kind ∧ node.get? "typeName" = some kind

theorem paired_slots {each : Option Part → Meaning} {means : Tree → Value → Prop} (empty : each none = .ok .null)
    (filled : ∀ item, some item ∈ slots items → Yields (means item) (each (some (item.understood located))))
    (paired : List.Forall₂ (fun slot value => each slot = .ok value) ((slots items).map (Option.map (understood located)))
      values) : List.Forall₂ (Slot means) (slots items) values := by
  rw [forall₂_map_left_iff] at paired
  have member : List.Forall₂ (fun slot value => slot ∈ slots items ∧ each (slot.map (understood located)) = .ok value)
      (slots items) values := (forall₂_and_left _ _).mpr ⟨fun _ inside => inside,paired⟩
  refine member.imp fun slot value own => ?_
  obtain ⟨inside,made⟩ := own
  cases slot with
  | none => exact Except.ok.inj (made.symm.trans empty)
  | some item => exact filled item inside value made

section Meanings

variable {tree : Tree} {located : Bool}

theorem innerParts_between (filled : tree.children ≠ []) :
    (tree.seen located).innerParts = .ok (tree.between.map (understood located)) := by
  rw [Phrase.innerParts,if_neg (by simpa [seen] using filled)]
  simp [seen,between,map_dropLast]

theorem Proper.children_ne_nil (proper : tree.Proper rule) (always : 0 < rule.least fun _ => true) :
    tree.children ≠ [] := by
  obtain ⟨level,derives⟩ := proper.derives
  obtain ⟨child,member,_⟩ := derives.child_of_least always
  exact ne_nil_of_mem member

theorem Proper.identifierList_slots (proper : tree.Proper .identifierList) :
    Yields (fun value => ∃ items, value = .list items ∧ List.Forall₂ (Slot NamedVariable) (slots tree.between) items)
      (tree.meaning located) := by
  have sliced := proper.slots_eq (by decide) (fun _ => mem_between) (Known.identifierList_slotted proper) located
  rw [meaning_seen proper.rule_eq,Phrase.meaning,Phrase.identifierList,
    innerParts_between (proper.children_ne_nil (by decide))]
  refine Yields.chain fun parts same => ?_
  cases same
  refine Yields.chain fun cut same => ?_
  cases sliced.symm.trans same
  refine (Yields.paired _).bind fun values paired => .ok ⟨values,rfl,paired_slots rfl (fun name _ => ?_) paired⟩
  refine Phrase.yields_node fun place placed _ => ⟨_,rfl,rfl,?_⟩
  rw [Fields.get?_made placed (by decide) (by decide),Part.text,tree_understood]
  rfl

theorem Proper.tupleExpression_slots (proper : tree.Proper .tupleExpression) :
    Yields (Value.IsNode fun node => Value.isOf ["TupleExpression"] node = true ∧ ∃ items,
      node.get? "components" = some (.list items) ∧
      List.Forall₂ (Slot fun value meant => value.meaning located = .ok meant) (slots tree.between) items)
      (tree.meaning located) := by
  have sliced := proper.slots_eq (by decide) (fun _ => mem_between) (Known.tupleExpression_slotted proper) located
  rw [meaning_seen proper.rule_eq,Phrase.meaning,Phrase.tupleExpression,
    innerParts_between (proper.children_ne_nil (by decide))]
  refine Yields.chain fun parts same => ?_
  cases same
  refine Yields.chain fun cut same => ?_
  cases sliced.symm.trans same
  refine (Yields.paired _).bind fun values paired => Yields.any.bind fun opening _ => ?_
  refine Phrase.yields_node fun place placed _ => ⟨_,rfl,rfl,values,?_,paired_slots rfl (fun item _ => ?_) paired⟩
  · exact Fields.get?_made placed (by decide) (by decide)
  · exact fun meant own => own

theorem Proper.only_child (proper : tree.Proper rule) (always : 0 < rule.least (Member.isPhrase other))
    (once : rule.most (Member.isPhrase other) = some 1) (located : Bool) : ∃ child, tree.inner other = [child] ∧
      Phrase.all other (tree.understood located).parts = [child.understood located] := by
  obtain ⟨level,derives⟩ := proper.derives
  have filled := length_pos_iff.mpr (derives.inner_ne_nil always)
  have few := derives.inner_le once
  obtain ⟨child,only⟩ := length_eq_one_iff.mp (by omega : (tree.inner other).length = 1)
  exact ⟨child,only,by rw [parts_understood,all_understood,only]; rfl⟩

theorem Proper.listedDeclaration (proper : tree.Proper .variableDeclaration)
    (list : SolReader.Phrase) :
    Yields (tree.TypedVariable located) (list.listedDeclaration (tree.understood located)) := by
  obtain ⟨name,isName,named⟩ := proper.only_child (show 0 < Rule.least _ (Member.isPhrase .identifier) by decide)
    (by decide) located
  obtain ⟨type,isType,typed⟩ := proper.only_child (show 0 < Rule.least _ (Member.isPhrase .typeName) by decide)
    (by decide) located
  have phrase : (tree.understood located).rule?.isNone = false := by
    simp [Part.rule?,proper.rule_eq]
  rw [Phrase.listedDeclaration,phrase,named,typed]
  refine Yields.chain fun text isText => Yields.chain fun kind means => ?_
  cases isText
  refine Phrase.yields_node fun place placed _ => ⟨_,rfl,rfl,name,type,kind,isName,?_,isType,means,?_⟩
  · rw [Fields.get?_made placed (by decide) (by decide),Part.text,tree_understood]
    rfl
  · exact Fields.get?_made placed (by decide) (by decide)

end Meanings

end Tree

-- A list of declarations ends at the first empty slot.
theorem Phrase.listedDeclarations_yields (phrase : Phrase) (slots : List (Option Part)) :
    Yields (fun declared? => (none ∈ slots → declared? = none) ∧ (none ∉ slots → ∃ values, declared? = some values ∧
      List.Forall₂ (fun slot value => ∃ part, slot = some part ∧ phrase.listedDeclaration part = .ok value) slots values))
      (phrase.listedDeclarations slots) := by
  induction slots with
  | nil => exact .ok ⟨nofun,fun _ => ⟨[],rfl,.nil⟩⟩
  | cons slot slots ih =>
    cases slot with
    | none => exact .ok ⟨fun _ => rfl,fun full => absurd mem_cons_self full⟩
    | some part =>
      rw [listedDeclarations]
      refine Yields.chain fun first own => ih.bind fun declared? rest => .ok ⟨fun gap => ?_,fun full => ?_⟩
      · rw [rest.1 (by simpa using gap)]
        rfl
      · obtain ⟨values,rfl,others⟩ := rest.2 fun later => full (mem_cons_of_mem _ later)
        exact ⟨first :: values,rfl,.cons ⟨part,rfl,own⟩ others⟩

namespace Tree

variable {tree : Tree} {located : Bool}

theorem Proper.declaration_of_slot (proper : tree.Proper .variableDeclarationList)
    (member : item ∈ tree.children) (plain : item.isSeparator = false) : item.Proper .variableDeclaration := by
  obtain ⟨level,derives⟩ := proper.derives
  have other := derives.not_counted (show Rule.variableDeclarationList.most (fun member =>
    member != .token .comma && member != .phrase .variableDeclaration) = some 0 by decide) member
  rcases proper.child member with ⟨token,rfl,_⟩ | ⟨own,inner⟩
  · have kind : token.kind = .comma := by simpa [Tree.member] using other
    simp [isSeparator,Tree.member,kind] at plain
  · have same : own = .variableDeclaration := by simpa [rule?_eq.mp inner.rule_eq] using other
    exact same ▸ inner

theorem Proper.variableDeclarationList_slots (proper : tree.Proper .variableDeclarationList) :
    Yields (fun value => (none ∈ slots tree.children → value = .null) ∧ (none ∉ slots tree.children → ∃ items,
      value = .list items ∧ List.Forall₂ (Slot (TypedVariable located)) (slots tree.children) items))
      (tree.meaning located) := by
  have slotted := Known.variableDeclarationList_slotted proper
  have sliced := proper.slots_eq (by decide) (fun _ => id) slotted located
  have gaps : none ∈ (slots tree.children).map (Option.map (understood located)) ↔ none ∈ slots tree.children := by
    simp
  rw [meaning_seen proper.rule_eq,Phrase.meaning,Phrase.variableDeclarationList]
  refine Yields.chain fun cut same => ?_
  cases sliced.symm.trans same
  refine (Phrase.listedDeclarations_yields _ _).bind fun declared? found => ?_
  rw [gaps] at found
  by_cases gap : none ∈ slots tree.children
  · rw [found.1 gap]
    exact .ok ⟨fun _ => rfl,fun full => absurd gap full⟩
  · obtain ⟨values,rfl,paired⟩ := found.2 gap
    refine .ok ⟨fun filled => absurd filled gap,fun _ => ⟨values,rfl,?_⟩⟩
    rw [forall₂_map_left_iff] at paired
    have member := (forall₂_and_left _ _).mpr ⟨fun slot (inside : slot ∈ slots tree.children) => inside,paired⟩
    refine member.imp fun slot value own => ?_
    obtain ⟨inside,part,isPart,made⟩ := own
    cases slot with
    | none => cases isPart
    | some item =>
      cases isPart
      obtain ⟨isChild,plain⟩ := mem_slots slotted inside
      exact (proper.declaration_of_slot isChild plain).listedDeclaration _ value made

theorem Derives.inner_sole (derives : Derives rule level tree) {counted : Member → Bool}
    (once : rule.most counted = some 1) (member : child ∈ tree.children)
    (counts : counted child.member = true) (sort : counted (.phrase other) = true) :
    tree.inner other = if child.rule? = some other then [child] else [] := by
  have few := derives.le_most once
  rw [countP_eq_length_filter] at few
  have sole : (tree.children.filter fun child => counted child.member) = [child] := by
    have inside : child ∈ tree.children.filter fun child => counted child.member := mem_filter.mpr ⟨member,counts⟩
    obtain ⟨only,same⟩ := length_eq_one_iff.mp (Nat.le_antisymm few (length_pos_of_mem inside))
    rw [same,mem_singleton] at inside
    rw [same,inside]
  have within : tree.inner other = (tree.children.filter fun child => counted child.member).filter (·.rule? == some other) := by
    rw [inner,filter_filter]
    refine filter_congr fun item _ => ?_
    cases own : item.rule? == some other with
    | false => rfl
    | true =>
      rw [rule?_eq.mp (beq_iff_eq.mp own),sort]
      rfl
  rw [within,sole,filter_singleton]
  simp

-- The phrases that say what a statement declares.
def isDeclaring : Member → Bool
  | .phrase .variableDeclaration | .phrase .identifierList | .phrase .variableDeclarationList => true
  | _ => false

-- The node of a statement has the variables that its declaring child says.
def DeclaresIn (located : Bool) (tree : Tree) (node : Fields) : Prop :=
  (∀ declaration ∈ tree.inner .variableDeclaration, ∃ value, declaration.meaning located = .ok value ∧
    node.get? "variables" = some (.list [value])) ∧
  ∀ rule ∈ [Rule.identifierList,.variableDeclarationList], ∀ list ∈ tree.inner rule, ∃ value,
    list.meaning located = .ok value ∧ node.get? "variables" = some value

section Declaring

variable {level : Nat} (derives : Derives .variableDeclarationStatement level tree) {child : Tree}
  (member : child ∈ tree.children) (declaring : isDeclaring child.member = true)

include derives member declaring

theorem Derives.declaring_sole (sort : isDeclaring (.phrase other) = true) :
    tree.inner other = if child.rule? = some other then [child] else [] :=
  derives.inner_sole (by decide) member declaring sort

theorem Derives.declaring_first {other : Rule} (sort : isDeclaring (.phrase other) = true) :
    (tree.seen located).first? other = if child.rule? = some other then some (child.understood located) else none := by
  rw [Phrase.first?,show (tree.seen located).allOf other = _ from all_understood located other tree,
    derives.declaring_sole member declaring sort]
  split <;> rfl

theorem Derives.declares (means : child.meaning located = .ok value) {node : Fields}
    (has : node.get? "variables" = some (if child.rule? = some .variableDeclaration then .list [value] else value)) :
    tree.DeclaresIn located node := by
  refine ⟨fun declaration inside => ?_,fun rule isList list inside => ?_⟩
  · rw [derives.declaring_sole member declaring rfl] at inside
    split at inside
    · rename_i single
      cases mem_singleton.mp inside
      exact ⟨value,means,by rw [has,if_pos single]⟩
    · cases inside
  · have sort : isDeclaring (.phrase rule) = true ∧ rule ≠ .variableDeclaration := by
      simp only [mem_cons,not_mem_nil,or_false] at isList
      rcases isList with rfl | rfl <;> exact ⟨rfl,by decide⟩
    rw [derives.declaring_sole member declaring sort.1] at inside
    split at inside
    · rename_i several
      cases mem_singleton.mp inside
      exact ⟨value,means,by rw [has,if_neg (by simpa [several] using sort.2)]⟩
    · cases inside

end Declaring

theorem Proper.variableDeclarationStatement_node (proper : tree.Proper .variableDeclarationStatement) :
    Yields (Value.IsNode fun node => Value.isOf ["VariableDeclarationStatement"] node = true ∧ tree.DeclaresIn located node)
      (tree.meaning located) := by
  obtain ⟨level,derives⟩ := proper.derives
  obtain ⟨child,member,declaring⟩ := derives.child_of_least (show 0 < Rule.least _ isDeclaring by decide)
  have first := fun other => @Derives.declaring_first tree located level derives child member declaring other
  have rest {value : Value} (means : child.meaning located = .ok value) (declared : Value)
      (same : declared = if child.rule? = some .variableDeclaration then .list [value] else value) :
      Yields (Value.IsNode fun node => Value.isOf ["VariableDeclarationStatement"] node = true ∧ tree.DeclaresIn located node)
        (do
          let initial ← Part.meaningOf ((tree.seen located).first? .expression)
          (tree.seen located).node "VariableDeclarationStatement" [("variables",declared),("initialValue",initial)]) := by
    refine Yields.any.bind fun initial _ => Phrase.yields_node fun place placed _ => ⟨_,rfl,rfl,?_⟩
    refine derives.declares member declaring means ?_
    rw [Fields.get?_made placed (by decide) (by decide),← same]
    rfl
  have rules : child.rule? = some .variableDeclaration ∨ child.rule? = some .identifierList ∨
      child.rule? = some .variableDeclarationList := by
    simp only [rule?_eq]
    unfold isDeclaring at declaring
    split at declaring <;> simp_all
  rw [meaning_seen proper.rule_eq,Phrase.meaning,Phrase.variableDeclarationStatement,first _ rfl,first _ rfl,first _ rfl]
  rcases rules with isRule | isRule | isRule
  · simp only [isRule,Option.some.injEq,reduceCtorEq,if_true,if_false]
    exact Yields.chain fun value means => rest means _ (by rw [if_pos isRule])
  · simp only [isRule,Option.some.injEq,reduceCtorEq,if_true,if_false,map_eq_pure_bind,bind_assoc,pure_bind]
    exact Yields.chain fun value means => rest means _ (by rw [isRule]; rfl)
  · simp only [isRule,Option.some.injEq,reduceCtorEq,if_true,if_false,map_eq_pure_bind,bind_assoc,pure_bind]
    exact Yields.chain fun value means => rest means _ (by rw [isRule]; rfl)

end Tree

-- In a text read without complaint, names and components keep their slots, and so do declarations with types unless one of
-- the slots is empty; then nothing is left of the list.
theorem parse_slots {text start : String} {located : Bool} {rule : Rule} (known : Rule.ofName? start = some rule)
    (clean : (parse text start located).2 = []) {phrase : Tree}
    (inside : phrase ∈ (Reading.ofText rule text).tree.phrases) :
    (phrase.rule? = some .variableDeclarationStatement → ∃ node : Fields, phrase.meaning located = .ok (.node node) ∧
      Value.isOf ["VariableDeclarationStatement"] node = true ∧
      (∀ list ∈ phrase.inner .variableDeclarationList,
        (none ∈ Tree.slots list.children → node.get? "variables" = some .null) ∧
        (none ∉ Tree.slots list.children → ∃ items, node.get? "variables" = some (.list items) ∧
          List.Forall₂ (Tree.Slot (Tree.TypedVariable located)) (Tree.slots list.children) items)) ∧
      ∀ list ∈ phrase.inner .identifierList, ∃ items, node.get? "variables" = some (.list items) ∧
        List.Forall₂ (Tree.Slot Tree.NamedVariable) (Tree.slots list.between) items) ∧
    (phrase.rule? = some .tupleExpression → ∃ node : Fields, phrase.meaning located = .ok (.node node) ∧
      Value.isOf ["TupleExpression"] node = true ∧ ∃ items, node.get? "components" = some (.list items) ∧
        List.Forall₂ (Tree.Slot fun value meant => value.meaning located = .ok meant) (Tree.slots phrase.between) items) := by
  rw [parse_known known] at clean
  have proper {own : Rule} (found : phrase.rule? = some own) : phrase.Proper own := by
    obtain ⟨_,proper⟩ := (Reading.ofText_proper clean).phrases inside
    exact proper.same found ▸ proper
  refine ⟨fun found => ?_,fun found => ?_⟩
  · have own := proper found
    obtain ⟨value,means⟩ := Reading.phrase_means clean inside found nofun nofun (own.clear rfl) located
    obtain ⟨node,rfl,sort,_,listed⟩ := own.variableDeclarationStatement_node value means
    refine ⟨node,means,sort,fun list isList => ?_,fun list isList => ?_⟩
    · obtain ⟨value,meant,has⟩ := listed .variableDeclarationList (by simp) list isList
      obtain ⟨gap,full⟩ := (own.inner isList).variableDeclarationList_slots value meant
      refine ⟨fun filled => gap filled ▸ has,fun absent => ?_⟩
      obtain ⟨items,rfl,paired⟩ := full absent
      exact ⟨items,has,paired⟩
    · obtain ⟨value,meant,has⟩ := listed .identifierList (by simp) list isList
      obtain ⟨items,rfl,paired⟩ := (own.inner isList).identifierList_slots value meant
      exact ⟨items,has,paired⟩
  · have own := proper found
    obtain ⟨value,means⟩ := Reading.phrase_means clean inside found nofun nofun (own.clear rfl) located
    obtain ⟨node,rfl,sort,kept⟩ := own.tupleExpression_slots value means
    exact ⟨node,means,sort,kept⟩

-- Three slots, of which the one in the middle is empty.
def threeSlots : String := "var(a,,b);"

set_option maxRecDepth 100000 in
theorem threeSlots_read : ((parse threeSlots "variableDeclarationStatement" false).2.isEmpty &&
    ((Reading.ofText .variableDeclarationStatement threeSlots).tree.inner .identifierList).map (fun list =>
      (Tree.slots list.between).map (Option.map Tree.text)) == [[some "a",none,some "b"]]) = true := by
  decide +kernel

theorem threeSlots_kept : (parse threeSlots "variableDeclarationStatement" false).2 = [] ∧ ∃ node first last : Fields,
    (parse threeSlots "variableDeclarationStatement" false).1 = .ok (.node node) ∧
    node.get? "variables" = some (.list [.node first,.null,.node last]) ∧
    first.get? "name" = some (.text "a") ∧ last.get? "name" = some (.text "b") := by
  have known : Rule.ofName? "variableDeclarationStatement" = some .variableDeclarationStatement := by decide
  have read := threeSlots_read
  rw [Bool.and_eq_true,List.isEmpty_iff,beq_iff_eq] at read
  obtain ⟨clean,lists⟩ := read
  have whole := clean
  rw [parse_known known] at whole
  have found := (Reading.ofText_proper whole).rule_eq
  obtain ⟨node,means,_,_,named⟩ := (parse_slots known clean (Tree.self_mem found)).1 found
  obtain ⟨list,isList,three⟩ : ∃ list ∈ (Reading.ofText .variableDeclarationStatement threeSlots).tree.inner .identifierList,
      (Tree.slots list.between).map (Option.map Tree.text) = [some "a",none,some "b"] :=
    List.mem_map.mp (lists ▸ List.mem_singleton_self _)
  obtain ⟨items,has,paired⟩ := named list isList
  generalize Tree.slots list.between = slots at three paired
  simp only [List.map_eq_cons_iff,List.map_eq_nil_iff,Option.map_eq_none_iff,Option.map_eq_some_iff] at three
  obtain ⟨_,_,rfl,⟨a,rfl,isA⟩,_,_,rfl,rfl,_,_,rfl,⟨b,rfl,isB⟩,rfl⟩ := three
  simp only [List.forall₂_cons_left_iff,List.forall₂_nil_left_iff] at paired
  obtain ⟨_,_,⟨first,rfl,_,named⟩,⟨_,_,rfl,⟨_,_,⟨last,rfl,_,also⟩,rfl,rfl⟩,rfl⟩,rfl⟩ := paired
  rw [isA] at named
  rw [isB] at also
  rw [parse_known known]
  exact ⟨whole,node,first,last,means,has,named,also⟩

end SolReader
