import SolReader.Proofs.Ast.Postfix

namespace SolReader

open List

-- The statements that have nodes of their own, with the types of the nodes.
def Rule.statementTypes : List (Rule × String) := [
  (.ifStatement,"IfStatement"),(.tryStatement,"TryStatement"),(.whileStatement,"WhileStatement"),
  (.forStatement,"ForStatement"),(.block,"Block"),(.inlineAssemblyStatement,"InLineAssemblyStatement"),
  (.doWhileStatement,"DoWhileStatement"),(.throwStatement,"ThrowStatement"),(.emitStatement,"EmitStatement"),
  (.uncheckedStatement,"UncheckedStatement"),(.revertStatement,"RevertStatement"),
  (.variableDeclarationStatement,"VariableDeclarationStatement"),(.expressionStatement,"ExpressionStatement")]

-- The statements that have none.
def Rule.jumps : List Rule := [.breakStatement,.continueStatement,.returnStatement]

theorem Rule.statementTypes_apart :
    ∀ one ∈ Rule.statementTypes, ∀ two ∈ Rule.statementTypes, one.2 = two.2 → one.1 = two.1 := by
  decide

-- A statement is a single phrase.
def Rule.formed (row : List Member) (others : List Rule) : Bool :=
  match row with
  | [.phrase rule] => others.contains rule
  | _ => false

theorem Rule.statement_formed : (Rule.statement.rows.any fun rows => rows.all fun row =>
    Rule.formed row (.simpleStatement :: (Rule.statementTypes.map Prod.fst ++ Rule.jumps))) = true := by
  decide

theorem Rule.simpleStatement_formed : (Rule.simpleStatement.rows.any fun rows => rows.all fun row =>
    Rule.formed row (Rule.statementTypes.map Prod.fst)) = true := by
  decide

namespace Tree

variable {type : String}
variable {tree : Tree} {rule : Rule} {located : Bool}

-- The phrase that a statement is made of.  A simple statement is looked through.
def form? (statement : Tree) : Option Tree :=
  statement.children.head?.bind fun child =>
    if child.rule? = some .simpleStatement then child.children.head? else some child

-- What the entry of a statement of the rule is.  The types of nodes tell the statements that have nodes apart, and from
-- all others.
structure Entered (located : Bool) (rule : Rule) (form : Tree) (value : Value) : Prop where
  means : form.meaning located = .ok value
  typed : ∀ row ∈ Rule.statementTypes, value.IsNode (fun node => Value.isOf [row.2] node = true) ↔ row.1 = rule
  marked : rule = .breakStatement ∨ rule = .continueStatement → value = .text ";"
  returned : rule = .returnStatement →
    Slot (fun result value => result.meaning located = .ok value) (form.inner .expression).head? value

def Entry (located : Bool) (statement : Tree) (value : Value) : Prop :=
  ∃ form rule, statement.form? = some form ∧ form.rule? = some rule ∧
    rule ∈ Rule.statementTypes.map Prod.fst ++ Rule.jumps ∧ form.Entered located rule value

theorem Phrase.typed_node {phrase : SolReader.Phrase} :
    Yields (Value.IsNode fun node => Value.isOf [type] node = true) (phrase.node type fields) :=
  Phrase.yields_node fun place _ _ => ⟨_,rfl,by
    change List.contains [type] type = true
    simp⟩

theorem Proper.statement_node (proper : tree.Proper rule) (listed : (rule,type) ∈ Rule.statementTypes) :
    Yields (Value.IsNode fun node => Value.isOf [type] node = true) (tree.meaning located) := by
  rw [meaning_seen proper.rule_eq]
  simp only [Rule.statementTypes,mem_cons,Prod.mk.injEq,not_mem_nil,or_false] at listed
  rcases listed with ⟨rfl,rfl⟩ | ⟨rfl,rfl⟩ | ⟨rfl,rfl⟩ | ⟨rfl,rfl⟩ | ⟨rfl,rfl⟩ | ⟨rfl,rfl⟩ | ⟨rfl,rfl⟩ | ⟨rfl,rfl⟩ |
    ⟨rfl,rfl⟩ | ⟨rfl,rfl⟩ | ⟨rfl,rfl⟩ | ⟨rfl,rfl⟩ | ⟨rfl,rfl⟩
  · exact .chain fun _ _ => .chain fun _ _ => .chain fun _ _ => Phrase.typed_node
  · exact .chain fun _ _ => .chain fun _ _ => .chain fun _ _ => .chain fun _ _ => Phrase.typed_node
  · exact .chain fun _ _ => .chain fun _ _ => Phrase.typed_node
  · exact .chain fun _ _ => .chain fun _ _ => .chain fun _ _ => .chain fun _ _ => .chain fun _ _ => Phrase.typed_node
  · exact .chain fun _ _ => Phrase.typed_node
  · exact .chain fun _ _ => Phrase.typed_node
  · exact .chain fun _ _ => .chain fun _ _ => Phrase.typed_node
  · exact Phrase.typed_node
  · exact .chain fun _ _ => Phrase.typed_node
  · exact .chain fun _ _ => Phrase.typed_node
  · exact .chain fun _ _ => Phrase.typed_node
  · rw [← meaning_seen proper.rule_eq]
    refine proper.variableDeclarationStatement_node.imp ?_
    rintro _ ⟨node,rfl,sort,_⟩
    exact ⟨node,rfl,sort⟩
  · exact .chain fun _ _ => Phrase.typed_node

theorem Proper.loopJump_means (proper : tree.Proper rule) (jumps : rule = .breakStatement ∨ rule = .continueStatement) :
    Yields (fun value => value = .text ";") (tree.meaning located) := by
  obtain ⟨level,derives⟩ := proper.derives
  obtain ⟨word,shape⟩ : ∃ word, tree.children.map member = [.token word,.token .semicolon] := by
    rcases jumps with rfl | rfl
    · have row := derives.mem_rows (show Rule.rows .breakStatement = some [[.token .kwBreak,.token .semicolon]] by decide)
      exact ⟨_,mem_singleton.mp row⟩
    · have row := derives.mem_rows (show Rule.rows .continueStatement = some [[.token .kwContinue,.token .semicolon]] by decide)
      exact ⟨_,mem_singleton.mp row⟩
  have last : (tree.seen located).meaning rule = (tree.seen located).lastMeaning := by
    rcases jumps with rfl | rfl <;> rfl
  obtain ⟨token,second,text⟩ := proper.leaf_at 1 .semicolon ";" (by rw [shape]; rfl) rfl
  have isLast : tree.children.getLast? = some (.leaf token) := by
    rw [List.getLast?_eq_getElem?,show tree.children.length = 2 by simpa using congrArg List.length shape]
    exact second
  rw [meaning_seen proper.rule_eq,last]
  refine (lastMeaning_last isLast).imp fun value means => ?_
  exact (Except.ok.inj means).symm.trans (congrArg Value.text text)

theorem Proper.return_means (proper : tree.Proper .returnStatement) :
    Yields (Slot (fun result value => result.meaning located = .ok value) (tree.inner .expression).head?)
      (tree.meaning located) := by
  rw [meaning_seen proper.rule_eq]
  change Yields _ (Phrase.returnStatement _)
  rw [Phrase.returnStatement,Phrase.first?,show (tree.seen located).allOf .expression = _ from
    all_understood located .expression tree,List.head?_map]
  cases (tree.inner .expression).head? with
  | none => exact .ok rfl
  | some result => exact fun value means => means

theorem Proper.jump_other (proper : tree.Proper rule) (jump : rule ∈ Rule.jumps) :
    Yields (Value.OtherThan (Rule.statementTypes.map Prod.snd)) (tree.meaning located) := by
  intro value means
  simp only [Rule.jumps,mem_cons,not_mem_nil,or_false] at jump
  rcases jump with rfl | rfl | rfl
  · rw [proper.loopJump_means (.inl rfl) value means]
    trivial
  · rw [proper.loopJump_means (.inr rfl) value means]
    trivial
  · have returned := proper.return_means value means
    cases found : (tree.inner .expression).head? with
    | none =>
      rw [found] at returned
      rw [show value = .null from returned]
      trivial
    | some result =>
      rw [found] at returned
      exact (proper.inner (mem_of_mem_head? found)).expression_other (by decide) value returned

theorem Proper.entered (proper : tree.Proper rule) (listed : rule ∈ Rule.statementTypes.map Prod.fst ++ Rule.jumps) :
    Yields (tree.Entered located rule) (tree.meaning located) := by
  intro value means
  refine ⟨means,fun row other => ⟨fun isNode => ?_,fun same => ?_⟩,fun jumps => proper.loopJump_means jumps value means,?_⟩
  · obtain ⟨node,rfl,sort⟩ := isNode
    have typed := Value.type_of_isOf sort
    rcases mem_append.mp listed with owns | jump
    · obtain ⟨own,isOwn,rfl⟩ := mem_map.mp owns
      obtain ⟨again,same,ownSort⟩ := proper.statement_node isOwn _ means
      cases Value.node.inj same
      have types : row.2 = own.2 :=
        Value.text.inj (Option.some.inj (typed.symm.trans (Value.type_of_isOf ownSort)))
      exact Rule.statementTypes_apart row other own isOwn types
    · exact absurd typed (proper.jump_other jump _ means _ (mem_map_of_mem other))
  · subst same
    exact proper.statement_node other value means
  · rintro rfl
    exact proper.return_means value means

theorem Proper.formed (proper : tree.Proper rule)
    (checked : (rule.rows.any fun rows => rows.all fun row => Rule.formed row others) = true)
    (hands : ∀ phrase : SolReader.Phrase, phrase.meaning rule = Part.meaningAt phrase 0) (located : Bool) :
    ∃ form other, tree.children.head? = some form ∧ form.Proper other ∧ other ∈ others ∧
      tree.meaning located = form.meaning located := by
  obtain ⟨level,derives⟩ := proper.derives
  have row := derives.row_checked checked
  unfold Rule.formed at row
  split at row
  · rename_i other shape
    obtain ⟨form,only,sort⟩ := map_eq_singleton_iff.mp shape
    have inside := mem_inner.mpr ⟨show form ∈ tree.children by simp [only],rule?_eq.mpr sort⟩
    refine ⟨form,other,by rw [only]; rfl,proper.inner inside,contains_iff_mem.mp row,?_⟩
    rw [meaning_seen proper.rule_eq,hands,seen_meaningAt (show tree.children[0]? = some form by rw [only]; rfl)]
  · cases row

theorem Proper.entry (proper : tree.Proper .statement) : Yields (tree.Entry located) (tree.meaning located) := by
  obtain ⟨form,other,first,own,listed,same⟩ := proper.formed Rule.statement_formed (fun _ => rfl) located
  rw [same]
  by_cases simple : other = .simpleStatement
  · subst simple
    obtain ⟨inner,rule,second,below,typed,again⟩ := own.formed Rule.simpleStatement_formed (fun _ => rfl) located
    have named := mem_append_left Rule.jumps typed
    rw [again]
    refine (below.entered named).imp fun value entered => ⟨inner,rule,?_,below.rule_eq,named,entered⟩
    rw [form?,first,Option.bind_some,if_pos own.rule_eq,second]
  · have named := (mem_cons.mp listed).resolve_left simple
    refine (own.entered named).imp fun value entered => ⟨form,other,?_,own.rule_eq,named,entered⟩
    rw [form?,first,Option.bind_some,own.rule_eq,if_neg fun same => simple (Option.some.inj same)]

theorem Proper.block_entries (proper : tree.Proper .block) :
    Yields (Value.IsNode fun node => Value.isOf ["Block"] node = true ∧ ∃ items,
      node.get? "statements" = some (.list items) ∧ List.Forall₂ (Entry located) (tree.inner .statement) items)
      (tree.meaning located) := by
  rw [meaning_seen proper.rule_eq]
  change Yields _ (Phrase.block _)
  rw [Phrase.block,Part.listOf,show (tree.seen located).allOf .statement = _ from all_understood located .statement tree,
    meanings_understood]
  refine ((Yields.paired _).bind fun items paired => .ok ⟨items,rfl,paired⟩ : Yields (fun value => ∃ items,
    value = .list items ∧ Mean located (tree.inner .statement) items) _).bind ?_
  rintro _ ⟨items,rfl,mean⟩
  refine Phrase.yields_node fun place placed _ => ⟨_,rfl,rfl,items,Fields.get?_made placed (by decide) (by decide),?_⟩
  have member := (forall₂_and_left _ _).mpr ⟨fun statement (inside : statement ∈ tree.inner .statement) => inside,mean⟩
  exact member.imp fun statement value own => (proper.inner own.1).entry value own.2

end Tree

-- In a text read without complaint, a block that can be read has one entry for each of its statements, in order.  A node of
-- one of thirteen types tells which statement it comes from, but `break` and `continue` leave the same text, a `return` is
-- told by nothing, and what it returns takes its place.
theorem parse_entries {text start : String} {located : Bool} {rule : Rule} (known : Rule.ofName? start = some rule)
    (clean : (parse text start located).2 = []) {phrase : Tree}
    (inside : phrase ∈ (Reading.ofText rule text).tree.phrases) (found : phrase.rule? = some .block)
    (clear : phrase.clear = true) : ∃ (node : Fields) (items : List Value), phrase.meaning located = .ok (.node node) ∧
      Value.isOf ["Block"] node = true ∧ node.get? "statements" = some (.list items) ∧
      List.Forall₂ (Tree.Entry located) (phrase.inner .statement) items := by
  rw [parse_known known] at clean
  obtain ⟨_,proper⟩ := (Reading.ofText_proper clean).phrases inside
  cases proper.same found
  obtain ⟨value,means⟩ := Reading.phrase_means clean inside found nofun nofun clear located
  obtain ⟨node,rfl,sort,items,has,entries⟩ := proper.block_entries value means
  exact ⟨node,items,means,sort,has,entries⟩

-- The three statements that have no nodes.
def threeJumps : String := "\x7bbreak;continue;return;\x7d"

set_option maxRecDepth 100000 in
theorem threeJumps_read : ((Reading.ofText .block threeJumps).diagnostics.isEmpty &&
    (Reading.ofText .block threeJumps).tree.clear &&
    ((Reading.ofText .block threeJumps).tree.inner .statement).map (fun statement => statement.form?.map fun form =>
        (form.rule?,(form.inner .expression).isEmpty)) ==
      [some (some .breakStatement,true),some (some .continueStatement,true),some (some .returnStatement,true)]) =
    true := by
  decide +kernel

theorem threeJumps_blurred : (parse threeJumps "block" false).2 = [] ∧ ∃ node : Fields,
    (parse threeJumps "block" false).1 = .ok (.node node) ∧
    node.get? "statements" = some (.list [.text ";",.text ";",.null]) := by
  have known : Rule.ofName? "block" = some .block := by decide
  have read := threeJumps_read
  rw [Bool.and_eq_true,Bool.and_eq_true,List.isEmpty_iff,beq_iff_eq] at read
  obtain ⟨⟨whole,clear⟩,forms⟩ := read
  have clean : (parse threeJumps "block" false).2 = [] := by rw [parse_known known,whole]
  have found := (Reading.ofText_proper whole).rule_eq
  obtain ⟨node,items,means,_,has,entries⟩ := parse_entries known clean (Tree.self_mem found) found clear
  generalize (Reading.ofText .block threeJumps).tree.inner .statement = statements at forms entries
  simp only [List.map_eq_cons_iff,List.map_eq_nil_iff,Option.map_eq_some_iff,Prod.mk.injEq] at forms
  obtain ⟨_,_,rfl,⟨one,isOne,first,_⟩,_,_,rfl,⟨two,isTwo,second,_⟩,_,_,rfl,⟨three,isThree,third,bare⟩,rfl⟩ :=
    forms
  simp only [List.forall₂_cons_left_iff,List.forall₂_nil_left_iff] at entries
  obtain ⟨a,_,⟨_,_,formA,ruleA,_,enteredA⟩,⟨b,_,⟨_,_,formB,ruleB,_,enteredB⟩,⟨c,_,
    ⟨_,_,formC,ruleC,_,enteredC⟩,rfl,rfl⟩,rfl⟩,rfl⟩ := entries
  cases Option.some.inj (isOne.symm.trans formA)
  cases Option.some.inj (isTwo.symm.trans formB)
  cases Option.some.inj (isThree.symm.trans formC)
  cases Option.some.inj (first.symm.trans ruleA)
  cases Option.some.inj (second.symm.trans ruleB)
  cases Option.some.inj (third.symm.trans ruleC)
  have nothing := enteredC.returned rfl
  rw [List.isEmpty_iff.mp bare] at nothing
  rw [enteredA.marked (.inl rfl),enteredB.marked (.inr rfl),show c = .null from nothing] at has
  refine ⟨clean,node,?_,has⟩
  rw [parse_known known]
  exact means

end SolReader
