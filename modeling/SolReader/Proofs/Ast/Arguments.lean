import SolReader.Proofs.Ast.Postfix

namespace SolReader

open List

theorem Value.ne_list {value : Value} {items : List Value} (member : value ∈ items) : value ≠ .list items := by
  rintro rfl
  have smaller := sizeOf_lt_of_mem member
  simp only [Value.list.sizeOf_spec] at smaller
  omega

theorem exists_values {α β : Type} {related : α → β → Prop} {items : List α}
    (each : ∀ item ∈ items, ∃ value, related item value) : ∃ values, List.Forall₂ related items values := by
  induction items with
  | nil => exact ⟨[],.nil⟩
  | cons item items ih =>
    obtain ⟨⟨value,own⟩,others⟩ := forall_mem_cons.mp each
    obtain ⟨values,paired⟩ := ih others
    exact ⟨value :: values,.cons own paired⟩

namespace Tree

variable {tree : Tree} {located : Bool}

-- The expressions that are written in the list of a phrase, in order.
def given (tree : Tree) : List Tree :=
  (tree.inner .expressionList).flatMap (inner .expression)

-- The phrase means a node that has what all the expressions mean.
def Takes (located : Bool) (type : String) (arguments : List Tree) (tree : Tree) : Prop :=
  ∃ (node : Fields) (values : List Value), tree.meaning located = .ok (.node node) ∧ Value.isOf [type] node = true ∧
    node.get? "arguments" = some (.list values) ∧ Mean located arguments values

-- The phrase means a node that has nothing but what the last expression means, or nothing at all without one.
def TakesLast (located : Bool) (type : String) (arguments : List Tree) (tree : Tree) : Prop :=
  ∃ (node : Fields) (value : Value), tree.meaning located = .ok (.node node) ∧ Value.isOf [type] node = true ∧
    node.get? "arguments" = some value ∧ Slot (fun last value => last.meaning located = .ok value) arguments.getLast? value

theorem TakesLast.differs {type : String} {arguments : List Tree} (takes : tree.TakesLast located type arguments)
    {values : List Value} (mean : Mean located arguments values) :
    ∃ node : Fields, tree.meaning located = .ok (.node node) ∧ node.get? "arguments" ≠ some (.list values) := by
  obtain ⟨node,value,means,_,has,kept⟩ := takes
  refine ⟨node,means,fun whole => ?_⟩
  cases Option.some.inj (has.symm.trans whole)
  cases last : arguments.getLast? with
  | none =>
    rw [last] at kept
    cases kept
  | some argument =>
    rw [last] at kept
    obtain ⟨value,isLast,own⟩ := paired_last mean last
    exact Value.ne_list (mem_of_getLast? isLast) (Except.ok.inj (own.symm.trans kept))

section Lists

variable {list : Tree}

theorem given_none (absent : tree.inner .expressionList = []) : tree.given = [] := by
  rw [given,absent]
  rfl

theorem given_only (only : tree.inner .expressionList = [list]) : tree.given = list.inner .expression := by
  rw [given,only,flatMap_singleton]

theorem Proper.given_cases (proper : tree.Proper rule)
    (once : rule.most (Member.isPhrase .expressionList) = some 1) :
    tree.inner .expressionList = [] ∨ ∃ list, tree.inner .expressionList = [list] := by
  obtain ⟨level,derives⟩ := proper.derives
  have few := derives.inner_le once
  cases lists : tree.inner .expressionList with
  | nil => exact .inl rfl
  | cons list others =>
    rw [lists,length_cons] at few
    cases length_eq_zero_iff.mp (by omega : others.length = 0)
    exact .inr ⟨list,rfl⟩

theorem Proper.expressionList_last (proper : tree.Proper .expressionList) :
    Yields (Slot (fun last value => last.meaning located = .ok value) (tree.inner .expression).getLast?)
      (tree.meaning located) := by
  obtain ⟨level,derives⟩ := proper.derives
  have spells := derives.spelled_alone rfl
  obtain ⟨first,rounds,one,made,split⟩ := Form.commaList_shape spells
  have items : tree.inner .expression = first :: rounds.map Prod.snd :=
    Core.inner_commaList one (fun round member => (made round member).2) split
  obtain ⟨last,isLast⟩ : ∃ last, tree.children.getLast? = some last :=
    ⟨_,List.getLast?_eq_some_getLast (by rw [split]; exact cons_ne_nil _ _)⟩
  rw [items,← getLast_rounds,← split,isLast,meaning_seen proper.rule_eq]
  exact lastMeaning_last isLast

theorem listOf_given : Yields (fun value => ∃ values, value = .list values ∧
    Mean located (list.inner .expression) values) (Part.listOf (Phrase.all .expression (list.understood located).parts)) := by
  rw [Part.listOf,parts_understood,all_understood,meanings_understood]
  exact (Yields.paired _).bind fun values paired => .ok ⟨values,rfl,paired⟩

end Lists

section Constructs

variable {rule : Rule} {arguments : Tree}

theorem Proper.callArguments_given (proper : tree.Proper .functionCallArguments) (unnamed : tree.inner .nameValueList = []) :
    Yields (fun arguments => Mean located tree.given arguments.1) (Phrase.callArguments (some (tree.understood located))) := by
  rw [Phrase.callArguments,parts_understood,all_understood,all_understood,unnamed]
  rcases proper.given_cases (by decide) with absent | ⟨list,only⟩
  · rw [absent,given_none absent]
    exact .ok .nil
  · have collected : Yields (fun values => Mean located tree.given values)
        (Part.meanings (Phrase.all .expression (list.understood located).parts)) := by
      rw [parts_understood,all_understood,meanings_understood,given_only only]
      exact Yields.paired _
    rw [only]
    exact collected.bind fun values mean => .ok mean

set_option maxRecDepth 100000 in
theorem Rule.expression_calls : (Rule.expression.rows.any fun rows => rows.all fun row =>
    !row.contains (.phrase .functionCallArguments) || row == callRow) = true := by
  decide

theorem callHolders_checked : ∀ rule : Rule, ([.expression,.functionCall].contains rule ||
    rule.most (Member.isPhrase .functionCallArguments) == some 0) = true := by
  decide

theorem Proper.call_holder (proper : tree.Proper rule)
    (held : arguments ∈ tree.inner .functionCallArguments) : rule = .expression ∨ rule = .functionCall := by
  obtain ⟨level,derives⟩ := proper.derives
  obtain ⟨member,isRule⟩ := mem_inner.mp held
  have checked := callHolders_checked rule
  rw [Bool.or_eq_true,contains_iff_mem,beq_iff_eq] at checked
  rcases checked with listed | never
  · simpa using listed
  · have absent := derives.not_counted never member
    rw [isPhrase_member.mpr isRule] at absent
    cases absent

theorem Proper.call_takes (proper : tree.Proper rule)
    (held : arguments ∈ tree.inner .functionCallArguments) (unnamed : arguments.inner .nameValueList = []) :
    Yields (Value.IsNode fun node => Value.isOf ["FunctionCall"] node = true ∧ ∃ values,
      node.get? "arguments" = some (.list values) ∧ Mean located arguments.given values) (tree.meaning located) := by
  obtain ⟨level,derives⟩ := proper.derives
  obtain ⟨member,isRule⟩ := mem_inner.mp held
  have collects : Yields (fun values => Mean located arguments.given values.1)
      (Phrase.callArguments (some (arguments.understood located))) := (proper.inner held).callArguments_given unnamed
  have node {callee : Value} {values : List Value × List Value} (mean : Mean located arguments.given values.1) :
      Yields (Value.IsNode fun node => Value.isOf ["FunctionCall"] node = true ∧ ∃ values,
        node.get? "arguments" = some (.list values) ∧ Mean located arguments.given values)
        ((tree.seen located).node "FunctionCall" [("expression",callee),("arguments",.list values.1),
          ("names",.list values.2)]) :=
    Phrase.yields_node fun place placed _ => ⟨_,rfl,rfl,values.1,Fields.get?_made placed (by decide) (by decide),mean⟩
  rcases proper.call_holder held with rfl | rfl
  · have row := derives.row_checked Rule.expression_calls
    rw [contains_iff_mem.mpr (mem_map.mpr ⟨arguments,member,rule?_eq.mp isRule⟩),Bool.not_true,Bool.false_or,
      beq_iff_eq] at row
    rw [proper.meaning_counted row (cons_ne_nil _ _)]
    change Yields _ (tree.seen located).ofFour
    rw [Phrase.ofFour,proper.word_at 1 .lparen "(" (by rw [row]; rfl) rfl]
    refine Yields.chain fun opening opens => ?_
    cases opens
    rw [proper.word_at 3 .rparen ")" (by rw [row]; rfl) rfl]
    refine Yields.chain fun closing closes => ?_
    cases closes
    rw [proper.first_eq held (by decide)]
    exact collects.bind fun values mean => Yields.any.bind fun callee _ => node mean
  · rw [meaning_seen proper.rule_eq,Phrase.meaning,Phrase.functionCall,proper.first_eq held (by decide)]
    exact collects.bind fun values mean => Yields.any.bind fun callee _ => node mean

theorem Proper.modifier_takes (proper : tree.Proper .modifierInvocation) :
    Yields (Value.IsNode fun node => Value.isOf ["ModifierInvocation"] node = true ∧ ∃ values,
      node.get? "arguments" = some (.list values) ∧ Mean located tree.given values) (tree.meaning located) := by
  have rest {values : List Value} (mean : Mean located tree.given values) :
      Yields (Value.IsNode fun node => Value.isOf ["ModifierInvocation"] node = true ∧ ∃ values,
        node.get? "arguments" = some (.list values) ∧ Mean located tree.given values) (do
          let name ← Part.textOf ((tree.seen located).first? .identifier)
          (tree.seen located).node "ModifierInvocation" [("name",.text name),("arguments",.list values)]) := by
    refine Yields.any.bind fun name _ => Phrase.yields_node fun place placed _ => ⟨_,rfl,rfl,values,?_,mean⟩
    exact Fields.get?_made placed (by decide) (by decide)
  have lists : (tree.seen located).first? .expressionList = (tree.inner .expressionList).head?.map (understood located) := by
    rw [Phrase.first?,show (tree.seen located).allOf .expressionList = _ from all_understood located .expressionList tree,
      List.head?_map]
  rw [meaning_seen proper.rule_eq,Phrase.meaning,Phrase.modifierInvocation,lists]
  rcases proper.given_cases (by decide) with absent | ⟨list,only⟩
  · rw [absent]
    exact rest (by rw [given_none absent]; exact .nil)
  · rw [only]
    refine listOf_given.bind ?_
    rintro _ ⟨values,rfl,mean⟩
    exact rest (by rwa [given_only only])

theorem Proper.base_takes (proper : tree.Proper .inheritanceSpecifier) :
    Yields (Value.IsNode fun node => Value.isOf ["InheritanceSpecifier"] node = true ∧ ∃ value,
      node.get? "arguments" = some value ∧
      Slot (fun last value => last.meaning located = .ok value) tree.given.getLast? value) (tree.meaning located) := by
  have keeps : Yields (Slot (fun last value => last.meaning located = .ok value) tree.given.getLast?)
      (Part.meaningOf ((tree.seen located).first? .expressionList)) := by
    rw [Phrase.first?,show (tree.seen located).allOf .expressionList = _ from all_understood located .expressionList tree]
    rcases proper.given_cases (by decide) with absent | ⟨list,only⟩
    · rw [absent,given_none absent]
      exact .ok rfl
    · rw [only,given_only only]
      exact (proper.inner (only ▸ mem_singleton_self list)).expressionList_last
  rw [meaning_seen proper.rule_eq,Phrase.meaning,Phrase.inheritanceSpecifier]
  refine Yields.any.bind fun base _ => keeps.bind fun value kept => ?_
  exact Phrase.yields_node fun place placed _ => ⟨_,rfl,rfl,value,Fields.get?_made placed (by decide) (by decide),kept⟩

-- The statements that consist of a call, by the types of their nodes and the fields that have the call.
def callStatements : List (Rule × String × String) :=
  [(.emitStatement,"EmitStatement","eventCall"),(.revertStatement,"RevertStatement","functionCall")]

theorem Proper.statement_calls {row : Rule × String × String} (listed : row ∈ callStatements) (proper : tree.Proper row.1) :
    ∃ call, tree.inner .functionCall = [call] ∧ Yields (Value.IsNode fun node => Value.isOf [row.2.1] node = true ∧
      ∃ value, call.meaning located = .ok value ∧ node.get? row.2.2 = some value) (tree.meaning located) := by
  obtain ⟨level,derives⟩ := proper.derives
  simp only [callStatements,mem_cons,not_mem_nil,or_false] at listed
  rcases listed with rfl | rfl
  · have parts := derives.mem_rows (show Rule.rows .emitStatement = some
      [[.token .kwEmit,.phrase .functionCall,.token .semicolon]] by decide)
    simp only [mem_singleton,map_eq_cons_iff,map_eq_nil_iff] at parts
    obtain ⟨word,_,split,isWord,call,_,rfl,isCall,mark,_,rfl,isMark,rfl⟩ := parts
    refine ⟨call,by simp [inner_eq,split,isWord,isCall,isMark],?_⟩
    rw [meaning_seen proper.rule_eq]
    change Yields _ (Phrase.emitStatement _)
    rw [Phrase.emitStatement,seen_meaningAt (show tree.children[1]? = some call by rw [split]; rfl)]
    refine Yields.chain fun value means => Phrase.yields_node fun place placed _ => ⟨_,rfl,rfl,value,means,?_⟩
    exact Fields.get?_made placed (by decide) (by decide)
  · obtain ⟨call,only,_⟩ := proper.only_child (show 0 < Rule.least .revertStatement (Member.isPhrase .functionCall) by decide)
      (by decide) located
    refine ⟨call,only,?_⟩
    rw [meaning_seen proper.rule_eq]
    change Yields _ (Phrase.revertStatement _)
    rw [Phrase.revertStatement,proper.first_eq (only ▸ mem_singleton_self call) (by decide)]
    refine Yields.chain fun value means => Phrase.yields_node fun place placed _ => ⟨_,rfl,rfl,value,means,?_⟩
    exact Fields.get?_made placed (by decide) (by decide)

end Constructs

end Tree

-- In a text read without complaint, a call and the invocation of a modifier have what all the expressions between their
-- parentheses mean, in order, and a statement that emits or reverts has its call.  A base of a contract has what the last
-- expression means, or nothing if there is none; that is never the list of what all of them mean.
theorem parse_arguments {text start : String} {located : Bool} {rule : Rule} (known : Rule.ofName? start = some rule)
    (clean : (parse text start located).2 = []) {phrase : Tree}
    (inside : phrase ∈ (Reading.ofText rule text).tree.phrases) :
    (∀ arguments ∈ phrase.inner .functionCallArguments, arguments.inner .nameValueList = [] →
      phrase.Takes located "FunctionCall" arguments.given) ∧
    (∀ row ∈ Tree.callStatements, phrase.rule? = some row.1 → ∃ (node : Fields) (call : Tree) (value : Value),
      phrase.meaning located = .ok (.node node) ∧ Value.isOf [row.2.1] node = true ∧
      phrase.inner .functionCall = [call] ∧ call.meaning located = .ok value ∧ node.get? row.2.2 = some value) ∧
    (phrase.rule? = some .modifierInvocation → phrase.Takes located "ModifierInvocation" phrase.given) ∧
    (phrase.rule? = some .inheritanceSpecifier → phrase.TakesLast located "InheritanceSpecifier" phrase.given ∧
      ∃ (node : Fields) (values : List Value), phrase.meaning located = .ok (.node node) ∧
        Tree.Mean located phrase.given values ∧ node.get? "arguments" ≠ some (.list values)) := by
  rw [parse_known known] at clean
  obtain ⟨own,proper⟩ := (Reading.ofText_proper clean).phrases inside
  have means (named : own ≠ .eventParameter) (inner : own ≠ .sourceUnit) (quiet : own.assembles = false) :
      ∃ value, phrase.meaning located = .ok value :=
    Reading.phrase_means clean inside proper.rule_eq named inner (proper.clear quiet) located
  refine ⟨fun arguments held unnamed => ?_,fun row listed found => ?_,fun found => ?_,fun found => ?_⟩
  · obtain ⟨value,meant⟩ : ∃ value, phrase.meaning located = .ok value := by
      rcases proper.call_holder held with rfl | rfl
      · exact means (by decide) (by decide) rfl
      · exact means (by decide) (by decide) rfl
    obtain ⟨node,rfl,sort,values,has,mean⟩ := proper.call_takes held unnamed value meant
    exact ⟨node,values,meant,sort,has,mean⟩
  · cases proper.same found
    obtain ⟨value,meant⟩ : ∃ value, phrase.meaning located = .ok value := by
      simp only [Tree.callStatements,mem_cons,not_mem_nil,or_false] at listed
      rcases listed with rfl | rfl
      · exact means (by decide) (by decide) rfl
      · exact means (by decide) (by decide) rfl
    obtain ⟨call,only,yields⟩ := proper.statement_calls listed
    obtain ⟨node,rfl,sort,call_value,called,has⟩ := yields value meant
    exact ⟨node,call,call_value,meant,sort,only,called,has⟩
  · cases proper.same found
    obtain ⟨value,meant⟩ := means (by decide) (by decide) rfl
    obtain ⟨node,rfl,sort,values,has,mean⟩ := proper.modifier_takes value meant
    exact ⟨node,values,meant,sort,has,mean⟩
  · cases proper.same found
    obtain ⟨value,meant⟩ := means (by decide) (by decide) rfl
    obtain ⟨node,rfl,sort,kept,has,last⟩ := proper.base_takes value meant
    have takes : phrase.TakesLast located "InheritanceSpecifier" phrase.given := ⟨node,kept,meant,sort,has,last⟩
    obtain ⟨values,mean⟩ : ∃ values, Tree.Mean located phrase.given values := by
      refine exists_values fun argument given => ?_
      obtain ⟨list,isList,isArgument⟩ := mem_flatMap.mp given
      have isExpression := (Tree.mem_inner.mp isArgument).2
      have deep : argument ∈ phrase.phrases := Tree.phrases_child (Tree.mem_inner.mp isList).1
        (Tree.phrases_child (Tree.mem_inner.mp isArgument).1 (Tree.self_mem isExpression))
      exact Reading.phrase_means clean (Tree.phrases_trans inside deep) isExpression (by decide) (by decide)
        (((proper.inner isList).inner isArgument).clear rfl) located
    obtain ⟨other,again,differs⟩ := takes.differs mean
    exact ⟨takes,other,values,again,mean,differs⟩

-- A base with two arguments.
def pairBase : String := "B(true,false)"

set_option maxRecDepth 100000 in
theorem pairBase_read : ((Reading.ofText .inheritanceSpecifier pairBase).diagnostics.isEmpty &&
    (Reading.ofText .inheritanceSpecifier pairBase).tree.given.length == 2) = true := by
  decide +kernel

-- Of the two arguments the node has the last, and not the list of both.
theorem pairBase_last : (parse pairBase "inheritanceSpecifier" false).2 = [] ∧
    ∃ (node : Fields) (first last : Tree) (value : Value) (values : List Value),
      (parse pairBase "inheritanceSpecifier" false).1 = .ok (.node node) ∧
      (Reading.ofText .inheritanceSpecifier pairBase).tree.given = [first,last] ∧ last.meaning false = .ok value ∧
      Tree.Mean false [first,last] values ∧ node.get? "arguments" = some value ∧
      node.get? "arguments" ≠ some (.list values) := by
  have known : Rule.ofName? "inheritanceSpecifier" = some .inheritanceSpecifier := by decide
  have read := pairBase_read
  rw [Bool.and_eq_true,List.isEmpty_iff,beq_iff_eq] at read
  obtain ⟨whole,two⟩ := read
  have clean : (parse pairBase "inheritanceSpecifier" false).2 = [] := by rw [parse_known known,whole]
  have found := (Reading.ofText_proper whole).rule_eq
  obtain ⟨⟨node,value,means,_,has,kept⟩,other,values,again,mean,differs⟩ :=
    (parse_arguments known clean (Tree.self_mem found)).2.2.2 found
  cases Except.ok.inj (means.symm.trans again)
  obtain ⟨first,last,pair⟩ := List.length_eq_two.mp two
  rw [pair] at kept mean
  refine ⟨clean,node,first,last,value,values,?_,pair,kept,mean,has,differs⟩
  rw [parse_known known]
  exact means

end SolReader
