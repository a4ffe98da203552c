import SolReader.Proofs.Ast.Known

namespace SolReader.Tree.Known

variable {rule : Rule} {tree : Tree}

theorem named_hinges (known : tree.Known rule) (named : 0 < rule.least (Member.isPhrase .identifier)) (type : String) :
    Hinges True (tree.phrase.named type) := by
  unfold Phrase.named
  refine (known.text_hinges named).after fun name _ => ?_
  exact tree.node_hinges _ _

theorem assemblyBlock_hinges (known : tree.Known .assemblyBlock) : Hinges tree.clearInside tree.phrase.assemblyBlock := by
  have items : Hinges tree.clearInside (Part.listOf (tree.phrase.allOf .assemblyItem)) := by
    apply (known.listed (by decide)).congr
    simpa using known.covers [.assemblyItem] (by decide)
  unfold Phrase.assemblyBlock
  refine items.before fun items _ => ?_
  exact tree.node_hinges _ _

theorem assemblyItem_hinges (known : tree.Known .assemblyItem) : Hinges tree.clearInside tree.phrase.assemblyItem := by
  have part := known.alone_hinges (by decide) (by decide) (by decide)
  obtain ⟨child,only,_⟩ := known.alone (by decide) (by decide) (by decide)
  have literal : ∀ other found, other.quiet = true → tree.phrase.first? other = some found → tree.clearInside := by
    intro other found quiet first
    rw [first?_eq] at first
    obtain ⟨item,head,_⟩ := Option.map_eq_some_iff.mp first
    have member := List.mem_of_mem_head? head
    have same : item = child := by simpa [only] using (mem_inner.mp member).1
    simpa [clearInside,only,← same] using known.clearIn_quiet quiet item member
  have keyword : ∀ kind, (tree.phrase.token? kind).isSome = true → tree.clearInside := by
    intro kind present
    obtain ⟨found,member,kept⟩ := List.find?_isSome.mp present
    obtain ⟨item,inside,rfl⟩ := List.mem_map.mp member
    have same : item = child := by simpa [only] using inside
    subst same
    rcases known.proper.child inside with ⟨token,rfl,_⟩ | ⟨other,proper⟩
    · simp [clearInside,only]
    · cases item with
      | leaf token => simp [clearInside,only]
      | error token => cases proper.rule_eq
      | node => cases kept
  unfold Phrase.assemblyItem
  split
  · rename_i first
    exact .sure (literal .hexLiteral _ rfl first) _
  · split
    · rename_i first
      exact .sure (literal .stringLiteral _ rfl first) _
    · split
      · rename_i present
        exact .sure (keyword _ present) _
      · split
        · rename_i present
          exact .sure (keyword _ present) _
        · exact part

theorem assemblyCall_hinges (known : tree.Known .assemblyCall) : Hinges tree.clearInside tree.phrase.assemblyCall := by
  have filled : tree.phrase.parts ≠ [] := known.parts_ne_nil (by decide)
  have values : Hinges tree.clearInside (Part.listOf (tree.phrase.allOf .assemblyExpression)) := by
    apply (known.listed (by decide)).congr
    simpa using known.covers [.assemblyExpression] (by decide)
  unfold Phrase.assemblyCall
  refine (Part.textAt_hinges (List.length_pos_iff.mpr filled)).after fun name _ => ?_
  refine values.before fun values _ => ?_
  exact tree.node_hinges _ _

theorem assemblyLiteral_hinges (tree : Tree) : Hinges True tree.phrase.assemblyLiteral := by
  unfold Phrase.assemblyLiteral
  repeat' split
  all_goals exact .sure trivial _

theorem assemblySwitch_hinges (known : tree.Known .assemblySwitch) :
    Hinges tree.clearInside tree.phrase.assemblySwitch := by
  have value : Hinges _ (Part.meaningOf (tree.phrase.first? .assemblyExpression)) :=
    known.single (by decide) (by decide)
  have cases : Hinges _ (Part.listOf (tree.phrase.allOf .assemblyCase)) := known.listed (by decide)
  have both := value.bind fun value _ => cases.before fun cases _ => tree.node_hinges "AssemblySwitch"
    [("expression",value),("cases",cases)]
  apply both.congr
  simpa using known.covers [.assemblyExpression,.assemblyCase] (by decide)

theorem assemblyIf_hinges (known : tree.Known .assemblyIf) : Hinges tree.clearInside tree.phrase.assemblyIf := by
  have condition : Hinges _ (Part.meaningOf (tree.phrase.first? .assemblyExpression)) :=
    known.single (by decide) (by decide)
  have body : Hinges _ (Part.meaningOf (tree.phrase.first? .assemblyBlock)) :=
    known.single (by decide) (by decide)
  have both := condition.bind fun condition _ => body.before fun body _ => tree.node_hinges "AssemblyIf"
    [("condition",condition),("body",body)]
  apply both.congr
  simpa using known.covers [.assemblyExpression,.assemblyBlock] (by decide)

theorem assemblyCase_hinges (known : tree.Known .assemblyCase) : Hinges tree.clearInside tree.phrase.assemblyCase := by
  have filled : tree.phrase.parts ≠ [] := known.parts_ne_nil (by decide)
  have body : Hinges tree.clearInside (Part.meaningOf (tree.phrase.first? .assemblyBlock)) := by
    apply (known.single (by decide) (by decide)).congr
    simpa using known.covers [.assemblyBlock] (by decide)
  have rest : ∀ value, Hinges tree.clearInside (tree.phrase.caseNode value) := by
    intro value
    refine body.before fun block _ => ?_
    split <;> exact tree.node_hinges _ _
  unfold Phrase.assemblyCase
  refine (Part.textAt_hinges (List.length_pos_iff.mpr filled)).after fun word _ => ?_
  split
  · refine (known.optional_quiet rfl).after fun value _ => ?_
    exact rest value
  · exact rest .null

-- The names on the left are one name, a dotted name or a list of names between parentheses.
theorem assignedNames_shape (known : tree.Known .assemblyIdentifierOrList) :
    (∃ name, tree.inner .identifier = [name]) ∧ tree.clear = true ∨
    (tree.inner .identifier = [] ∧ ∃ list, tree.inner .assemblyIdentifierList = [list]) ∧ tree.clear = true ∨
    (tree.inner .identifier = [] ∧ tree.inner .assemblyIdentifierList = []) ∧ tree.clear = false := by
  have whole := known.proper.clear_iff
  have readable : tree.unreadable = false := by
    obtain ⟨level,derives⟩ := known.proper.derives
    cases derives
    rfl
  obtain ⟨level,derives⟩ := known.proper.derives
  have spells := derives.spelled_alone rfl
  simp only [Rule.body,Form.pick,Form.row,Form.tok,Form.sub,Form.spells_choice,List.mem_cons,List.not_mem_nil,
    or_false,exists_eq_or_imp,exists_eq_left,Form.spells_call,Form.spells_seq,Form.spells_token] at spells
  rcases spells with ⟨name,derived,only⟩ | ⟨member,derived,only⟩ |
    ⟨_,_,⟨opening,_,rfl⟩,⟨_,_,⟨list,derived,rfl⟩,⟨closing,_,rfl⟩,rfl⟩,only⟩
  · have found := rule?_eq.mpr (Form.Derives.member_eq derived)
    have inside : name ∈ tree.inner .identifier := mem_inner.mpr ⟨by simp [only],found⟩
    refine .inl ⟨⟨name,by simp [Tree.inner,only,found]⟩,whole.mpr ⟨readable,?_⟩⟩
    intro child member
    rw [only,List.mem_singleton] at member
    exact member ▸ known.clearIn_quiet rfl name inside
  · have found := rule?_eq.mpr (Form.Derives.member_eq derived)
    refine .inr (.inr ⟨⟨by simp [Tree.inner,only,found],by simp [Tree.inner,only,found]⟩,?_⟩)
    refine Bool.eq_false_iff.mpr ?_
    intro clear
    have inside := (whole.mp clear).2 member (by simp [only])
    cases derived
    have unreadable := (clear_node.mp inside).1
    cases unreadable
  · have found := rule?_eq.mpr (Form.Derives.member_eq derived)
    have inside : list ∈ tree.inner .assemblyIdentifierList := mem_inner.mpr ⟨by simp [only],found⟩
    refine .inr (.inl ⟨⟨by simp [Tree.inner,only,found],list,by simp [Tree.inner,only,found]⟩,
      whole.mpr ⟨readable,?_⟩⟩)
    intro child member
    simp only [only,List.cons_append,List.nil_append,List.mem_cons,List.not_mem_nil,or_false] at member
    rcases member with rfl | rfl | rfl
    · rfl
    · exact known.clearIn_quiet rfl child inside
    · rfl

theorem assignedNames_hinges (known : tree.Known rule)
    (always : 0 < rule.least (Member.isPhrase .assemblyIdentifierOrList))
    (once : rule.most (Member.isPhrase .assemblyIdentifierOrList) = some 1) :
    Hinges (tree.clearIn .assemblyIdentifierOrList) tree.phrase.assignedNames := by
  obtain ⟨names,only⟩ := known.exactly always once
  have inside := known.inner (show names ∈ tree.inner .assemblyIdentifierOrList by simp [only])
  have same : tree.clearIn .assemblyIdentifierOrList ↔ names.clear = true := by simp [clearIn,only]
  unfold Phrase.assignedNames
  simp only [first?_eq,only,List.head?_cons,Option.map_some,parts_understood,all_understood,List.head?_map]
  apply Hinges.congr _ same.symm
  rcases inside.assignedNames_shape with ⟨⟨name,one⟩,clear⟩ | ⟨⟨absent,list,one⟩,clear⟩ | ⟨⟨absent,missing⟩,clear⟩
  · have read := inside.inner_hinges (by decide) (show name ∈ names.inner .identifier by simp [one])
    rw [one,clear]
    refine (read.congr ?_).before fun value _ => .sure trivial _
    simpa using inside.clearIn_quiet (show Rule.identifier.quiet = true from rfl) name (by simp [one])
  · have members := inside.inner (show list ∈ names.inner .assemblyIdentifierList by simp [one])
    have read : ∀ part ∈ (list.inner .identifier).map (understood false), Hinges True part.meaning := by
      intro part member
      obtain ⟨name,within,rfl⟩ := List.mem_map.mp member
      apply (members.inner_hinges (by decide) within).congr
      simpa using members.clearIn_quiet (show Rule.identifier.quiet = true from rfl) name within
    rw [absent,one,clear]
    simp only [List.head?_nil,Option.map_none,List.head?_cons,Option.map_some,Part.within,parts_understood,
      all_understood]
    exact (Part.meanings_hinges read).congr (by simp)
  · rw [absent,missing,clear]
    exact ⟨rfl,by simp⟩

theorem assignment_hinges (known : tree.Known rule)
    (always : 0 < rule.least (Member.isPhrase .assemblyIdentifierOrList))
    (once : rule.most (Member.isPhrase .assemblyIdentifierOrList) = some 1)
    (single : rule.most (Member.isPhrase .assemblyExpression) = some 1)
    (others : rule.most (Member.assembles [.assemblyIdentifierOrList,.assemblyExpression]) = some 0) (type : String) :
    Hinges tree.clearInside (tree.phrase.assignment type) := by
  have names := known.assignedNames_hinges always once
  have value : Hinges _ (Part.meaningOf (tree.phrase.first? .assemblyExpression)) := known.single (by decide) single
  have both := names.bind fun names _ => value.before fun value _ => tree.node_hinges type
    [("names",.list names),("expression",value)]
  apply both.congr
  simpa using known.covers [.assemblyIdentifierOrList,.assemblyExpression] others

theorem any_isMember (tree : Tree) (other : Rule) :
    tree.children.any (isMember (.phrase other)) = true ↔ tree.inner other ≠ [] := by
  rw [List.any_eq_true,← List.length_pos_iff,List.length_pos_iff_exists_mem]
  refine exists_congr ?_
  intro child
  rw [mem_inner]
  cases child <;> simp [isMember,rule?,eq_comm]

theorem assemblyFunctionDefinition_hinges (known : tree.Known .assemblyFunctionDefinition) :
    Hinges (tree.unreadable = false ∧ tree.clearInside) tree.phrase.assemblyFunctionDefinition := by
  have names : ∀ list : Tree, list.Known .assemblyIdentifierList →
      Hinges True (Part.listOf ((list.inner .identifier).map (understood false))) := by
    intro list inside
    rw [← allOf_eq]
    exact inside.listed_quiet rfl
  have body : Hinges tree.clearInside (Part.meaningOf (tree.phrase.first? .assemblyBlock)) := by
    apply (known.single (by decide) (by decide)).congr
    simpa using known.covers [.assemblyBlock] (by decide)
  have readable : tree.unreadable = false ↔
      tree.inner .assemblyIdentifierList ≠ [] ∧ tree.inner .assemblyFunctionReturns ≠ [] := by
    rw [← any_isMember,← any_isMember]
    obtain ⟨level,derives⟩ := known.proper.derives
    cases derives
    simp [unreadable,children]
  unfold Phrase.assemblyFunctionDefinition
  simp only [first?_eq tree .assemblyIdentifierList,first?_eq tree .assemblyFunctionReturns]
  cases parameters : tree.inner .assemblyIdentifierList with
  | nil =>
    refine ⟨rfl,?_⟩
    intro ⟨whole,_⟩
    exact (readable.mp whole).1 parameters
  | cons list rest =>
    have first := known.inner (show list ∈ tree.inner .assemblyIdentifierList by simp [parameters])
    cases results : tree.inner .assemblyFunctionReturns with
    | nil =>
      refine ⟨rfl,?_⟩
      intro ⟨whole,_⟩
      exact (readable.mp whole).2 results
    | cons arrow rest =>
      have second := known.inner (show arrow ∈ tree.inner .assemblyFunctionReturns by simp [results])
      obtain ⟨level,derives⟩ := second.proper.derives
      have whole : tree.unreadable = false := readable.mpr ⟨by simp [parameters],by simp [results]⟩
      simp only [List.head?_cons,Option.map_some,Part.within,parts_understood,all_understood]
      cases returned : arrow.inner .assemblyIdentifierList with
      | nil => exact absurd returned (derives.inner_ne_nil (by decide))
      | cons listed rest =>
        have third := second.inner (show listed ∈ arrow.inner .assemblyIdentifierList by simp [returned])
        apply Hinges.congr _ (and_iff_right whole).symm
        refine (known.text_hinges (by decide)).after fun name _ => ?_
        refine (names list first).after fun parameters _ => ?_
        rw [parts_understood,all_understood]
        refine (names listed third).after fun returns _ => ?_
        refine body.before fun body _ => ?_
        exact tree.node_hinges _ _

theorem assemblyFor_hinges (known : tree.Known .assemblyFor) : Hinges tree.clearInside tree.phrase.assemblyFor := by
  have each := known.each (by decide)
  -- After the keyword stand four parts.
  obtain ⟨word,start,condition,step,body,split⟩ :
      ∃ word start condition step body, tree.children = [.leaf word,start,condition,step,body] := by
    obtain ⟨level,derives⟩ := known.proper.derives
    have spells := derives.spelled_alone rfl
    simp only [Form.pick,Form.row,Form.tok,Form.sub,Form.spells_choice,List.mem_cons,List.not_mem_nil,or_false,
      exists_eq_or_imp,exists_eq_left,Form.spells_call,Form.spells_seq,Form.spells_token] at spells
    obtain ⟨_,_,⟨word,_,rfl⟩,⟨_,_,start,⟨_,_,⟨condition,_,rfl⟩,⟨_,_,step,⟨body,_,rfl⟩,rfl⟩,rfl⟩,rfl⟩,
      split⟩ := spells
    rcases start with ⟨start,_,rfl⟩ | ⟨start,_,rfl⟩ <;> rcases step with ⟨step,_,rfl⟩ | ⟨step,_,rfl⟩ <;>
      exact ⟨word,start,condition,step,body,split⟩
  have parts : tree.phrase.parts = [(leaf word).understood false,start.understood false,condition.understood false,
      step.understood false,body.understood false] := by simp [phrase,split]
  have filled : tree.phrase.parts ≠ [] := by simp [parts]
  unfold Phrase.assemblyFor
  simp only [Part.meaningAt_eq filled,parts]
  have read := (each start (by simp [split])).bind fun start _ => (each condition (by simp [split])).bind fun condition _ =>
    (each step (by simp [split])).bind fun step _ => (each body (by simp [split])).before fun body _ =>
      tree.node_hinges "AssemblyFor" [("pre",start),("condition",condition),("post",step),("body",body)]
  apply read.congr
  simp [clearInside,split]

end SolReader.Tree.Known
