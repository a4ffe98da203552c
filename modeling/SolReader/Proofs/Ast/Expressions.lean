import SolReader.Proofs.Grammar.Expression
import SolReader.Proofs.Ast.Statements

namespace SolReader.Tree

variable {tree : Tree}

theorem meaning_identifier (proper : tree.Proper .identifier) :
    tree.meaning false = .ok (.node [("type",.text "Identifier"),("name",.text tree.text)]) := by
  obtain ⟨level,derives⟩ := proper.derives
  cases derives
  rw [understood_node]
  rfl

theorem typeNameExpression_shape (proper : tree.Proper .typeNameExpression) :
    ∃ inner, tree.children = [inner] ∧ (inner.Proper .elementaryTypeName ∨ inner.Proper .userDefinedTypeName) := by
  obtain ⟨level,derives⟩ := proper.derives
  have spells := derives.spelled_alone rfl
  simp only [Rule.body,Form.pick,Form.sub,Form.spells_choice,List.mem_cons,List.not_mem_nil,or_false,
    exists_eq_or_imp,exists_eq_left,Form.spells_call] at spells
  rcases spells with ⟨inner,derived,only⟩ | ⟨inner,derived,only⟩
  · refine ⟨inner,only,.inl ?_⟩
    exact proper.inner (mem_inner.mpr ⟨by simp [only],rule?_eq.mpr (Form.Derives.member_eq derived)⟩)
  · refine ⟨inner,only,.inr ?_⟩
    exact proper.inner (mem_inner.mpr ⟨by simp [only],rule?_eq.mpr (Form.Derives.member_eq derived)⟩)

theorem lastMeaning_alone (only : tree.children = [child]) : tree.phrase.lastMeaning = child.meaning false := by
  have parts : tree.phrase.parts = [child.understood false] := by simp [phrase,only]
  rw [Phrase.lastMeaning,parts,Part.meanings,List.mapM_cons,List.mapM_nil]
  cases meant : child.meaning false with
  | ok value => simp [meant,bind,Except.bind,pure,Except.pure]
  | error fault => simp [meant,bind,Except.bind]

theorem meaning_typeNameExpression {inner : Tree} (proper : tree.Proper .typeNameExpression)
    (only : tree.children = [inner]) : tree.meaning false = inner.meaning false := by
  obtain ⟨level,derives⟩ := proper.derives
  cases derives
  rw [understood_node]
  exact lastMeaning_alone only

theorem meaning_elementaryTypeName (proper : tree.Proper .elementaryTypeName) :
    tree.meaning false = .ok (.node [("type",.text "ElementaryTypeName"),("name",.text tree.text)]) := by
  obtain ⟨level,derives⟩ := proper.derives
  cases derives
  rw [understood_node]
  rfl

theorem meaning_userDefinedTypeName (proper : tree.Proper .userDefinedTypeName) :
    tree.meaning false = .ok (.node [("type",.text "UserDefinedTypeName"),("namePath",.text tree.text)]) := by
  obtain ⟨level,derives⟩ := proper.derives
  cases derives
  rw [understood_node]
  rfl

namespace Known

variable {rule : Rule} {tree : Tree}

theorem numberLiteral_hinges (known : tree.Known .numberLiteral) : Hinges True tree.phrase.numberLiteral := by
  have filled : tree.phrase.parts ≠ [] := known.parts_ne_nil (by decide)
  unfold Phrase.numberLiteral
  refine (Part.textAt_hinges (List.length_pos_iff.mpr filled)).after fun number _ => ?_
  rw [Phrase.count_eq filled]
  change Hinges True (if tree.phrase.parts.length = 2 then _ else _)
  split
  · rename_i two
    refine (Part.textAt_hinges (by omega)).after fun word _ => ?_
    exact tree.node_hinges _ _
  · exact tree.node_hinges _ _

-- The arguments of a call.

theorem nameValue_hinges (known : tree.Known .nameValue) : Hinges True (do
    let value ← Part.meaningOf (Phrase.all .expression (tree.understood false).parts).head?
    let name ← Part.textOf (Phrase.all .identifier (tree.understood false).parts).head?
    return (value,Value.text name)) := by
  rw [parts_understood]
  refine (known.optional_quiet rfl).after fun value _ => ?_
  refine (known.text_hinges (by decide)).after fun name _ => ?_
  exact .sure trivial _

theorem callArguments_hinges (known : tree.Known .functionCallArguments) :
    Hinges True (Phrase.callArguments (some (tree.understood false))) := by
  unfold Phrase.callArguments
  simp only [parts_understood,all_understood,List.head?_map]
  cases positional : (tree.inner .expressionList).head? with
  | some list =>
    have inside := known.inner (List.mem_of_mem_head? positional)
    have values : Hinges True (Part.meanings ((list.inner .expression).map (understood false))) := by
      have each : ∀ part ∈ (list.inner .expression).map (understood false), Hinges True part.meaning := by
        intro part member
        obtain ⟨value,within,rfl⟩ := List.mem_map.mp member
        apply (inside.inner_hinges (by decide) within).congr
        simpa using inside.clearIn_quiet (show Rule.expression.quiet = true from rfl) value within
      exact (Part.meanings_hinges each).congr (by simp)
    simp only [Option.map_some,parts_understood,all_understood]
    exact values.before fun values _ => .sure trivial _
  | none =>
    cases named : (tree.inner .nameValueList).head? with
    | none => exact .sure trivial _
    | some list =>
      have inside := known.inner (List.mem_of_mem_head? named)
      simp only [Option.map_none,Option.map_some,parts_understood,all_understood]
      refine (Hinges.mapM_sure ?_).before fun pairs _ => .sure trivial _
      intro part member
      obtain ⟨pair,within,rfl⟩ := List.mem_map.mp member
      exact (inside.inner within).nameValue_hinges

theorem functionCall_hinges (known : tree.Known .functionCall) : Hinges True tree.phrase.functionCall := by
  obtain ⟨arguments,member,found⟩ := known.first (show 0 < Rule.functionCall.least
    (Member.isPhrase .functionCallArguments) by decide)
  unfold Phrase.functionCall
  rw [found]
  refine (known.inner member).callArguments_hinges.after fun values _ => ?_
  refine (known.optional_quiet rfl).after fun callee _ => ?_
  exact tree.node_hinges _ _

-- The expressions by the number of their parts.

section Operations

variable (known : tree.Known .expression)

include known

theorem expression_part (index : Nat) : Hinges True (Part.meaningAt tree.phrase index) :=
  known.meaningAt_hinges (by decide) (by decide) index

theorem expression_parts : Hinges True (Part.listOf tree.phrase.parts) :=
  (Part.listOf_hinges (known.calm (by decide))).congr (by simp)

theorem ofTwo_hinges (two : tree.phrase.parts.length = 2) : Hinges True tree.phrase.ofTwo := by
  unfold Phrase.ofTwo
  refine (Part.textAt_hinges (by omega)).after fun first _ => ?_
  split
  · refine (known.optional_quiet rfl).after fun type _ => ?_
    exact tree.node_hinges _ _
  · split
    · refine (known.expression_part 1).after fun operand _ => ?_
      exact tree.node_hinges _ _
    · refine (Part.textAt_hinges (by omega)).after fun second _ => ?_
      split
      · refine (known.expression_part 0).after fun operand _ => ?_
        exact tree.node_hinges _ _
      · exact known.expression_parts

theorem ofThree_hinges (three : tree.phrase.parts.length = 3) : Hinges True tree.phrase.ofThree := by
  unfold Phrase.ofThree
  refine (Part.textAt_hinges (by omega)).after fun opening _ => ?_
  refine (Part.textAt_hinges (by omega)).after fun closing _ => ?_
  split
  · refine (known.expression_part 1).after fun inner _ => ?_
    exact tree.node_hinges _ _
  · refine (Part.textAt_hinges (by omega)).after fun operator _ => ?_
    split
    · refine (known.expression_part 0).after fun left _ => ?_
      refine (known.expression_part 2).after fun right _ => ?_
      exact tree.node_hinges _ _
    · split
      · refine (known.expression_part 0).after fun base _ => ?_
        refine (Part.textAt_hinges (by omega)).after fun member _ => ?_
        exact tree.node_hinges _ _
      · split
        · refine (known.expression_part 0).after fun left _ => ?_
          refine (known.expression_part 2).after fun right _ => ?_
          exact tree.node_hinges _ _
        · exact known.expression_parts

theorem ofFive_hinges (five : tree.phrase.parts.length = 5) : Hinges True tree.phrase.ofFive := by
  unfold Phrase.ofFive
  refine (Part.textAt_hinges (by omega)).after fun question _ => ?_
  refine (Part.textAt_hinges (by omega)).after fun colon _ => ?_
  split
  · refine (known.expression_part 0).after fun condition _ => ?_
    refine (known.expression_part 2).after fun yes _ => ?_
    refine (known.expression_part 4).after fun no _ => ?_
    exact tree.node_hinges _ _
  · exact known.expression_parts

theorem called (four : tree.phrase.parts.length = 4) (opens : Part.textAt tree.phrase 1 = .ok "(") :
    tree.inner .functionCallArguments ≠ [] := by
  obtain ⟨level,derives⟩ := known.proper.derives
  have made := Expression.derives_made derives
  have long : tree.children.length = 4 := by simpa [phrase] using four
  -- Whatever else opens in second place is spelled otherwise.
  have other : ∀ (opening : Token) (text : String), tree.children[1]? = some (.leaf opening) →
      opening.kind.spelling? = some text → text = "(" := by
    intro opening text second only
    have spelled := known.proper.leaf_text (List.mem_of_getElem? second) only
    have found : tree.phrase.parts[1]? = some ((leaf opening).understood false) := by simp [phrase,second]
    rw [Part.textAt_eq found] at opens
    simpa [Part.text,spelled] using opens
  generalize shape : tree.children = children at made long other
  cases made with
  | primary | creation | parentheses | before | after | between | conditional | member => simp at long
  | index left => exact absurd (other _ "[" rfl (by rw [left]; rfl)) (by decide)
  | slice left => exact absurd (other _ "[" rfl (by rw [left]; rfl)) (by decide)
  | options left => exact absurd (other _ "\x7b" rfl (by rw [left]; rfl)) (by decide)
  | call _ _ _ second =>
    refine List.ne_nil_of_mem (mem_inner.mpr ⟨?_,rule?_eq.mpr (Form.Derives.member_eq second)⟩)
    simp [shape]

theorem ofFour_hinges (four : tree.phrase.parts.length = 4) : Hinges True tree.phrase.ofFour := by
  unfold Phrase.ofFour
  refine (Part.textAt_hinges (by omega)).after fun opening opens => ?_
  refine (Part.textAt_hinges (by omega)).after fun closing _ => ?_
  split
  · rename_i parentheses
    have same : opening = "(" := by
      simp only [Bool.and_eq_true,decide_eq_true_eq] at parentheses
      exact parentheses.1
    have present := known.called four (same ▸ opens)
    rw [first?_eq]
    cases found : tree.inner .functionCallArguments with
    | nil => exact absurd found present
    | cons arguments rest =>
      have inside := known.inner (show arguments ∈ tree.inner .functionCallArguments by simp [found])
      refine inside.callArguments_hinges.after fun values _ => ?_
      refine (known.expression_part 0).after fun callee _ => ?_
      exact tree.node_hinges _ _
  · split
    · refine (known.expression_part 0).after fun base _ => ?_
      refine (known.expression_part 2).after fun index _ => ?_
      exact tree.node_hinges _ _
    · exact known.expression_parts

theorem expression_hinges : Hinges True tree.phrase.expression := by
  rw [Phrase.expression_counted (Phrase.count_eq (known.parts_ne_nil (by decide)))]
  split
  · exact known.expression_part 0
  · rename_i two
    exact known.ofTwo_hinges two
  · rename_i three
    exact known.ofThree_hinges three
  · rename_i four
    exact known.ofFour_hinges four
  · rename_i five
    exact known.ofFive_hinges five
  · exact known.expression_parts

end Operations

theorem hasEmptyBrackets_hinges (filled : tree.phrase.parts ≠ []) : Hinges True tree.phrase.hasEmptyBrackets := by
  unfold Phrase.hasEmptyBrackets
  rw [Phrase.count_eq filled]
  change Hinges True (if tree.phrase.parts.length = 3 then _ else _)
  split
  · rename_i three
    refine (Part.textAt_hinges (by omega)).after fun opening _ => ?_
    refine (Part.textAt_hinges (by omega)).after fun closing _ => ?_
    exact .sure trivial _
  · exact .sure trivial _

theorem hasEmptyBrackets_three (filled : tree.phrase.parts ≠ []) (brackets : tree.phrase.hasEmptyBrackets = .ok true) :
    tree.phrase.parts.length = 3 := by
  unfold Phrase.hasEmptyBrackets at brackets
  rw [Phrase.count_eq filled] at brackets
  change (if tree.phrase.parts.length = 3 then _ else _) = Except.ok true at brackets
  split at brackets
  · assumption
  · cases brackets

theorem elementType_hinges (known : tree.Known .primaryExpression) (three : tree.phrase.parts.length = 3) {base : Value}
    (meant : Part.meaningAt tree.phrase 0 = .ok base) : Hinges True (tree.phrase.elementType base) := by
  obtain ⟨level,derives⟩ := known.proper.derives
  have filled : tree.phrase.parts ≠ [] := List.ne_nil_of_length_pos (by omega)
  have long : tree.children.length = 3 := by simpa [phrase] using three
  have word : Hinges True (Part.textAt tree.phrase 0) := Part.textAt_hinges (by omega)
  have made := Primary.derives_made derives
  generalize shape : tree.children = children at made long
  cases made with
  | boolean | keyword | single => simp at long
  | @array own inner _ _ listed derived =>
    have inside : inner.Proper own :=
      known.proper.inner (mem_inner.mpr ⟨by simp [shape],rule?_eq.mpr (Form.Derives.member_eq derived)⟩)
    have first : tree.phrase.parts[0]? = Option.some (inner.understood false) := by simp [phrase,shape]
    rw [Part.meaningAt_eq filled,first] at meant
    have meant : inner.meaning false = .ok base := meant
    simp only [List.mem_cons,List.not_mem_nil,or_false] at listed
    rcases listed with rfl | rfl
    · rw [meaning_identifier inside] at meant
      cases meant
      exact tree.node_hinges _ _
    · obtain ⟨type,only,proper | proper⟩ := typeNameExpression_shape inside
      · rw [meaning_typeNameExpression inside only,meaning_elementaryTypeName proper] at meant
        cases meant
        exact word.before fun name _ => tree.node_hinges _ _
      · rw [meaning_typeNameExpression inside only,meaning_userDefinedTypeName proper] at meant
        cases meant
        exact word.before fun name _ => tree.node_hinges _ _

theorem primaryExpression_hinges (known : tree.Known .primaryExpression) : Hinges True tree.phrase.primaryExpression := by
  have filled : tree.phrase.parts ≠ [] := known.parts_ne_nil (by decide)
  have part := known.meaningAt_hinges (by decide) (by decide) 0
  unfold Phrase.primaryExpression
  split
  · exact tree.node_hinges _ _
  · split
    · exact tree.node_hinges _ _
    · split
      · exact tree.node_hinges _ _
      · refine (hasEmptyBrackets_hinges filled).after fun brackets found => ?_
        split
        · rename_i present
          have three := hasEmptyBrackets_three filled (present ▸ found)
          refine part.after fun base meant => ?_
          refine (known.elementType_hinges three meant).after fun element _ => ?_
          exact tree.node_hinges _ _
        · exact part

theorem slotted_commaList
    (spells : (Form.commaList (Form.sub .expression)).Spells Derives .tupleExpression level trees) :
    Commas.Slotted isSeparator true trees := by
  simp only [Form.commaList,Form.row,Form.sub,Form.tok,Form.many,Form.spells_seq,Form.spells_call] at spells
  obtain ⟨_,rest,⟨first,_,rfl⟩,many,rfl⟩ := spells
  refine .element (Form.slotted_after_comma ?_ many false)
  intro trees inside
  obtain ⟨value,_,rfl⟩ := Form.spells_call.mp inside
  simp

theorem tupleExpression_slotted (proper : tree.Proper .tupleExpression) :
    Commas.Slotted isSeparator true ((tree.children.drop 1).dropLast) := by
  obtain ⟨level,derives⟩ := proper.derives
  have spells := derives.spelled_alone rfl
  obtain ⟨option,member,chosen⟩ := Form.spells_choice.mp spells
  simp only [List.mem_cons,List.not_mem_nil,or_false] at member
  rcases member with rfl | rfl
  · simp only [Form.row,Form.tok,Form.opt,Form.many,Form.sub,Form.spells_seq,Form.spells_token] at chosen
    obtain ⟨_,_,⟨opening,_,rfl⟩,⟨first,_,one,⟨others,_,many,⟨closing,_,rfl⟩,rfl⟩,rfl⟩,split⟩ := chosen
    have few : ∀ trees, (Form.optional () (Form.call () Rule.expression 0)).Spells Derives .tupleExpression level trees →
        trees.length ≤ 1 := by
      intro trees inside
      rcases Form.spells_optional.mp inside with rfl | present
      · simp
      · obtain ⟨value,_,rfl⟩ := Form.spells_call.mp present
        simp
    have rest := Form.slotted_after_comma few many
    have inside : (tree.children.drop 1).dropLast = first ++ others := by
      rw [split]
      simp [← List.append_assoc]
    have short := few first one
    rw [inside]
    rcases first with _ | ⟨value,_ | ⟨second,more⟩⟩
    · exact rest true
    · exact .element (rest false)
    · simp at short
  · simp only [Form.row,Form.tok,Form.opt,Form.spells_seq,Form.spells_token,Form.spells_optional] at chosen
    obtain ⟨_,_,⟨opening,_,rfl⟩,⟨values,_,list,⟨closing,_,rfl⟩,rfl⟩,split⟩ := chosen
    have inside : (tree.children.drop 1).dropLast = values := by
      rw [split]
      simp
    rw [inside]
    rcases list with rfl | present
    · exact .done
    · exact slotted_commaList present

theorem tupleExpression_hinges (known : tree.Known .tupleExpression) : Hinges True tree.phrase.tupleExpression := by
  have filled : tree.phrase.parts ≠ [] := known.parts_ne_nil (by decide)
  have within : ∀ item ∈ (tree.children.drop 1).dropLast, item ∈ tree.children := by
    intro item member
    exact List.mem_of_mem_drop ((List.dropLast_sublist _).subset member)
  obtain ⟨slots,sliced⟩ := (known.slotted within (tupleExpression_slotted known.proper)).slots_ok
  have components : Hinges True (slots.mapM Part.meaningOf) := by
    apply Hinges.mapM_sure
    intro slot member
    cases slot with
    | none => exact .sure trivial _
    | some part =>
      obtain ⟨child,inside,rfl⟩ := List.mem_map.mp (Commas.mem_slots sliced member).1
      exact known.calm (by decide) _ (List.mem_map_of_mem (within child inside))
  unfold Phrase.tupleExpression
  rw [innerParts_eq filled]
  refine (Hinges.sure trivial _).after fun inner same => ?_
  cases same
  rw [sliced]
  refine components.before fun components _ => ?_
  refine (Part.textAt_hinges (List.length_pos_iff.mpr filled)).after fun opening _ => ?_
  exact tree.node_hinges _ _

end Known

end SolReader.Tree
