import SolReader.Proofs.Ast.Commas

namespace SolReader.Tree.Known

variable {rule : Rule} {tree : Tree}

theorem block_hinges (known : tree.Known .block) : Hinges tree.clearInside tree.phrase.block := by
  have statements : Hinges tree.clearInside (Part.listOf (tree.phrase.allOf .statement)) := by
    apply (known.listed (by decide)).congr
    simpa using known.covers [.statement] (by decide)
  unfold Phrase.block
  refine statements.before fun statements _ => ?_
  exact tree.node_hinges _ _

theorem uncheckedStatement_hinges (known : tree.Known .uncheckedStatement) :
    Hinges tree.clearInside tree.phrase.uncheckedStatement := by
  have body : Hinges tree.clearInside (Part.meaningOf (tree.phrase.first? .block)) := by
    apply (known.single (by decide) (by decide)).congr
    simpa using known.covers [.block] (by decide)
  unfold Phrase.uncheckedStatement
  refine body.before fun body _ => ?_
  exact tree.node_hinges _ _

theorem expressionStatement_hinges (known : tree.Known .expressionStatement) :
    Hinges True tree.phrase.expressionStatement := by
  unfold Phrase.expressionStatement
  refine (known.optional_quiet rfl).after fun value _ => ?_
  exact tree.node_hinges _ _

theorem emitStatement_hinges (known : tree.Known .emitStatement) : Hinges True tree.phrase.emitStatement := by
  unfold Phrase.emitStatement
  refine (known.meaningAt_hinges (by decide) (by decide) 1).after fun call _ => ?_
  exact tree.node_hinges _ _

theorem revertStatement_hinges (known : tree.Known .revertStatement) : Hinges True tree.phrase.revertStatement := by
  unfold Phrase.revertStatement
  refine (known.optional_quiet rfl).after fun call _ => ?_
  exact tree.node_hinges _ _

theorem whileLoop_hinges (known : tree.Known rule) (once : rule.most (Member.isPhrase .statement) = some 1)
    (others : rule.most (Member.assembles [.statement]) = some 0) (type : String) :
    Hinges tree.clearInside (tree.phrase.whileLoop type) := by
  have body : Hinges tree.clearInside (Part.meaningOf (tree.phrase.first? .statement)) := by
    apply (known.single (by decide) once).congr
    simpa using known.covers [.statement] others
  unfold Phrase.whileLoop
  refine (known.optional_quiet rfl).after fun condition _ => ?_
  refine body.before fun body _ => ?_
  exact tree.node_hinges _ _

theorem ifStatement_hinges (known : tree.Known .ifStatement) : Hinges tree.clearInside tree.phrase.ifStatement := by
  obtain ⟨level,derives⟩ := known.proper.derives
  have few : (tree.inner .statement).length ≤ 2 := derives.inner_le (by decide)
  have each : ∀ index : Nat, Hinges (∀ child ∈ (tree.inner .statement)[index]?, child.clear = true)
      (Part.meaningOf (tree.phrase.allOf .statement)[index]?) := by
    intro index
    rw [allOf_eq,List.getElem?_map]
    cases found : (tree.inner .statement)[index]? with
    | none => simp [Part.meaningOf,Hinges]
    | some child => simpa [Part.meaningOf] using known.inner_hinges (by decide) (List.mem_of_getElem? found)
  have both := (each 0).bind fun yes _ => (each 1).before fun no _ =>
    (known.optional_quiet (show Rule.expression.quiet = true from rfl)).after fun condition _ =>
      tree.node_hinges "IfStatement" [("condition",condition),("TrueBody",yes),("FalseBody",no)]
  apply both.congr
  have covered := known.covers [.statement] (by decide)
  rw [← covered]
  simp only [List.mem_singleton,forall_eq,clearIn]
  -- There is nothing beyond the second branch.
  rcases branches : tree.inner .statement with _ | ⟨first,_ | ⟨second,_ | ⟨third,rest⟩⟩⟩
  · simp
  · simp
  · simp
  · simp [branches] at few

theorem forStatement_hinges (known : tree.Known .forStatement) : Hinges tree.clearInside tree.phrase.forStatement := by
  have body : Hinges tree.clearInside (Part.meaningOf (tree.phrase.first? .statement)) := by
    apply (known.single (by decide) (by decide)).congr
    simpa using known.covers [.statement] (by decide)
  unfold Phrase.forStatement
  refine (known.optional_quiet rfl).after fun condition _ => ?_
  refine (known.optional_quiet rfl).after fun start _ => ?_
  refine (known.optional_quiet rfl).after fun value _ => ?_
  refine (tree.node_hinges _ _).after fun step _ => ?_
  refine body.before fun body _ => ?_
  exact tree.node_hinges _ _

theorem tryStatement_hinges (known : tree.Known .tryStatement) : Hinges tree.clearInside tree.phrase.tryStatement := by
  have block : Hinges _ (Part.meaningOf (tree.phrase.first? .block)) := known.single (by decide) (by decide)
  have clauses : Hinges _ (Part.listOf (tree.phrase.allOf .catchClause)) := known.listed (by decide)
  have both := (known.optional_quiet (show Rule.expression.quiet = true from rfl)).after fun value _ =>
    block.bind fun block _ => (known.optional_quiet (show Rule.returnParameters.quiet = true from rfl)).after
      fun returns _ => clauses.before fun clauses _ => tree.node_hinges "TryStatement" [("expression",value),
        ("block",block),("returnParameters",returns),("catchClause",clauses)]
  apply both.congr
  simpa using known.covers [.block,.catchClause] (by decide)

theorem catchClause_hinges (known : tree.Known .catchClause) : Hinges tree.clearInside tree.phrase.catchClause := by
  have body : Hinges tree.clearInside (Part.meaningOf (tree.phrase.first? .block)) := by
    apply (known.single (by decide) (by decide)).congr
    simpa using known.covers [.block] (by decide)
  unfold Phrase.catchClause
  refine (known.optional_quiet rfl).after fun name _ => ?_
  refine (known.optional_quiet rfl).after fun parameters _ => ?_
  refine body.before fun body _ => ?_
  exact tree.node_hinges _ _

theorem inlineAssemblyStatement_hinges (known : tree.Known .inlineAssemblyStatement) :
    Hinges tree.clearInside tree.phrase.inlineAssemblyStatement := by
  have body : Hinges tree.clearInside (Part.meaningOf (tree.phrase.first? .assemblyBlock)) := by
    apply (known.single (by decide) (by decide)).congr
    simpa using known.covers [.assemblyBlock] (by decide)
  unfold Phrase.inlineAssemblyStatement
  refine body.before fun body _ => ?_
  exact tree.node_hinges _ _

theorem innerParts_eq (filled : tree.phrase.parts ≠ []) :
    tree.phrase.innerParts = .ok (((tree.children.drop 1).dropLast).map (understood false)) := by
  rw [Phrase.innerParts,if_neg (by simpa using filled)]
  simp [phrase,List.map_dropLast]

theorem identifierList_row (proper : tree.Proper .identifierList) :
    ∃ opening items closing, tree.children = .leaf opening :: (items ++ [.leaf closing]) ∧
      Commas.Slotted isSeparator true items := by
  obtain ⟨level,derives⟩ := proper.derives
  have spells := derives.spelled_alone rfl
  simp only [Form.row,Form.tok,Form.opt,Form.many,Form.sub,Form.spells_seq,Form.spells_token] at spells
  obtain ⟨_,_,⟨opening,_,rfl⟩,⟨names,_,many,⟨last,_,one,⟨closing,_,rfl⟩,rfl⟩,rfl⟩,split⟩ := spells
  have few : ∀ trees, (Form.optional () (Form.call () Rule.identifier 0)).Spells Derives .identifierList level trees →
      trees.length ≤ 1 := by
    intro trees inside
    rcases Form.spells_optional.mp inside with rfl | present
    · simp
    · obtain ⟨name,_,rfl⟩ := Form.spells_call.mp present
      simp
  have ending : Commas.Slotted isSeparator true last := by
    have short := few last one
    rcases last with _ | ⟨name,_ | ⟨second,rest⟩⟩
    · exact .done
    · exact .element .done
    · simp at short
  refine ⟨opening,names ++ last,closing,?_,Form.slotted_before_comma few many ending⟩
  rw [split]
  simp

theorem identifierList_slotted (proper : tree.Proper .identifierList) :
    Commas.Slotted isSeparator true ((tree.children.drop 1).dropLast) := by
  obtain ⟨opening,items,closing,split,slotted⟩ := identifierList_row proper
  rw [split]
  simpa using slotted

theorem identifierList_hinges (known : tree.Known .identifierList) : Hinges True tree.phrase.identifierList := by
  have filled : tree.phrase.parts ≠ [] := known.parts_ne_nil (by decide)
  have within : ∀ item ∈ (tree.children.drop 1).dropLast, item ∈ tree.children := by
    intro item member
    exact List.mem_of_mem_drop ((List.dropLast_sublist _).subset member)
  obtain ⟨slots,sliced⟩ := (known.slotted within (identifierList_slotted known.proper)).slots_ok
  unfold Phrase.identifierList
  rw [innerParts_eq filled]
  refine (Hinges.sure trivial _).after fun inner same => ?_
  cases same
  rw [sliced]
  refine (Hinges.mapM_sure fun slot _ => ?_).before fun values _ => .sure trivial _
  cases slot with
  | none => exact .sure trivial _
  | some name => exact tree.node_hinges _ _

theorem listedDeclaration_hinges (known : tree.Known .variableDeclaration) (list : Tree) :
    Hinges True (list.phrase.listedDeclaration (tree.understood false)) := by
  have phrase : (tree.understood false).rule?.isNone = false := by
    simp [Part.rule?,known.proper.rule_eq]
  unfold Phrase.listedDeclaration
  simp only [phrase,Bool.false_eq_true,if_false,parts_understood]
  refine (known.text_hinges (by decide)).after fun name _ => ?_
  refine (known.optional_quiet rfl).after fun type _ => ?_
  exact list.node_hinges _ _

theorem listedDeclarations_hinges {slots : List (Option Part)}
    (each : ∀ part, some part ∈ slots → Hinges True (tree.phrase.listedDeclaration part)) :
    Hinges True (tree.phrase.listedDeclarations slots) := by
  induction slots with
  | nil => exact .sure trivial _
  | cons slot rest ih =>
    cases slot with
    | none => exact .sure trivial _
    | some part =>
      rw [Phrase.listedDeclarations]
      refine (each part List.mem_cons_self).after fun first _ => ?_
      refine (ih fun part member => each part (List.mem_cons_of_mem _ member)).after fun others _ => ?_
      exact .sure trivial _

theorem variableDeclarationList_slotted (proper : tree.Proper .variableDeclarationList) :
    Commas.Slotted isSeparator true tree.children := by
  obtain ⟨level,derives⟩ := proper.derives
  have spells := derives.spelled_alone rfl
  simp only [Form.row,Form.tok,Form.opt,Form.sub,Form.spells_seq] at spells
  obtain ⟨first,others,one,many,split⟩ := spells
  have few : ∀ trees, (Form.optional () (Form.call () Rule.variableDeclaration 0)).Spells Derives
      .variableDeclarationList level trees → trees.length ≤ 1 := by
    intro trees inside
    rcases Form.spells_optional.mp inside with rfl | present
    · simp
    · obtain ⟨declaration,_,rfl⟩ := Form.spells_call.mp present
      simp
  have rest := Form.slotted_after_comma few many
  have short := few first one
  rw [split]
  rcases first with _ | ⟨declaration,_ | ⟨second,more⟩⟩
  · exact rest true
  · exact .element (rest false)
  · simp at short

theorem variableDeclarationList_hinges (known : tree.Known .variableDeclarationList) :
    Hinges True tree.phrase.variableDeclarationList := by
  obtain ⟨level,derives⟩ := known.proper.derives
  obtain ⟨slots,sliced⟩ : ∃ slots, Commas.slots Phrase.isComma tree.phrase.parts = .ok slots :=
    (known.slotted (fun _ member => member) (variableDeclarationList_slotted known.proper)).slots_ok
  have each : ∀ part, some part ∈ slots → Hinges True (tree.phrase.listedDeclaration part) := by
    intro part member
    obtain ⟨listed,plain⟩ := Commas.mem_slots sliced member
    obtain ⟨child,inside,rfl⟩ := List.mem_map.mp listed
    -- Whatever is no comma is a declaration.
    have other := derives.not_counted (show Rule.variableDeclarationList.most (fun member =>
      member != .token .comma && member != .phrase .variableDeclaration) = some 0 by decide) inside
    rcases known.proper.child inside with ⟨token,rfl,_⟩ | ⟨own,proper⟩
    · have kind : token.kind = .comma := by simpa [Tree.member] using other
      have text : token.text = "," := known.proper.leaf_text inside (by rw [kind]; rfl)
      simp [Phrase.isComma,Part.text,text] at plain
    · have same : own = .variableDeclaration := by simpa [rule?_eq.mp proper.rule_eq] using other
      subst same
      exact (known.inner (mem_inner.mpr ⟨inside,proper.rule_eq⟩)).listedDeclaration_hinges tree
  unfold Phrase.variableDeclarationList
  rw [sliced]
  refine (listedDeclarations_hinges each).after fun declared _ => ?_
  cases declared <;> exact .sure trivial _

theorem variableDeclarationStatement_hinges (known : tree.Known .variableDeclarationStatement) :
    Hinges True tree.phrase.variableDeclarationStatement := by
  obtain ⟨level,derives⟩ := known.proper.derives
  obtain ⟨child,inside,found⟩ := derives.child_of_least (show 0 < Rule.variableDeclarationStatement.least (fun member =>
    member == .phrase .variableDeclaration || member == .phrase .identifierList ||
      member == .phrase .variableDeclarationList) by decide)
  have read : ∀ other part, other.quiet = true → tree.phrase.first? other = some part →
      ∃ value, part.meaning = .ok value := by
    intro other part quiet first
    have whole := known.optional_quiet quiet
    rw [first] at whole
    exact whole.result trivial
  have rest : ∀ declared, Hinges True (do
      let value ← Part.meaningOf (tree.phrase.first? .expression)
      tree.phrase.node "VariableDeclarationStatement" [("variables",declared),("initialValue",value)]) := by
    intro declared
    refine (known.optional_quiet rfl).after fun value _ => ?_
    exact tree.node_hinges _ _
  unfold Phrase.variableDeclarationStatement
  split
  · rename_i first
    obtain ⟨declared,meant⟩ := read _ _ rfl first
    rw [meant]
    exact rest (.list [declared])
  · rename_i first
    obtain ⟨declared,meant⟩ := read _ _ rfl first
    rw [meant]
    exact rest declared
  · rename_i first
    obtain ⟨declared,meant⟩ := read _ _ rfl first
    rw [meant]
    exact rest declared
  · rename_i one two three
    have absent : ∀ other, tree.phrase.first? other = none → child.member ≠ .phrase other := by
      intro other missing same
      rw [first?_eq,Option.map_eq_none_iff,List.head?_eq_none_iff] at missing
      exact List.ne_nil_of_mem (mem_inner.mpr ⟨inside,rule?_eq.mpr same⟩) missing
    simp [absent _ one,absent _ two,absent _ three] at found

end SolReader.Tree.Known
