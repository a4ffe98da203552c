import SolReader.Proofs.Parse.Outcome
import SolReader.Proofs.Ast.Known

namespace SolReader.Tree.Known

variable {rule : Rule} {tree : Tree}

theorem sourceUnit_hinges (known : tree.Known .sourceUnit) : Hinges tree.clearInside tree.phrase.sourceUnit := by
  obtain ⟨level,derives⟩ := known.proper.derives
  obtain ⟨before,last,split⟩ : ∃ before last, tree.children = before ++ [.leaf last] := by
    cases derives with
    | @node _ _ _ _ _ variant listed spells =>
      obtain ⟨before,last,split,_⟩ := Parse.spells_end variant (Parse.whole_ends variant listed) spells
      exact ⟨before,last,split⟩
  have parts : tree.phrase.parts = before.map (understood false) ++ [(leaf last).understood false] := by
    simp [phrase,split]
  have each : ∀ part ∈ before.map (understood false), Hinges (part.tree.clear = true) part.meaning := by
    intro part member
    obtain ⟨child,inside,rfl⟩ := List.mem_map.mp member
    have listed : child ∈ tree.children := by simp [split,inside]
    rw [tree_understood]
    exact known.each (by decide) child listed
  unfold Phrase.sourceUnit
  rw [parts,List.dropLast_concat]
  have filled : (before.map (understood false) ++ [(leaf last).understood false]).isEmpty = false := by simp
  rw [filled]
  apply ((Part.listOf_hinges each).before fun values _ => tree.node_hinges _ _).congr
  simp [clearInside,split,or_imp,forall_and]

theorem pragmaDirective_hinges (known : tree.Known .pragmaDirective) : Hinges True tree.phrase.pragmaDirective := by
  unfold Phrase.pragmaDirective
  refine (known.text_hinges (by decide)).after fun name _ => ?_
  refine (known.text_hinges (by decide)).after fun value _ => ?_
  exact tree.node_hinges _ _

theorem symbolAlias_hinges (known : tree.Known .importDeclaration) :
    Hinges True (Phrase.symbolAlias (tree.understood false)) := by
  obtain ⟨level,derives⟩ := known.proper.derives
  have named : tree.inner .identifier ≠ [] := derives.inner_ne_nil (by decide)
  have present : ((tree.inner .identifier).map (understood false))[0]?.isSome = true := by
    simp [List.length_pos_iff.mpr named]
  unfold Phrase.symbolAlias
  rw [parts_understood,all_understood]
  refine (Part.textOf_hinges present).after fun name _ => ?_
  exact .sure trivial _

theorem importDirective_hinges (known : tree.Known .importDirective) : Hinges True tree.phrase.importDirective := by
  have filled : tree.phrase.parts ≠ [] := known.parts_ne_nil (by decide)
  have aliases : Hinges True ((tree.phrase.allOf .importDeclaration).mapM Phrase.symbolAlias) := by
    have each : ∀ part ∈ tree.phrase.allOf .importDeclaration, Hinges True (Phrase.symbolAlias part) := by
      intro part member
      rw [allOf_eq] at member
      obtain ⟨child,inside,rfl⟩ := List.mem_map.mp member
      exact (known.inner inside).symbolAlias_hinges
    exact .mapM_sure each
  have rest : ∀ symbols unit, Hinges True (do
      let path ← Part.textOf (tree.phrase.first? .importPath)
      tree.phrase.node "ImportDirective" [("path",.text (Phrase.unquoted path)),
        ("symbolAliases",.record (Fields.ofList symbols)),("unitAlias",unit)]) := by
    intro symbols unit
    refine (known.text_hinges (by decide)).after fun path _ => ?_
    exact tree.node_hinges _ _
  unfold Phrase.importDirective
  refine aliases.after fun symbols _ => ?_
  rw [Phrase.count_eq filled]
  split
  · exact rest symbols .null
  · change Hinges True (if tree.phrase.parts.length = 7 || tree.phrase.parts.length = 5 then _ else _)
    split
    · rename_i long
      have within : 3 < tree.phrase.parts.length := by
        simp only [Bool.or_eq_true,decide_eq_true_eq] at long
        omega
      refine (Part.textAt_hinges within).after fun word _ => ?_
      exact rest symbols (.text word)
    · exact rest symbols .null

theorem contractDefinition_hinges (known : tree.Known .contractDefinition) :
    Hinges tree.clearInside tree.phrase.contractDefinition := by
  have filled : tree.phrase.parts ≠ [] := known.parts_ne_nil (by decide)
  unfold Phrase.contractDefinition
  refine (known.text_hinges (by decide)).after fun name _ => ?_
  refine (known.listed_quiet rfl).after fun bases _ => ?_
  have parts : Hinges tree.clearInside (Part.listOf (tree.phrase.allOf .contractPart)) := by
    apply (known.listed (by decide)).congr
    simpa using known.covers [.contractPart] (by decide)
  refine parts.before fun parts _ => ?_
  refine (Part.textAt_hinges (List.length_pos_iff.mpr filled)).after fun kind _ => ?_
  exact tree.node_hinges _ _

theorem inheritanceSpecifier_hinges (known : tree.Known .inheritanceSpecifier) :
    Hinges True tree.phrase.inheritanceSpecifier := by
  unfold Phrase.inheritanceSpecifier
  refine (known.optional_quiet rfl).after fun base _ => ?_
  refine (known.optional_quiet rfl).after fun values _ => ?_
  exact tree.node_hinges _ _

theorem contractPart_hinges (known : tree.Known .contractPart) : Hinges tree.clearInside tree.phrase.contractPart := by
  obtain ⟨child,only,own⟩ := known.alone (by decide) (by decide) (by decide)
  have parts : tree.phrase.parts = [child.understood false] := by simp [phrase,only]
  unfold Phrase.contractPart
  rw [parts]
  exact own

theorem enumDefinition_hinges (known : tree.Known .enumDefinition) : Hinges True tree.phrase.enumDefinition := by
  unfold Phrase.enumDefinition
  refine (known.text_hinges (by decide)).after fun name _ => ?_
  refine (known.listed_quiet rfl).after fun members _ => ?_
  exact tree.node_hinges _ _

theorem structDefinition_hinges (known : tree.Known .structDefinition) : Hinges True tree.phrase.structDefinition := by
  unfold Phrase.structDefinition
  refine (known.text_hinges (by decide)).after fun name _ => ?_
  refine (known.listed_quiet rfl).after fun members _ => ?_
  exact tree.node_hinges _ _

theorem typeDefinition_hinges (known : tree.Known .typeDefinition) : Hinges True tree.phrase.typeDefinition := by
  obtain ⟨level,derives⟩ := known.proper.derives
  -- The keyword is always there.
  obtain ⟨child,member,found⟩ := derives.child_of_least (show 0 < Rule.typeDefinition.least (· == .token .kwType) by
    decide)
  have keyword : (tree.phrase.token? .kwType).isSome = true := by
    refine List.find?_isSome.mpr ⟨child.understood false,List.mem_map_of_mem member,?_⟩
    cases child with
    | leaf token => simpa [Part.kind?,understood,Part.tree,Tree.member] using found
    | error token => simpa [Part.kind?,understood,Part.tree,Tree.member] using found
    | node => cases found
  unfold Phrase.typeDefinition
  refine (Part.textOf_hinges keyword).after fun keyword _ => ?_
  refine (known.optional_quiet rfl).after fun type _ => ?_
  exact tree.node_hinges _ _

theorem customErrorDefinition_hinges (known : tree.Known .customErrorDefinition) :
    Hinges True tree.phrase.customErrorDefinition := by
  unfold Phrase.customErrorDefinition
  refine (known.optional_quiet rfl).after fun name _ => ?_
  refine (known.optional_quiet rfl).after fun parameters _ => ?_
  exact tree.node_hinges _ _

theorem token_hinges (tree : Tree) (kind : Kind) : Hinges True (Part.meaningOf (tree.phrase.token? kind)) := by
  cases found : tree.phrase.token? kind with
  | none => exact .sure trivial _
  | some part =>
    obtain ⟨child,member,rfl⟩ := List.mem_map.mp (List.mem_of_find?_eq_some found)
    have kept := List.find?_some found
    cases child with
    | leaf token => exact .sure trivial _
    | error token => exact .sure trivial _
    | node => cases kept

theorem fileLevelConstant_hinges (known : tree.Known .fileLevelConstant) : Hinges True tree.phrase.fileLevelConstant := by
  unfold Phrase.fileLevelConstant
  refine (known.optional_quiet rfl).after fun name _ => ?_
  refine (known.optional_quiet rfl).after fun type _ => ?_
  refine (token_hinges tree .kwConstant).after fun keyword _ => ?_
  exact tree.node_hinges _ _

theorem usingForDeclaration_hinges (known : tree.Known .usingForDeclaration) :
    Hinges True tree.phrase.usingForDeclaration := by
  unfold Phrase.usingForDeclaration
  refine (known.meaningAt_hinges (by decide) (by decide) 3).after fun type _ => ?_
  refine (known.text_hinges (by decide)).after fun library _ => ?_
  exact tree.node_hinges _ _

theorem parameterList_hinges (known : tree.Known .parameterList) : Hinges True tree.phrase.parameterList := by
  unfold Phrase.parameterList
  refine (known.listed_quiet rfl).after fun parameters _ => ?_
  exact tree.node_hinges _ _

theorem parameter_hinges (known : tree.Known .parameter) : Hinges True tree.phrase.parameter := by
  unfold Phrase.parameter
  refine (known.optional_quiet rfl).after fun type _ => ?_
  exact tree.node_hinges _ _

theorem modifierInvocation_hinges (known : tree.Known .modifierInvocation) :
    Hinges True tree.phrase.modifierInvocation := by
  have rest : ∀ values, Hinges True (do
      let name ← Part.textOf (tree.phrase.first? .identifier)
      tree.phrase.node "ModifierInvocation" [("name",.text name),("arguments",values)]) := by
    intro values
    refine (known.text_hinges (by decide)).after fun name _ => ?_
    exact tree.node_hinges _ _
  unfold Phrase.modifierInvocation
  cases found : tree.phrase.first? .expressionList with
  | none => exact rest (.list [])
  | some part =>
    rw [first?_eq] at found
    obtain ⟨list,first,rfl⟩ := Option.map_eq_some_iff.mp found
    have inside := known.inner (List.mem_of_mem_head? first)
    simp only [parts_understood]
    refine (inside.listed_quiet rfl).after fun values _ => ?_
    exact rest values

theorem variableDeclaration_hinges (known : tree.Known .variableDeclaration) :
    Hinges True tree.phrase.variableDeclaration := by
  unfold Phrase.variableDeclaration
  refine (known.optional_quiet rfl).after fun type _ => ?_
  refine (known.text_hinges (by decide)).after fun name _ => ?_
  exact tree.node_hinges _ _

theorem stateVariableDeclaration_hinges (known : tree.Known .stateVariableDeclaration) :
    Hinges True tree.phrase.stateVariableDeclaration := by
  unfold Phrase.stateVariableDeclaration
  refine (known.optional_quiet rfl).after fun type _ => ?_
  refine (known.text_hinges (by decide)).after fun name _ => ?_
  refine (known.optional_quiet rfl).after fun value _ => ?_
  refine (tree.node_hinges _ _).after fun declared _ => ?_
  exact tree.node_hinges _ _

theorem eventDefinition_hinges (known : tree.Known .eventDefinition) : Hinges True tree.phrase.eventDefinition := by
  unfold Phrase.eventDefinition
  refine (known.text_hinges (by decide)).after fun name _ => ?_
  refine (known.optional_quiet rfl).after fun parameters _ => ?_
  exact tree.node_hinges _ _

theorem meaningOrEmpty_hinges {condition : Prop}
    (hinges : Hinges condition (Part.meaningOf part?)) : Hinges condition (Phrase.meaningOrEmpty part?) := by
  cases part? with
  | none => exact hinges
  | some part => exact hinges

theorem modifierDefinition_hinges (known : tree.Known .modifierDefinition) :
    Hinges tree.clearInside tree.phrase.modifierDefinition := by
  have body : Hinges tree.clearInside (Part.meaningOf (tree.phrase.first? .block)) := by
    apply (known.single (by decide) (by decide)).congr
    simpa using known.covers [.block] (by decide)
  unfold Phrase.modifierDefinition
  refine (meaningOrEmpty_hinges (known.optional_quiet rfl)).after fun parameters _ => ?_
  refine (known.text_hinges (by decide)).after fun name _ => ?_
  refine body.before fun body _ => ?_
  exact tree.node_hinges _ _

theorem functionName_hinges (known : tree.Known .functionDefinition) : Hinges True tree.phrase.functionName := by
  obtain ⟨descriptor,_,found⟩ := known.first (show 0 < Rule.functionDefinition.least
    (Member.isPhrase .functionDescriptor) by decide)
  unfold Phrase.functionName
  rw [found]
  dsimp only
  split <;> exact .sure trivial _

theorem functionDefinition_hinges (known : tree.Known .functionDefinition) :
    Hinges tree.clearInside tree.phrase.functionDefinition := by
  have body : Hinges tree.clearInside (Phrase.meaningOrEmpty (tree.phrase.first? .block)) := by
    apply (meaningOrEmpty_hinges (known.single (by decide) (by decide))).congr
    simpa using known.covers [.block] (by decide)
  obtain ⟨marks,member,found⟩ := known.first (show 0 < Rule.functionDefinition.least (Member.isPhrase .modifierList) by
    decide)
  unfold Phrase.functionDefinition
  refine known.functionName_hinges.after fun name _ => ?_
  refine (known.optional_quiet rfl).after fun parameters _ => ?_
  refine (meaningOrEmpty_hinges (known.optional_quiet rfl)).after fun returns _ => ?_
  refine body.before fun body _ => ?_
  rw [found]
  simp only [Part.within,parts_understood]
  refine ((known.inner member).listed_quiet rfl).after fun modifiers _ => ?_
  exact tree.node_hinges _ _

theorem listedEventParameter_hinges (known : tree.Known .eventParameter) (list : Tree) :
    Hinges True (list.phrase.listedEventParameter (tree.understood false)) := by
  unfold Phrase.listedEventParameter
  simp only [parts_understood]
  refine (known.optional_quiet rfl).after fun type _ => ?_
  exact list.node_hinges _ _

theorem eventParameterList_hinges (known : tree.Known .eventParameterList) :
    Hinges True tree.phrase.eventParameterList := by
  have each : ∀ part ∈ tree.phrase.allOf .eventParameter, Hinges True (tree.phrase.listedEventParameter part) := by
    intro part member
    rw [allOf_eq] at member
    obtain ⟨parameter,inside,rfl⟩ := List.mem_map.mp member
    exact (known.inner inside).listedEventParameter_hinges tree
  unfold Phrase.eventParameterList
  refine (Hinges.mapM_sure each).after fun parameters _ => ?_
  exact tree.node_hinges _ _

-- On its own, a parameter of an event is asked for the name that it need not have.
theorem eventParameter_hinges (known : tree.Known .eventParameter) :
    Hinges (tree.inner .identifier ≠ []) tree.phrase.eventParameter := by
  have name : Hinges (tree.inner .identifier ≠ []) (Part.textOf (tree.phrase.first? .identifier)) := by
    rw [first?_eq]
    cases tree.inner .identifier with
    | nil => exact ⟨rfl,fun filled => filled rfl⟩
    | cons first rest => exact .sure (by simp) _
  unfold Phrase.eventParameter
  refine (known.optional_quiet rfl).after fun type _ => ?_
  refine name.before fun name _ => ?_
  exact tree.node_hinges _ _

end SolReader.Tree.Known
