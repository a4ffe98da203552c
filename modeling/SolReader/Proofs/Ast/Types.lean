import SolReader.Proofs.Ast.Known

namespace SolReader.Tree.Known

variable {tree : Tree}

theorem elementaryTypeName_hinges (tree : Tree) : Hinges True tree.phrase.elementaryTypeName :=
  tree.node_hinges _ _

theorem userDefinedTypeName_hinges (tree : Tree) : Hinges True tree.phrase.userDefinedTypeName :=
  tree.node_hinges _ _

theorem typeName_hinges (known : tree.Known .typeName) : Hinges True tree.phrase.typeName := by
  have always : 0 < Rule.typeName.least fun _ => true := by decide
  have part := known.meaningAt_hinges always (by decide)
  unfold Phrase.typeName
  rw [Phrase.count_eq (known.parts_ne_nil always)]
  change Hinges True (if tree.phrase.parts.length > 2 then _ else _)
  split
  · have array : ∀ length, Hinges True (do
        let base ← Part.meaningAt tree.phrase 0
        tree.phrase.node "ArrayTypeName" [("baseTypeName",base),("length",length)]) := by
      intro length
      refine (part 0).after fun base _ => ?_
      exact tree.node_hinges _ _
    split
    · exact (part 2).after fun length _ => array length
    · exact array .null
  · split
    · rename_i two
      refine (Part.textAt_hinges (by omega)).after fun name _ => ?_
      refine (Part.textAt_hinges (by omega)).after fun mutability _ => ?_
      exact tree.node_hinges _ _
    · exact part 0

theorem mapping_hinges (known : tree.Known .mapping) : Hinges True tree.phrase.mapping := by
  unfold Phrase.mapping
  refine (known.optional_quiet rfl).after fun key _ => ?_
  refine (known.optional_quiet rfl).after fun value _ => ?_
  exact tree.node_hinges _ _

theorem functionTypeParameter_hinges (known : tree.Known .functionTypeParameter) :
    Hinges True tree.phrase.functionTypeParameter := by
  unfold Phrase.functionTypeParameter
  refine (known.optional_quiet rfl).after fun type _ => ?_
  exact tree.node_hinges _ _

theorem functionTypeName_hinges (known : tree.Known .functionTypeName) : Hinges True tree.phrase.functionTypeName := by
  obtain ⟨level,derives⟩ := known.proper.derives
  have present : tree.inner .functionTypeParameterList ≠ [] := derives.inner_ne_nil (by decide)
  -- Both lists hold nothing but parameters, which can be read.
  have parameters : ∀ list ∈ tree.inner .functionTypeParameterList,
      Hinges True (Part.listOf (Phrase.all .functionTypeParameter (list.understood false).parts)) := by
    intro list member
    rw [parts_understood]
    exact (known.inner member).listed_quiet rfl
  unfold Phrase.functionTypeName
  simp only [allOf_eq,List.getElem?_map]
  cases lists : tree.inner .functionTypeParameterList with
  | nil => exact absurd lists present
  | cons first rest =>
    rw [lists] at parameters
    refine (parameters first List.mem_cons_self).after fun values _ => ?_
    cases rest with
    | nil => exact tree.node_hinges _ _
    | cons second rest =>
      refine (parameters second (by simp)).after fun returns _ => ?_
      exact tree.node_hinges _ _

end SolReader.Tree.Known
