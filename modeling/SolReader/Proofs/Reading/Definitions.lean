import SolReader.Proofs.Ast.Shapes
import SolReader.Proofs.Parse.Last
import SolReader.Proofs.Reading.Leaves

namespace SolReader

open List

variable {tree : Tree}

theorem Tree.EndsSource.rule? (ends : tree.EndsSource) : tree.rule? = none := by
  cases tree with
  | leaf token => rfl
  | error token => rfl
  | node rule start stop children => exact ends.elim

theorem Reading.sourceUnit_children (text : String) :
    ∃ children last, (ofText .sourceUnit text).tree.children = children ++ [last] ∧ last.EndsSource := by
  obtain ⟨input,tree,final,ahead,ran,result⟩ := ofText_ran .sourceUnit text
  rw [result]
  exact Source.run_endsLast (ahead ▸ closed_visible text) ran

theorem Tree.meanings_understood (located : Bool) (trees : List Tree) :
    Part.meanings (trees.map (Tree.understood located)) = trees.mapM (Tree.meaning located) := by
  rw [Part.meanings,mapM_map]
  rfl

theorem Phrase.sourceUnit_eq (located : Bool)
    (split : tree.children = children ++ [last]) : (tree.seen located).sourceUnit =
      (children.mapM (Tree.meaning located)).bind fun entries =>
        (tree.seen located).node "SourceUnit" [("children",.list entries)] := by
  have parts : (tree.seen located).parts = children.map (Tree.understood located) ++ [last.understood located] := by
    rw [Tree.seen,split,map_append]
    rfl
  have filled : (tree.seen located).parts.isEmpty = false := by simp [parts]
  have definitions : (tree.seen located).parts.dropLast = children.map (Tree.understood located) := by simp [parts]
  rw [Phrase.sourceUnit,filled,definitions,← Tree.meanings_understood]
  simp only [Bool.false_eq_true,if_false,Part.listOf,pure_bind,bind_assoc]
  rfl

-- The last child is the end of the text or a dropped token, all phrases are among the others, and the list of the source
-- holds what each of these means.
theorem parse_definitions (text : String) : ∃ children last,
    (Reading.ofText .sourceUnit text).tree.children = children ++ [last] ∧ last.EndsSource ∧
    (∀ child ∈ (Reading.ofText .sourceUnit text).tree.children, child.rule?.isSome → child ∈ children) ∧
    ∀ located, (parse text "sourceUnit" located).1 =
      (children.mapM (Tree.meaning located)).bind fun entries =>
        ((Reading.ofText .sourceUnit text).tree.seen located).node "SourceUnit" [("children",.list entries)] := by
  obtain ⟨children,last,split,ends⟩ := Reading.sourceUnit_children text
  refine ⟨children,last,split,ends,fun child member phrase => ?_,fun located => ?_⟩
  · rw [split,mem_append,mem_singleton] at member
    refine member.resolve_right fun same => ?_
    rw [same,ends.rule?] at phrase
    cases phrase
  · have root := (Reading.ofText_fitted .sourceUnit text).2
    change (Reading.ofText .sourceUnit text).tree.meaning located = _
    rw [Tree.meaning_seen root]
    exact Phrase.sourceUnit_eq located split

end SolReader
