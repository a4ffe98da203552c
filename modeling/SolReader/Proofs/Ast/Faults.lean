import SolReader.Proofs.Reading.Leaves
import SolReader.Proofs.Ast.Types
import SolReader.Proofs.Ast.Expressions
import SolReader.Proofs.Ast.Statements
import SolReader.Proofs.Ast.Assembly
import SolReader.Proofs.Ast.Definitions

namespace SolReader

open List

namespace Tree

variable {rule : Rule} {tree : Tree}

-- A parameter of an event that has no name.
def nameless : Tree → Bool
  | .node .eventParameter _ _ children => !children.any (isMember (.phrase .identifier))
  | _ => false

namespace Known

variable {rule : Rule} {tree : Tree}

theorem quietly (known : tree.Known rule) (quiet : rule.assembles = false)
    (hinges : Hinges True outcome) : Hinges tree.clearInside outcome := by
  apply hinges.congr
  have clear := known.proper.clear quiet
  simp [(known.proper.clear_iff.mp clear).2]

theorem phrase_hinges (known : tree.Known rule) (named : rule ≠ .eventParameter) (plain : rule ≠ .assemblyMember)
    (whole : rule ≠ .assemblyFunctionDefinition) : Hinges tree.clearInside (tree.phrase.meaning rule) := by
  cases rule with
  | eventParameter => exact absurd rfl named
  | assemblyMember => exact absurd rfl plain
  | assemblyFunctionDefinition => exact absurd rfl whole
  | sourceUnit => exact known.sourceUnit_hinges
  | pragmaDirective => exact known.quietly rfl known.pragmaDirective_hinges
  | importDirective => exact known.quietly rfl known.importDirective_hinges
  | contractDefinition => exact known.contractDefinition_hinges
  | inheritanceSpecifier => exact known.quietly rfl known.inheritanceSpecifier_hinges
  | contractPart => exact known.contractPart_hinges
  | stateVariableDeclaration => exact known.quietly rfl known.stateVariableDeclaration_hinges
  | fileLevelConstant => exact known.quietly rfl known.fileLevelConstant_hinges
  | customErrorDefinition => exact known.quietly rfl known.customErrorDefinition_hinges
  | typeDefinition => exact known.quietly rfl known.typeDefinition_hinges
  | usingForDeclaration => exact known.quietly rfl known.usingForDeclaration_hinges
  | structDefinition => exact known.quietly rfl known.structDefinition_hinges
  | modifierDefinition => exact known.modifierDefinition_hinges
  | modifierInvocation => exact known.quietly rfl known.modifierInvocation_hinges
  | functionDefinition => exact known.functionDefinition_hinges
  | returnParameters => exact known.quietly rfl (known.optional_quiet rfl)
  | eventDefinition => exact known.quietly rfl known.eventDefinition_hinges
  | enumValue => exact known.quietly rfl (known.named_hinges (by decide) _)
  | enumDefinition => exact known.quietly rfl known.enumDefinition_hinges
  | parameterList => exact known.quietly rfl known.parameterList_hinges
  | parameter => exact known.quietly rfl known.parameter_hinges
  | eventParameterList => exact known.quietly rfl known.eventParameterList_hinges
  | functionTypeParameter => exact known.quietly rfl known.functionTypeParameter_hinges
  | variableDeclaration => exact known.quietly rfl known.variableDeclaration_hinges
  | typeName => exact known.quietly rfl known.typeName_hinges
  | userDefinedTypeName => exact known.quietly rfl (userDefinedTypeName_hinges tree)
  | mapping => exact known.quietly rfl known.mapping_hinges
  | functionTypeName => exact known.quietly rfl known.functionTypeName_hinges
  | block => exact known.block_hinges
  | statement => exact known.alone_hinges (by decide) (by decide) (by decide)
  | simpleStatement => exact known.alone_hinges (by decide) (by decide) (by decide)
  | assemblyExpression => exact known.alone_hinges (by decide) (by decide) (by decide)
  | expressionStatement => exact known.quietly rfl known.expressionStatement_hinges
  | ifStatement => exact known.ifStatement_hinges
  | tryStatement => exact known.tryStatement_hinges
  | catchClause => exact known.catchClause_hinges
  | whileStatement => exact known.whileLoop_hinges (by decide) (by decide) _
  | uncheckedStatement => exact known.uncheckedStatement_hinges
  | forStatement => exact known.forStatement_hinges
  | inlineAssemblyStatement => exact known.inlineAssemblyStatement_hinges
  | doWhileStatement => exact known.whileLoop_hinges (by decide) (by decide) _
  | returnStatement => exact known.quietly rfl (known.optional_quiet rfl)
  | throwStatement => exact known.quietly rfl (tree.node_hinges _ _)
  | emitStatement => exact known.quietly rfl known.emitStatement_hinges
  | revertStatement => exact known.quietly rfl known.revertStatement_hinges
  | variableDeclarationStatement => exact known.quietly rfl known.variableDeclarationStatement_hinges
  | variableDeclarationList => exact known.quietly rfl known.variableDeclarationList_hinges
  | identifierList => exact known.quietly rfl known.identifierList_hinges
  | elementaryTypeName => exact known.quietly rfl (elementaryTypeName_hinges tree)
  | expression => exact known.quietly rfl known.expression_hinges
  | primaryExpression => exact known.quietly rfl known.primaryExpression_hinges
  | functionCall => exact known.quietly rfl known.functionCall_hinges
  | assemblyBlock => exact known.assemblyBlock_hinges
  | assemblyItem => exact known.assemblyItem_hinges
  | assemblyCall => exact known.assemblyCall_hinges
  | assemblyLocalDefinition =>
    exact known.assignment_hinges (by decide) (by decide) (by decide) (by decide) _
  | assemblyAssignment =>
    exact known.assignment_hinges (by decide) (by decide) (by decide) (by decide) _
  | assemblyStackAssignment => exact known.quietly rfl (known.named_hinges (by decide) _)
  | labelDefinition => exact known.quietly rfl (known.named_hinges (by decide) _)
  | assemblySwitch => exact known.assemblySwitch_hinges
  | assemblyCase => exact known.assemblyCase_hinges
  | assemblyFor => exact known.assemblyFor_hinges
  | assemblyIf => exact known.assemblyIf_hinges
  | assemblyLiteral => exact known.quietly rfl (assemblyLiteral_hinges tree)
  | tupleExpression => exact known.quietly rfl known.tupleExpression_hinges
  | numberLiteral => exact known.quietly rfl known.numberLiteral_hinges
  | identifier => exact known.quietly rfl (tree.node_hinges _ _)
  | _ => exact known.last_hinges (by decide)

end Known

theorem Proper.meaning_hinges (proper : tree.Proper rule) (named : rule ≠ .eventParameter) :
    Hinges (tree.clear = true) (tree.meaning false) := by
  induction tree using by_size generalizing rule with
  | step tree ih =>
    have known : tree.Known rule := ⟨proper,fun small smaller other inside => ih small smaller inside⟩
    have split := proper.clear_iff
    obtain ⟨level,derives⟩ := proper.derives
    cases derives with
    | @node _ _ start stop children _ _ _ =>
      rw [understood_node]
      by_cases dotted : rule = .assemblyMember
      · subst dotted
        refine ⟨rfl,?_⟩
        intro clear
        cases (split.mp clear).1
      by_cases function : rule = .assemblyFunctionDefinition
      · subst function
        exact known.assemblyFunctionDefinition_hinges.congr split.symm
      have readable : (node rule start stop children).unreadable = false := by
        cases rule <;> first | rfl | contradiction
      apply (known.phrase_hinges named dotted function).congr
      rw [split]
      exact (and_iff_right readable).symm

theorem Proper.eventParameter_hinges (proper : tree.Proper .eventParameter) :
    Hinges (tree.nameless = false) (tree.meaning false) := by
  have known : tree.Known .eventParameter := ⟨proper,fun small _ other inside => inside.meaning_hinges⟩
  obtain ⟨level,derives⟩ := proper.derives
  cases derives with
  | @node _ _ start stop children _ _ _ =>
    rw [understood_node]
    apply known.eventParameter_hinges.congr
    rw [← Known.any_isMember]
    simp [nameless,Tree.children]

theorem Proper.root_hinges (proper : tree.Proper rule) :
    Hinges (tree.clear = true ∧ tree.nameless = false) (tree.meaning false) := by
  by_cases event : rule = .eventParameter
  · subst event
    apply proper.eventParameter_hinges.congr
    simp [proper.clear rfl]
  · apply (proper.meaning_hinges event).congr
    have named : tree.nameless = false := by
      obtain ⟨level,derives⟩ := proper.derives
      cases derives
      cases rule <;> first | rfl | contradiction
    simp [named]

end Tree

theorem Reading.ofText_proper (clean : (ofText rule text).diagnostics = []) : (ofText rule text).tree.Proper rule := by
  obtain ⟨input,tree,final,ahead,ran,result⟩ := ofText_ran rule text
  have closed : Token.Closed input.ahead := ahead ▸ closed_visible text
  rw [result] at clean ⊢
  have quiet : final.diagnostics = [] := reverse_eq_nil_iff.mp (append_eq_nil_iff.mp clean).2
  obtain ⟨_,_,derives,_⟩ := Parse.outcome_last closed ran quiet
  have taken : ∀ token ∈ tree.tokens, token ∈ input.ahead := by
    intro token member
    by_cases whole : rule = .sourceUnit
    · subst whole
      exact Parse.outcome_whole closed ran quiet ▸ member
    · rw [← Parse.outcome_part closed ran quiet whole]
      exact mem_append_left _ member
  refine ⟨⟨0,derives⟩,?_⟩
  intro token member
  have listed := taken token member
  rw [ahead] at listed
  exact genuine_of_mem (mem_filter.mp listed).1

-- The exact condition under which a text that is read without complaint has no abstract tree.  The fault is then always
-- that something missing was asked for.
theorem parse_fails_iff (text start : String) (rule : Rule) (known : Rule.ofName? start = some rule)
    (clean : (parse text start false).2 = []) :
    ((∃ fault, (parse text start false).1 = .error fault) ↔
      (∃ phrase ∈ (Reading.ofText rule text).tree.phrases, phrase.unreadable = true) ∨
        (Reading.ofText rule text).tree.nameless = true) ∧
    ∀ fault, (parse text start false).1 = .error fault → fault.isMissing = true := by
  have whole : parse text start false =
      ((Reading.ofText rule text).tree.meaning false,(Reading.ofText rule text).diagnostics) := by
    rw [parse,known]
  rw [whole] at clean ⊢
  have hinges := (Reading.ofText_proper clean).root_hinges
  refine ⟨?_,fun fault failed => hinges.missing failed⟩
  apply hinges.fails_iff.trans
  simp [Tree.clear,or_iff_not_imp_left]

set_option maxRecDepth 100000 in
theorem dottedName_read : ((parse "a.b" "assemblyMember" false).2.isEmpty &&
    (Reading.ofText .assemblyMember "a.b").tree.phrases.any (·.unreadable)) = true := by
  decide +kernel

theorem dottedName_clean : (parse "a.b" "assemblyMember" false).2 = [] :=
  List.isEmpty_iff.mp (Bool.and_eq_true_iff.mp dottedName_read).1

theorem dottedName_unreadable :
    ∃ phrase ∈ (Reading.ofText .assemblyMember "a.b").tree.phrases, phrase.unreadable = true :=
  any_eq_true.mp (Bool.and_eq_true_iff.mp dottedName_read).2

theorem dottedName_fails : Rule.ofName? "assemblyMember" = some .assemblyMember ∧
    (parse "a.b" "assemblyMember" false).2 = [] ∧
    ∃ fault, (parse "a.b" "assemblyMember" false).1 = .error fault ∧ fault.isMissing = true := by
  have known : Rule.ofName? "assemblyMember" = some .assemblyMember := by decide
  have condition := parse_fails_iff "a.b" "assemblyMember" .assemblyMember known dottedName_clean
  obtain ⟨fault,failed⟩ := condition.1.mpr (.inl dottedName_unreadable)
  exact ⟨known,dottedName_clean,fault,failed,condition.2 fault failed⟩

end SolReader
