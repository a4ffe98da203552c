import SolReader.Proofs.Ast.Slots
import SolReader.Proofs.Token.Fragments

namespace SolReader

open List

namespace Fragment

theorem length_row (fragments : List Fragment) :
    (fragments.flatMap letters).length =
      (fragments.flatMap body).length + 2 * fragments.length + 7 * fragments.countP (·.isUnicode) := by
  induction fragments with
  | nil => rfl
  | cons fragment fragments ih =>
    rw [flatMap_cons,flatMap_cons,length_append,length_append,ih,length_letters,length_cons,
      countP_cons]
    cases fragment.isUnicode <;> simp <;> omega

-- Two characters are cut off.  Every fragment brings two quotes with it, so no second one may be there, and no word.
theorem trimmed_eq_bodies_iff (filled : fragments ≠ []) :
    ((fragments.flatMap letters).drop 1).dropLast = fragments.flatMap body ↔
      ∃ fragment : Fragment, fragments = [fragment] ∧ fragment.isUnicode = false := by
  constructor
  · intro same
    have length := congrArg List.length same
    rw [length_dropLast,length_drop,length_row] at length
    have positive := length_pos_iff.mpr filled
    obtain ⟨fragment,rfl⟩ := length_eq_one_iff.mp (by omega : fragments.length = 1)
    refine ⟨fragment,rfl,?_⟩
    cases unicode : fragment.isUnicode with
    | false => rfl
    | true =>
      rw [countP_singleton,unicode] at length
      simp at length
  · rintro ⟨fragment,rfl,plain⟩
    simp [letters,mark,plain]

end Fragment

namespace Tree

variable {tree literal : Tree} {rule : Rule} {located : Bool}

theorem Proper.fragments (proper : tree.Proper .stringLiteral) : ∃ fragments : List Fragment, fragments ≠ [] ∧
    tree.children.map (fun child => child.text.toList) = fragments.map Fragment.letters := by
  obtain ⟨level,derives⟩ := proper.derives
  obtain ⟨child,first,_⟩ := derives.child_of_least (show 0 < Rule.least _ fun _ => true by decide)
  have each : ∀ letters ∈ tree.children.map (fun child => child.text.toList), letters ∈ Set.range Fragment.letters := by
    intro letters listed
    obtain ⟨child,member,rfl⟩ := mem_map.mp listed
    have sort := derives.not_counted (show Rule.most _ (· != .token .stringFragment) = some 0 by decide) member
    rcases proper.child member with ⟨token,rfl,genuine⟩ | ⟨other,own⟩
    · obtain ⟨fragment,same⟩ := genuine.fragment (by simpa [Tree.member] using sort)
      exact ⟨fragment,by rw [text_leaf,same]⟩
    · rw [rule?_eq.mp own.rule_eq] at sort
      cases sort
  obtain ⟨fragments,same⟩ : tree.children.map (fun child => child.text.toList) ∈ Set.range (List.map Fragment.letters) := by
    rw [Set.range_list_map]
    exact each
  refine ⟨fragments,?_,same.symm⟩
  rintro rfl
  simp [ne_nil_of_mem first] at same

theorem stringHolders_checked : ∀ rule : Rule, (
    [.primaryExpression,.assemblyItem,.assemblyLiteral].contains rule ||
      rule.most (Member.isPhrase .stringLiteral) == some 0) = true := by
  decide

theorem Proper.string_alone (proper : tree.Proper rule) (held : literal ∈ tree.inner .stringLiteral) :
    rule ∈ [.primaryExpression,.assemblyItem,.assemblyLiteral] ∧ tree.children = [literal] := by
  obtain ⟨level,derives⟩ := proper.derives
  obtain ⟨member,isRule⟩ := mem_inner.mp held
  have listed : rule ∈ [.primaryExpression,.assemblyItem,.assemblyLiteral] := by
    have checked := stringHolders_checked rule
    rw [Bool.or_eq_true,contains_iff_mem,beq_iff_eq] at checked
    refine checked.resolve_right fun never => ?_
    have absent := derives.not_counted never member
    rw [isPhrase_member.mpr isRule] at absent
    cases absent
  refine ⟨listed,?_⟩
  have single (once : (rule.most fun _ => true) = some 1) : tree.children = [literal] := by
    have few := derives.le_most once
    rw [countP_true] at few
    obtain ⟨child,only⟩ := length_eq_one_iff.mp (Nat.le_antisymm few (length_pos_of_mem member))
    rw [only,mem_singleton] at member
    rw [only,member]
  simp only [mem_cons,not_mem_nil,or_false] at listed
  rcases listed with rfl | rfl | rfl
  · have made := Primary.derives_made derives
    generalize tree.children = trees at made member
    cases made with
    | boolean _ | keyword _ => cases mem_singleton.mp member; cases isRule
    | single _ _ => rw [mem_singleton.mp member]
    | array names base =>
      simp only [mem_cons,not_mem_nil,or_false] at member names
      rcases member with rfl | rfl | rfl
      · rw [rule?_eq,Form.Derives.member_eq base] at isRule
        rcases names with rfl | rfl <;> cases isRule
      · cases isRule
      · cases isRule
  · exact single (by decide)
  · exact single (by decide)

theorem first?_alone (only : tree.children = [literal]) (other : Rule) : (tree.seen located).first? other =
    if literal.rule? = some other then some (literal.understood located) else none := by
  rw [Phrase.first?,show (tree.seen located).allOf other = _ from all_understood located other tree,inner,only,
    filter_singleton]
  by_cases same : literal.rule? = some other
  · simp [same]
  · simp [same,beq_false_of_ne same]

theorem Proper.string_meaning (proper : tree.Proper rule) (held : literal ∈ tree.inner .stringLiteral) :
    tree.meaning located = (tree.seen located).node (if rule = .primaryExpression then "stringLiteral" else "StringLiteral")
      [("value",.text (Phrase.inner literal.text))] := by
  obtain ⟨listed,only⟩ := proper.string_alone held
  obtain ⟨_,isRule⟩ := mem_inner.mp held
  have first := fun other => @first?_alone tree literal located only other
  simp only [isRule,Option.some.injEq] at first
  have text : (tree.seen located).text = literal.text := by
    rw [Phrase.text,seen,← String.toList_inj,toList_text proper.rule_eq,only,flatMap_singleton]
  have token : (tree.seen located).token? .booleanLiteral = none := by
    cases literal with
    | leaf _ | error _ => cases isRule
    | node => simp [Phrase.token?,seen,only,Part.kind?]
  rw [meaning_seen proper.rule_eq]
  simp only [mem_cons,not_mem_nil,or_false] at listed
  rcases listed with rfl | rfl | rfl
  · simp [Phrase.meaning,Phrase.primaryExpression,token,first,text]
  · simp [Phrase.meaning,Phrase.assemblyItem,first,Part.text]
  · simp [Phrase.meaning,Phrase.assemblyLiteral,first,text]

theorem Proper.string_clear (proper : tree.Proper rule) (held : literal ∈ tree.inner .stringLiteral) :
    tree.clear = true := by
  obtain ⟨listed,only⟩ := proper.string_alone held
  have inner : tree.clearInside := by
    intro child member
    rw [only,mem_singleton] at member
    exact member ▸ (proper.inner held).clear rfl
  refine proper.clear_iff.mpr ⟨?_,inner⟩
  cases tree with
  | leaf _ | error _ => rfl
  | node own start stop children =>
    cases proper.same rfl
    simp only [mem_cons,not_mem_nil,or_false] at listed
    rcases listed with rfl | rfl | rfl <;> rfl

end Tree

-- The value of a string literal is what stands between its quotes exactly if it is a single fragment without a word in
-- front of it.  In all other literals the quotes and words inside stay.
theorem parse_strings {text start : String} {located : Bool} {rule : Rule} (known : Rule.ofName? start = some rule)
    (clean : (parse text start located).2 = []) {phrase literal : Tree}
    (inside : phrase ∈ (Reading.ofText rule text).tree.phrases) (held : literal ∈ phrase.inner .stringLiteral) :
    ∃ (fragments : List Fragment) (node : Fields) (value : String),
      fragments ≠ [] ∧ literal.children.map (fun child => child.text.toList) = fragments.map Fragment.letters ∧
      phrase.meaning located = .ok (.node node) ∧
      Value.isOf [if phrase.rule? = some .primaryExpression then "stringLiteral" else "StringLiteral"] node = true ∧
      node.get? "value" = some (.text value) ∧
      value.toList = ((fragments.flatMap Fragment.letters).drop 1).dropLast ∧
      (value.toList = fragments.flatMap Fragment.body ↔
        ∃ fragment : Fragment, fragments = [fragment] ∧ fragment.isUnicode = false) := by
  rw [parse_known known] at clean
  obtain ⟨own,proper⟩ := (Reading.ofText_proper clean).phrases inside
  have isLiteral := proper.inner held
  obtain ⟨fragments,filled,spelled⟩ := isLiteral.fragments
  have value : (Phrase.inner literal.text).toList = ((fragments.flatMap Fragment.letters).drop 1).dropLast := by
    rw [Phrase.inner,String.toList_ofList,Tree.toList_text isLiteral.rule_eq,flatMap_def,spelled,flatMap_def]
  have yields : Yields (Value.IsNode fun node =>
      Value.isOf [if phrase.rule? = some .primaryExpression then "stringLiteral" else "StringLiteral"] node = true ∧
      node.get? "value" = some (.text (Phrase.inner literal.text))) (phrase.meaning located) := by
    rw [proper.string_meaning held,proper.rule_eq]
    refine Phrase.yields_node fun place placed _ => ⟨_,rfl,?_,Fields.get?_made placed (by decide) (by decide)⟩
    change List.contains [_] _ = true
    simp
  obtain ⟨listed,_⟩ := proper.string_alone held
  obtain ⟨_,means⟩ := Reading.phrase_means clean inside proper.rule_eq (by rintro rfl; simp at listed)
    (by rintro rfl; simp at listed) (proper.string_clear held) located
  obtain ⟨node,rfl,sort,has⟩ := yields _ means
  exact ⟨fragments,node,_,filled,spelled,means,sort,has,value,value ▸ Fragment.trimmed_eq_bodies_iff filled⟩

-- A single fragment, with the word.
def unicodeFragment : String := "unicode'a'"

set_option maxRecDepth 100000 in
theorem unicodeFragment_read : ((Reading.ofText .assemblyLiteral unicodeFragment).diagnostics.isEmpty &&
    ((Reading.ofText .assemblyLiteral unicodeFragment).tree.inner .stringLiteral).map (fun literal =>
      literal.children.map fun child => child.text.toList) == [["unicode'a'".toList]]) = true := by
  decide +kernel

theorem unicodeFragment_kept : (parse unicodeFragment "assemblyLiteral" false).2 = [] ∧ ∃ node : Fields,
    (parse unicodeFragment "assemblyLiteral" false).1 = .ok (.node node) ∧
    node.get? "value" = some (.text "nicode'a") := by
  have known : Rule.ofName? "assemblyLiteral" = some .assemblyLiteral := by decide
  have read := unicodeFragment_read
  rw [Bool.and_eq_true,List.isEmpty_iff,beq_iff_eq] at read
  obtain ⟨whole,literals⟩ := read
  have clean : (parse unicodeFragment "assemblyLiteral" false).2 = [] := by rw [parse_known known,whole]
  obtain ⟨literal,held,one⟩ := List.mem_map.mp (literals ▸ List.mem_singleton_self ["unicode'a'".toList])
  obtain ⟨fragments,node,value,_,spelled,means,_,has,trimmed,_⟩ :=
    parse_strings known clean (Tree.self_mem (Reading.ofText_proper whole).rule_eq) held
  rw [List.flatMap_def,← spelled,one] at trimmed
  have same : value = "nicode'a" := String.toList_inj.mp trimmed
  refine ⟨clean,node,?_,same ▸ has⟩
  rw [parse_known known]
  exact means

end SolReader
