import SolReader.Proofs.Ast.Postfix
import SolReader.Proofs.Parse.Dangling

namespace SolReader

open List

variable {rule : Rule}

-- A conditional statement with one branch or with both.
def Rule.branchRow (both : Bool) : List Member :=
  [.token .kwIf,.token .lparen,.phrase .expression,.token .rparen,.phrase .statement] ++
    if both then [.token .kwElse,.phrase .statement] else []

theorem Rule.ifStatement_rows : Rule.rows .ifStatement = some [Rule.branchRow false,Rule.branchRow true] := by
  decide

namespace Tree

variable {phrase condition yes : Tree} {no : Option Tree} {located : Bool}

-- How a conditional statement is written.  If it has an `else`, no conditional statement at the end of the first branch is
-- without one.
structure Branches (phrase condition yes : Tree) (no : Option Tree) : Prop where
  asks : phrase.children[2]? = some condition
  first : phrase.children[4]? = some yes
  second : phrase.children[6]? = no
  written : phrase.children.map member = Rule.branchRow no.isSome
  closed : no.isSome = true → yes.dangles = false

-- What its node holds.
structure Decides (located : Bool) (condition yes : Tree) (no : Option Tree) (node : Fields) : Prop where
  sort : node.get? "type" = some (.text "IfStatement")
  asks : ∃ value, condition.meaning located = .ok value ∧ node.get? "condition" = some value
  first : ∃ value, yes.meaning located = .ok value ∧ node.get? "TrueBody" = some value
  second : ∃ value, Slot (fun no value => no.meaning located = .ok value) no value ∧ node.get? "FalseBody" = some value

theorem Proper.branches (proper : phrase.Proper .ifStatement) (nearest : phrase.ElseNearest) :
    ∃ condition yes no, phrase.Branches condition yes no := by
  obtain ⟨level,derives⟩ := proper.derives
  have row := derives.mem_rows Rule.ifStatement_rows
  simp only [mem_cons,not_mem_nil,or_false] at row
  rcases row with written | written
  · have parts := written
    simp only [Rule.branchRow,Bool.false_eq_true,if_false,append_nil,map_eq_cons_iff,
      map_eq_nil_iff] at parts
    obtain ⟨_,_,split,_,_,_,rfl,_,condition,_,rfl,_,_,_,rfl,_,yes,_,rfl,_,rfl⟩ := parts
    exact ⟨condition,yes,none,by rw [split]; rfl,by rw [split]; rfl,by rw [split]; rfl,written,by simp⟩
  · have parts := written
    simp only [Rule.branchRow,if_true,cons_append,nil_append,map_eq_cons_iff,
      map_eq_nil_iff] at parts
    obtain ⟨_,_,split,_,_,_,rfl,_,condition,_,rfl,_,_,_,rfl,_,yes,_,rfl,_,word,_,rfl,isWord,no,_,rfl,
      _,rfl⟩ := parts
    refine ⟨condition,yes,some no,by rw [split]; rfl,by rw [split]; rfl,by rw [split]; rfl,written,fun _ => ?_⟩
    rw [ElseNearest,split] at nearest
    simp only [isChain_cons_cons] at nearest
    exact nearest.2.2.2.2.1 (by rw [isMember_eq,isWord]; rfl)

theorem Branches.inner (branches : phrase.Branches condition yes no) :
    phrase.inner .statement = yes :: no.toList ∧ phrase.inner .expression = [condition] := by
  obtain ⟨asks,first,second,written,_⟩ := branches
  cases no with
  | none =>
    simp only [Rule.branchRow,Option.isSome_none,Bool.false_eq_true,if_false,append_nil,map_eq_cons_iff,
      map_eq_nil_iff] at written
    obtain ⟨_,_,split,one,_,_,rfl,two,_,_,rfl,three,_,_,rfl,four,_,_,rfl,five,rfl⟩ := written
    rw [split] at asks first
    cases asks
    cases first
    simp [inner_eq,split,one,two,three,four,five]
  | some no =>
    simp only [Rule.branchRow,Option.isSome_some,if_true,cons_append,nil_append,map_eq_cons_iff,
      map_eq_nil_iff] at written
    obtain ⟨_,_,split,one,_,_,rfl,two,_,_,rfl,three,_,_,rfl,four,_,_,rfl,five,_,_,rfl,six,_,_,rfl,
      seven,rfl⟩ := written
    rw [split] at asks first second
    cases asks
    cases first
    cases second
    simp [inner_eq,split,one,two,three,four,five,six,seven]

theorem Branches.isHalf_eq (branches : phrase.Branches condition yes no) (found : phrase.rule? = some .ifStatement) :
    phrase.isHalf = no.isNone := by
  have both : (phrase.children.any (isMember (.token .kwElse))) = no.isSome := by
    have same : isMember (.token .kwElse) = (· == Member.token .kwElse) ∘ member := funext (isMember_eq _)
    rw [same,← any_map,branches.written]
    cases no <;> rfl
  rw [isHalf,both,isMember_eq,rule?_eq.mp found,beq_self_eq_true,Bool.true_and,Option.not_isSome]

theorem Branches.decides (proper : phrase.Proper .ifStatement) (branches : phrase.Branches condition yes no) :
    Yields (Value.IsNode (Decides located condition yes no)) (phrase.meaning located) := by
  rw [meaning_seen proper.rule_eq]
  change Yields _ (Phrase.ifStatement _)
  obtain ⟨statements,expressions⟩ := branches.inner
  rw [Phrase.ifStatement,Phrase.first?,show (phrase.seen located).allOf .statement = _ from
    all_understood located .statement phrase,show (phrase.seen located).allOf .expression = _ from
    all_understood located .expression phrase,statements,expressions]
  refine Yields.chain fun one first => Yields.chain fun two second => Yields.chain fun three third => ?_
  refine Phrase.yields_node fun place placed _ => ⟨_,rfl,rfl,⟨three,third,?_⟩,⟨one,first,?_⟩,two,?_,?_⟩
  · exact Fields.get?_made placed (by decide) (by decide)
  · exact Fields.get?_made placed (by decide) (by decide)
  · cases no with
    | none => exact (Except.ok.inj second).symm
    | some no => exact second
  · exact Fields.get?_made placed (by decide) (by decide)

end Tree

theorem Reading.ofText_nearest (clean : (Reading.ofText rule text).diagnostics = []) :
    ∀ phrase ∈ (Reading.ofText rule text).tree.phrases, phrase.ElseNearest := by
  obtain ⟨input,tree,final,ahead,ran,result⟩ := Reading.ofText_ran rule text
  have closed : Token.Closed input.ahead := ahead ▸ closed_visible text
  rw [result] at clean ⊢
  exact Parse.outcome_nearest closed ran (reverse_eq_nil_iff.mp (append_eq_nil_iff.mp clean).2)

theorem Rule.branches_checked : ∀ rule : Rule, (rule == .ifStatement ||
    rule.makes.all fun made => made.1 != "IfStatement") = true := by
  decide

theorem Made.isConditional (made : Made phrase rule "IfStatement" fields) : rule = .ifStatement := by
  have checked := Rule.branches_checked rule
  rw [Bool.or_eq_true,beq_iff_eq] at checked
  exact checked.resolve_right fun absent => by simpa using all_eq_true.mp absent _ made.listed

-- In a text that is read without complaint, the first branch of every conditional statement with an `else` is closed, and
-- every node of a conditional statement has the branches of one that is so written.
theorem parse_branches {text start : String} {located : Bool} {rule : Rule} (known : Rule.ofName? start = some rule)
    (clean : (parse text start located).2 = []) :
    (∀ phrase ∈ (Reading.ofText rule text).tree.phrases, phrase.rule? = some .ifStatement →
      ∃ condition yes no, phrase.Branches condition yes no) ∧
    ∀ value, (parse text start located).1 = .ok value → value.All fun node =>
      node.get? "type" = some (.text "IfStatement") → ∃ phrase ∈ (Reading.ofText rule text).tree.phrases,
        ∃ condition yes no, phrase.Branches condition yes no ∧ phrase.meaning located = .ok (.node node) ∧
          Tree.Decides located condition yes no node := by
  rw [parse_known known] at clean ⊢
  have proper := Reading.ofText_proper clean
  have written : ∀ phrase ∈ (Reading.ofText rule text).tree.phrases, phrase.rule? = some .ifStatement →
      phrase.Proper .ifStatement ∧ ∃ condition yes no, phrase.Branches condition yes no := by
    intro phrase inside found
    obtain ⟨_,own⟩ := proper.phrases inside
    cases own.same found
    exact ⟨own,own.branches (Reading.ofText_nearest clean phrase inside)⟩
  refine ⟨fun phrase inside found => (written phrase inside found).2,fun value means node member sort => ?_⟩
  obtain ⟨phrase,inside,_,_,found,made,same⟩ := Tree.whole_phrase means node member "IfStatement" (by simp) sort
  cases made.isConditional
  obtain ⟨own,condition,yes,no,branches⟩ := written phrase inside found
  obtain ⟨_,equal,decides⟩ := branches.decides own _ same
  cases Value.node.inj equal
  exact ⟨phrase,inside,condition,yes,no,branches,same,decides⟩

-- The `else` could belong to either of the two.
def oneElse : String := "if(true)if(true)\x7b\x7delse\x7b\x7d"

set_option maxRecDepth 100000 in
theorem oneElse_read : ((Reading.ofText .ifStatement oneElse).diagnostics.isEmpty &&
    (Reading.ofText .ifStatement oneElse).tree.isHalf && (Reading.ofText .ifStatement oneElse).tree.phrases.any fun phrase =>
      phrase.rule? == some .ifStatement && !phrase.isHalf) = true := by
  decide +kernel

theorem oneElse_inner : (parse oneElse "ifStatement" false).2 = [] ∧
    (∃ condition yes, (Reading.ofText .ifStatement oneElse).tree.Branches condition yes none) ∧
    ∃ phrase ∈ (Reading.ofText .ifStatement oneElse).tree.phrases, ∃ condition yes no,
      phrase.Branches condition yes (some no) := by
  have known : Rule.ofName? "ifStatement" = some .ifStatement := by decide
  have read := oneElse_read
  rw [Bool.and_eq_true,Bool.and_eq_true,List.isEmpty_iff,List.any_eq_true] at read
  obtain ⟨⟨whole,half⟩,phrase,inside,own⟩ := read
  rw [Bool.and_eq_true,beq_iff_eq,Bool.not_eq_true'] at own
  have clean : (parse oneElse "ifStatement" false).2 = [] := by rw [parse_known known,whole]
  have root := (Reading.ofText_proper whole).rule_eq
  have written := (parse_branches known clean).1
  obtain ⟨condition,yes,no,outer⟩ := written _ (Tree.self_mem root) root
  cases Option.isNone_iff_eq_none.mp ((outer.isHalf_eq root).symm.trans half)
  obtain ⟨other,then_,rest,inner⟩ := written phrase inside own.1
  cases rest with
  | none => cases (inner.isHalf_eq own.1).symm.trans own.2
  | some rest => exact ⟨clean,⟨condition,yes,outer⟩,phrase,inside,other,then_,rest,inner⟩

end SolReader
