import SolReader.Proofs.Ast.Locations
import SolReader.Proofs.Token.Tiling

namespace SolReader

open List

-- The stretch of a text that a node takes up, by the places at which its first and its last token begin.
structure Span where
  start : Place
  stop : Place
  deriving DecidableEq, Repr

namespace Span

def value (span : Span) : Value :=
  .record [("start",Phrase.location.place span.start),("end",Phrase.location.place span.stop)]

def Within (inner outer : Span) : Prop :=
  outer.start ≤ inner.start ∧ inner.stop ≤ outer.stop

end Span

-- The node says that it stands there.
def Fields.StandsAt (node : Fields) (span : Span) : Prop :=
  node.get? "loc" = some span.value

section Ordered

variable {first token : Token}
variable {tokens : List Token} (ordered : tokens.Pairwise Token.Precedes)

include ordered

theorem Token.first_le (head : tokens.head? = some first) (member : token ∈ tokens) : first.place ≤ token.place := by
  cases ordered with
  | nil => cases member
  | cons before _ =>
    cases head
    rcases mem_cons.mp member with rfl | later
    · exact Place.le_refl _
    · exact (before token later).2

theorem Token.first_genuine (head : tokens.head? = some first) (member : token ∈ tokens)
    (genuine : token.kind ≠ .eof) : first.kind ≠ .eof := by
  cases ordered with
  | nil => cases member
  | cons before _ =>
    cases head
    rcases mem_cons.mp member with rfl | later
    · exact genuine
    · exact (before token later).1

theorem Token.le_last {last : Token} (found : lastOf tokens = some last) (member : token ∈ tokens)
    (genuine : token.kind ≠ .eof) : token.place ≤ last.place := by
  obtain ⟨before,split⟩ := List.getLast?_eq_some_iff.mp found
  have kept : token ∈ tokens.filter (·.kind != .eof) := mem_filter.mpr ⟨member,by simpa using genuine⟩
  have sorted := ordered.filter (·.kind != .eof)
  rw [split] at kept sorted
  rcases mem_append.mp kept with earlier | same
  · exact ((pairwise_append.mp sorted).2.2 token earlier last (mem_singleton_self last)).2
  · rw [mem_singleton.mp same]
    exact Place.le_refl _

end Ordered

namespace Tree

variable {tree phrase : Tree} {type : String} {fields : Fields}

theorem tokens_child (member : child ∈ tree.children) : child.tokens.Sublist tree.tokens := by
  cases tree with
  | leaf token => cases member
  | error token => cases member
  | node rule start stop children =>
    obtain ⟨before,after,rfl⟩ := append_of_mem (show child ∈ children from member)
    rw [tokens,allTokens_append,allTokens]
    exact (sublist_append_left ..).trans (sublist_append_right ..)

theorem tokens_phrase (inside : phrase ∈ tree.phrases) : phrase.tokens.Sublist tree.tokens := by
  induction tree using by_size with
  | step tree ih =>
    cases tree with
    | leaf token => cases inside
    | error token => cases inside
    | node rule start stop children =>
      rcases mem_cons.mp inside with rfl | below
      · exact .refl _
      · obtain ⟨child,member,deeper⟩ := mem_allPhrases.mp below
        have held : child ∈ (node rule start stop children).children := member
        exact (ih child (size_child held) deeper).trans (tokens_child held)

-- The node stands from one token of the tree to another, and the nodes inside it stand inside.
def Holds (tree : Tree) (node : Fields) : Prop :=
  ∃ first ∈ tree.tokens, ∃ last ∈ tree.tokens, first.kind ≠ .eof ∧ last.kind ≠ .eof ∧ first.place ≤ last.place ∧
    node.StandsAt ⟨first.place,last.place⟩ ∧
    ∀ inner ∈ Value.fieldNodes node, ∃ part, inner.StandsAt part ∧ part.Within ⟨first.place,last.place⟩

theorem Holds.grow (inside : phrase ∈ tree.phrases) {node : Fields} (holds : phrase.Holds node) : tree.Holds node := by
  obtain ⟨first,isFirst,last,isLast,rest⟩ := holds
  have kept := (tokens_phrase inside).subset
  exact ⟨first,kept isFirst,last,kept isLast,rest⟩

theorem Marked.holds (found : tree.rule? = some rule) (marked : tree.Marked)
    (filled : tree.Filled) (ordered : tree.tokens.Pairwise Token.Precedes)
    (free : "loc" ∉ fields.names) (placed : (tree.seen true).place = .ok place)
    (inside : ∀ node ∈ Value.fieldNodes fields, tree.Holds node) :
    tree.Holds (("type",.text type) :: fields ++ place) := by
  cases tree with
  | leaf token => cases found
  | error token => cases found
  | node own start stop children =>
    obtain ⟨token,member,genuine⟩ := filled
    obtain ⟨first,rest,split⟩ := exists_cons_of_ne_nil (ne_nil_of_mem member)
    have head : (node own start stop children).tokens.head? = some first := by rw [split]; rfl
    obtain ⟨last,ending⟩ := Token.lastOf_isSome member genuine
    obtain ⟨isLast,real⟩ := Token.lastOf_mem ending
    have isFirst : first ∈ (node own start stop children).tokens := mem_of_head? head
    cases marked.1 first head
    cases marked.2 last ending
    refine ⟨start,isFirst,last,isLast,Token.first_genuine ordered head member genuine,real,
      Token.first_le ordered head isLast,?_,?_⟩
    · cases placed
      exact Fields.get?_behind free _
    · intro inner below
      rw [Phrase.fieldNodes_made placed] at below
      obtain ⟨one,isOne,two,isTwo,_,proper,_,stands,_⟩ := inside inner below
      exact ⟨_,stands,Token.first_le ordered head isOne,Token.le_last ordered ending isTwo proper⟩

end Tree

namespace Reading

variable {rule : Rule} {text : String}

theorem ofText_leading (clean : (ofText rule text).diagnostics = []) :
    (ofText rule text).tree.tokens <+: (tokens text).filter (!·.kind.isHidden) := by
  obtain ⟨input,tree,final,ahead,ran,result⟩ := ofText_ran rule text
  have closed : Token.Closed input.ahead := ahead ▸ closed_visible text
  rw [result] at clean ⊢
  have quiet : final.diagnostics = [] := reverse_eq_nil_iff.mp (append_eq_nil_iff.mp clean).2
  rw [← ahead]
  change tree.tokens <+: _
  by_cases whole : rule = .sourceUnit
  · subst whole
    have whole := Parse.outcome_whole closed ran quiet
    exact whole ▸ prefix_rfl
  · rw [← Parse.outcome_part closed ran quiet whole]
    exact prefix_append ..

theorem ofText_holds (clean : (ofText rule text).diagnostics = [])
    (means : (ofText rule text).tree.meaning true = .ok value) : value.All (ofText rule text).tree.Holds := by
  have filled : rule = .sourceUnit → (ofText rule text).tree.Filled := by
    rintro rfl
    refine (ofText_filled clean).mpr fun absent => ?_
    rw [ofText_lineless clean absent] at means
    cases means
  have ordered : (ofText rule text).tree.tokens.Pairwise Token.Precedes :=
    ((tokens_ordered text).filter _).sublist (ofText_leading clean).sublist
  let Fine (phrase : Tree) : Prop := phrase ∈ (ofText rule text).tree.phrases
  refine @Tree.nodes_hold Tree.Holds Fine true (fun _ _ inside _ => .grow inside) ?_ _ (fun _ inside => inside) _ means
  intro phrase other found inside type fields place made placed below
  exact Tree.Marked.holds found ((ofText_marked clean).1 phrase inside)
    ((ofText_proper clean).filled filled inside found made) (ordered.sublist (Tree.tokens_phrase inside)) made.free placed
    below

end Reading

-- In a text that is read without complaint every node stands from one token of the text to another that is not before it,
-- and all nodes inside it stand inside.
theorem parse_nested (text start : String) (value : Value) (clean : (parse text start true).2 = [])
    (result : (parse text start true).1 = .ok value) :
    ∀ node ∈ value.nodes, ∃ span, node.StandsAt span ∧ span.start ≤ span.stop ∧
      span.start ∈ (grammarTokens text).map Token.place ∧ span.stop ∈ (grammarTokens text).map Token.place ∧
      ∀ inner ∈ Value.fieldNodes node, ∃ part, inner.StandsAt part ∧ part.Within span := by
  intro node member
  cases known : Rule.ofName? start with
  | none =>
    rw [parse,known] at result
    cases result
  | some rule =>
    rw [parse,known] at clean result
    obtain ⟨first,isFirst,last,isLast,proper,real,before,stands,inside⟩ :=
      Reading.ofText_holds clean result node member
    have seen (token : Token) (taken : token ∈ (Reading.ofText rule text).tree.tokens) (genuine : token.kind ≠ .eof) :
        token.place ∈ (grammarTokens text).map Token.place := by
      obtain ⟨listed,visible⟩ := mem_filter.mp ((Reading.ofText_leading clean).subset taken)
      refine mem_map_of_mem (mem_filter.mpr ⟨listed,?_⟩)
      simpa [genuine] using visible
    exact ⟨_,stands,before,seen first isFirst proper,seen last isLast real,inside⟩

-- The name and the parameters of an error stand inside the error.
theorem bareError_nested : (parse "error E();" "customErrorDefinition" true).2 = [] ∧ ∃ value node inner span part,
    (parse "error E();" "customErrorDefinition" true).1 = .ok value ∧ node ∈ value.nodes ∧
    inner ∈ Value.fieldNodes node ∧ node.StandsAt span ∧ span.start ≤ span.stop ∧ inner.StandsAt part ∧
    part.Within span := by
  obtain ⟨value,result,_,node,member,holds⟩ := bareError_means true
  obtain ⟨inner,below⟩ := exists_mem_of_ne_nil _ holds
  obtain ⟨span,stands,before,_,_,inside⟩ :=
    parse_nested "error E();" "customErrorDefinition" value bareError_clean result node member
  obtain ⟨part,placed,within⟩ := inside inner below
  exact ⟨bareError_clean,value,node,inner,span,part,result,member,below,stands,before,placed,within⟩

end SolReader
