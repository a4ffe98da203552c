import SolReader.Proofs.Ast.Faults
import SolReader.Proofs.Ast.Nodes
import SolReader.Proofs.Parse.Span

namespace SolReader

open List

variable {rule : Rule}

namespace Value

mutual

-- The value without the places of its nodes.
def unplaced : Value → Value
  | .node fields => .node (unplacedFields fields)
  | .record entries => .record (unplacedEntries entries)
  | .list items => .list (unplacedItems items)
  | value => value

def unplacedFields : List (String × Value) → List (String × Value)
  | [] => []
  | (name,value) :: fields =>
    if name = "loc" then unplacedFields fields else (name,value.unplaced) :: unplacedFields fields

def unplacedEntries : List (String × Value) → List (String × Value)
  | [] => []
  | (name,value) :: entries => (name,value.unplaced) :: unplacedEntries entries

def unplacedItems : List Value → List Value
  | [] => []
  | item :: items => item.unplaced :: unplacedItems items

end

-- A value and the same value without places.
def Bare (value other : Value) : Prop :=
  value.unplaced = other

theorem unplaced_simple {value : Value} (simple : value.isSimple = true) : value.unplaced = value := by
  cases value <;> first | rfl | cases simple

theorem unplacedEntries_simple (simple : ∀ entry ∈ entries, entry.2.isSimple = true) :
    unplacedEntries entries = entries := by
  induction entries with
  | nil => rfl
  | cons entry entries ih =>
    obtain ⟨first,others⟩ := forall_mem_cons.mp simple
    rw [unplacedEntries,unplaced_simple first,ih others]

theorem unplacedItems_eq {items : List Value} (paired : items.Forall₂ Bare others) : unplacedItems items = others := by
  induction paired with
  | nil => rfl
  | cons first _ ih => rw [unplacedItems,ih,show _ = _ from first]

theorem unplacedFields_append (fields others : Fields) :
    unplacedFields (fields ++ others) = unplacedFields fields ++ unplacedFields others := by
  induction fields with
  | nil => rfl
  | cons field fields ih =>
    rw [cons_append,unplacedFields,unplacedFields,ih]
    split
    · rfl
    · rfl

theorem unplacedFields_eq {fields : Fields}
    (same : fields.Forall₂ (fun one two => one.1 = two.1 ∧ Bare one.2 two.2) others) (free : "loc" ∉ fields.names) :
    unplacedFields fields = others := by
  induction same with
  | nil => rfl
  | @cons field other fields others pair _ ih =>
    obtain ⟨own,rest⟩ := not_or.mp (mem_cons.not.mp free)
    rw [unplacedFields,if_neg (Ne.symm own),ih rest,show _ = _ from pair.2,pair.1]

theorem get?_unplacedFields (fields : Fields) (other : name ≠ "loc") :
    Option.Rel Bare (Fields.get? fields name) (Fields.get? (unplacedFields fields) name) := by
  induction fields with
  | nil => exact .none
  | cons field fields ih =>
    obtain ⟨own,value⟩ := field
    by_cases asked : name = own
    · subst asked
      rw [unplacedFields,if_neg other,Fields.get?,Fields.get?,lookup_cons_self,lookup_cons_self]
      exact .some (show Bare _ _ from rfl)
    · have skip (value : Value) (rest : Fields) : Fields.get? ((own,value) :: rest) name = Fields.get? rest name := by
        rw [Fields.get?,lookup_cons,beq_false_of_ne asked]
        rfl
      rw [unplacedFields,skip]
      split
      · exact ih
      · rwa [skip]

theorem congruent_bare : Congruent Bare where
  null := rfl
  bool _ := rfl
  text _ := rfl
  record simple := congrArg record (unplacedEntries_simple simple)
  list paired := congrArg list (unplacedItems_eq paired)
  null_iff {value other} pair := by
    rw [← show _ = other from pair]
    cases value <;> simp [unplaced]
  text_iff {value other} pair _ := by
    rw [← show _ = other from pair]
    cases value <;> simp [unplaced]
  shape {value other} pair := by
    rw [← show _ = other from pair]
    cases value <;> rfl
  nodes {value other} pair := by
    rw [← show _ = other from pair]
    cases value with
    | node fields =>
      refine .inl ⟨fields,_,rfl,rfl,fun name other => get?_unplacedFields fields ?_⟩
      exact fun same => other (same ▸ mem_cons_self)
    | _ => exact .inr ⟨by rintro _ ⟨⟩,by rintro _ ⟨⟩⟩

end Value

theorem Rule.makes_checked :
    ∀ rule : Rule, (rule.makes.all fun made => !made.2.contains "loc") = true := by
  decide

theorem Made.free (made : Made phrase rule type fields) : "loc" ∉ fields.names := by
  have checked := all_eq_true.mp (Rule.makes_checked rule) _ made.listed
  simpa using checked

theorem Fields.get?_behind {fields : Fields} (free : "loc" ∉ fields.names) (place : Fields) :
    Fields.get? (("type",.text type) :: fields ++ place) "loc" = Fields.get? place "loc" := by
  have missing : Fields.get? fields "loc" = none := by
    cases found : Fields.get? fields "loc" with
    | none => rfl
    | some other => exact absurd (mem_map_of_mem (f := Prod.fst) (Fields.mem_of_get? found)) free
  rw [Fields.get?] at missing ⊢
  simp [lookup_cons,lookup_append,missing,Fields.get?]

namespace Tree

-- Every phrase that makes a node stands somewhere.
def Placeable (tree : Tree) : Prop :=
  ∀ phrase ∈ tree.phrases, ∀ {rule type fields}, phrase.rule? = some rule →
    Made (phrase.seen true) rule type fields → ∃ place, Phrase.location phrase = .ok place

theorem meaning_bare (tree : Tree) : Tied (.ofTree tree.Placeable) Value.Bare (tree.meaning true) (tree.meaning false) := by
  let Fine (phrase : Tree) : Prop := tree.Placeable → ∀ {rule type fields}, phrase.rule? = some rule →
    Made (phrase.seen true) rule type fields → ∃ place, Phrase.location phrase = .ok place
  have fine : ∀ phrase ∈ tree.phrases, Fine phrase := fun phrase inside placeable => placeable phrase inside
  refine meaning_tied (fun _ => Value.congruent_bare) (fun _ _ _ _ _ => id) ?_ rfl fine
  rintro phrase _ rule rfl found good type fields others made same
  have values := same.values fun {tree piece} (pair : tree = piece) => congrArg Value.tree pair
  have without : (phrase.seen false).node type others = .ok (.node (("type",.text type) :: others)) := rfl
  rw [without,Phrase.node_eq,Phrase.place,if_pos (show (phrase.seen true).located = true from rfl)]
  change Tied _ _ ((Phrase.location phrase >>= fun place => .ok [("loc",place)]) >>= _) _
  cases located : Phrase.location phrase with
  | error fault =>
    refine ⟨by rintro _ ⟨⟩,fun placeable => ?_,fun _ _ _ _ _ => trivial⟩
    obtain ⟨place,impossible⟩ := good placeable found made
    rw [located] at impossible
    cases impossible
  | ok place =>
    refine .ok (congrArg Value.node ?_)
    rw [Value.unplacedFields_append,Value.unplacedFields,if_neg (by decide),Value.unplacedFields_eq values made.free]
    simp [Value.unplacedFields,Value.unplaced]

end Tree

-- The rules whose phrases may have no tokens, or none but the end of the text.
def Rule.mayBeEmpty : Rule → Bool
  | .sourceUnit | .modifierList | .variableDeclarationList | .functionCallArguments => true
  | _ => false

def Member.isSolid : Member → Bool
  | .token kind => kind != .eof
  | .phrase rule => !rule.mayBeEmpty

theorem Rule.solid_checked :
    ∀ rule : Rule, (rule.mayBeEmpty || decide (0 < rule.least Member.isSolid)) = true := by
  decide

theorem Rule.least_solid (solid : rule.mayBeEmpty = false) : 0 < rule.least Member.isSolid := by
  simpa [solid] using Rule.solid_checked rule

theorem Rule.whole_checked : ∀ rule : Rule, (rule.most (Member.isPhrase .sourceUnit) == some 0) = true := by
  decide

namespace Tree

variable {tree phrase : Tree} {rule : Rule}

-- There is a token below other than the end of the text.
def Filled (tree : Tree) : Prop :=
  ∃ token ∈ tree.tokens, token.kind ≠ .eof

section Filled

variable {rule : Rule} {level : Nat} {tree child : Tree}

theorem Derives.filled_of_child (derives : Derives rule level tree)
    (smaller : ∀ small, sizeOf small < sizeOf tree → ∀ {other bound}, Derives other bound small →
      other.mayBeEmpty = false → small.Filled)
    (member : child ∈ tree.children) (solid : child.member.isSolid = true) : tree.Filled := by
  have filled : child.Filled := by
    cases derives with
    | node listed spells =>
      rcases spells.child member with ⟨token,rfl⟩ | ⟨other,bound,derived⟩
      · exact ⟨token,mem_singleton_self token,by simpa [Tree.member,Member.isSolid] using solid⟩
      · rw [Form.Derives.member_eq derived] at solid
        exact smaller child (size_child member) derived (by simpa [Member.isSolid] using solid)
  obtain ⟨token,inside,genuine⟩ := filled
  exact ⟨token,mem_tokens_of_child member inside,genuine⟩

theorem Derives.filled (derives : Derives rule level tree) (solid : rule.mayBeEmpty = false) : tree.Filled := by
  induction tree using by_size generalizing rule level with
  | step tree ih =>
    obtain ⟨child,member,counted⟩ := derives.child_of_least (Rule.least_solid solid)
    exact derives.filled_of_child (fun small smaller _ _ => ih small smaller) member counted

theorem Derives.filled_list (derives : Derives .variableDeclarationList level tree) (filled : tree.children ≠ []) :
    tree.Filled := by
  obtain ⟨child,member⟩ := exists_mem_of_ne_nil _ filled
  have never : Rule.variableDeclarationList.most (fun member => !member.isSolid) = Option.some 0 := by decide
  have solid : child.member.isSolid = true := by simpa using derives.not_counted never member
  exact derives.filled_of_child (fun _ _ _ _ => Derives.filled) member solid

theorem Derives.whole_empty (derives : Derives .sourceUnit level tree) (empty : ¬ tree.Filled) :
    ∃ token, tree.children = [.leaf token] := by
  have once : Rule.sourceUnit.most (fun member => !member.isSolid) = some 1 := by decide
  have few := derives.le_most once
  have hollow : ∀ child ∈ tree.children, child.member.isSolid = false := fun child member =>
    Bool.eq_false_iff.mpr fun solid =>
      empty (derives.filled_of_child (fun _ _ _ _ => Derives.filled) member solid)
  have all : (tree.children.countP fun child => !child.member.isSolid) = tree.children.length :=
    countP_eq_length.mpr fun child member => by rw [hollow child member]; rfl
  cases derives with
  | @node _ _ _ _ _ variant listed spells =>
    obtain ⟨before,last,rfl,_⟩ := Parse.spells_end variant (Parse.whole_ends variant listed) spells
    rw [all] at few
    have nothing : before = [] := by simpa [Tree.children] using few
    exact ⟨last,by rw [nothing]; rfl⟩

end Filled

theorem Marked.stands (marked : tree.Marked) (filled : tree.Filled) : ∃ place, Phrase.location tree = .ok place := by
  obtain ⟨token,member,genuine⟩ := filled
  cases tree with
  | leaf token => exact ⟨_,rfl⟩
  | error token => exact ⟨_,rfl⟩
  | node rule start stop children =>
    obtain ⟨last,found⟩ := Token.lastOf_isSome member genuine
    rw [marked.2 last found]
    exact ⟨_,rfl⟩

theorem phrases_parent (inside : phrase ∈ tree.phrases) :
    phrase = tree ∨ ∃ parent ∈ tree.phrases, phrase ∈ parent.children := by
  induction tree using by_size with
  | step tree ih =>
    cases tree with
    | leaf token => cases inside
    | error token => cases inside
    | node rule start stop children =>
      rcases mem_cons.mp inside with same | below
      · exact .inl same
      · obtain ⟨child,member,deeper⟩ := mem_allPhrases.mp below
        rcases ih child (size_child member) deeper with rfl | ⟨parent,higher,held⟩
        · exact .inr ⟨_,mem_cons_self,member⟩
        · exact .inr ⟨parent,phrases_child member higher,held⟩

theorem Proper.whole (proper : tree.Proper rule) (inside : phrase ∈ tree.phrases)
    (found : phrase.rule? = some .sourceUnit) : phrase = tree := by
  rcases phrases_parent inside with same | ⟨parent,higher,held⟩
  · exact same
  · obtain ⟨other,⟨_,derives⟩,_⟩ := proper.phrases higher
    have never := beq_iff_eq.mp (Rule.whole_checked other)
    have counted := derives.not_counted never held
    rw [Bool.eq_false_iff] at counted
    exact absurd (isPhrase_member.mpr found) counted

theorem Proper.filled (proper : tree.Proper rule) (filled : rule = .sourceUnit → tree.Filled)
    (inside : phrase ∈ tree.phrases) (found : phrase.rule? = some other)
    (made : Made (phrase.seen true) other type fields) : phrase.Filled := by
  obtain ⟨own,inner⟩ := proper.phrases inside
  cases inner.same found
  obtain ⟨level,derives⟩ := inner.derives
  cases solid : other.mayBeEmpty with
  | false => exact derives.filled solid
  | true =>
    cases other with
    | sourceUnit =>
      cases proper.whole inside found
      exact filled (proper.same found)
    | modifierList => cases made.listed
    | functionCallArguments => cases made.listed
    | variableDeclarationList =>
      refine derives.filled_list fun absent => made.filled rfl ?_
      rw [seen,absent]
      rfl
    | _ => cases solid

end Tree

namespace Reading

variable {rule : Rule} {text : String}

theorem ofText_marked (clean : (ofText rule text).diagnostics = []) :
    (ofText rule text).tree.AllMarked ∧
      ∃ start children, (ofText rule text).tree = .node rule start (Token.lastOf (ofText rule text).tree.tokens) children := by
  obtain ⟨input,tree,final,ahead,ran,result⟩ := ofText_ran rule text
  have closed : Token.Closed input.ahead := ahead ▸ closed_visible text
  rw [result] at clean ⊢
  have quiet : final.diagnostics = [] := reverse_eq_nil_iff.mp (append_eq_nil_iff.mp clean).2
  obtain ⟨marked,whole⟩ := Parse.outcome_marked closed ran quiet
  obtain ⟨_,_,_,root,_⟩ := Parse.outcome_last closed ran quiet
  refine ⟨marked,final.frame.start,final.frame.built.reverse,?_⟩
  rw [← root]
  exact whole

theorem ofText_filled (clean : (ofText .sourceUnit text).diagnostics = []) :
    (ofText .sourceUnit text).tree.Filled ↔ grammarTokens text ≠ [] := by
  obtain ⟨input,tree,final,ahead,ran,result⟩ := ofText_ran .sourceUnit text
  have closed : Token.Closed input.ahead := ahead ▸ closed_visible text
  rw [result] at clean ⊢
  have quiet : final.diagnostics = [] := reverse_eq_nil_iff.mp (append_eq_nil_iff.mp clean).2
  have tokens : tree.tokens = _ := (Parse.outcome_whole closed ran quiet).trans ahead
  change tree.Filled ↔ _
  rw [Tree.Filled,tokens,grammarTokens,Ne,filter_eq_nil_iff]
  simp [and_assoc]

theorem ofText_lineless (clean : (ofText .sourceUnit text).diagnostics = []) (absent : grammarTokens text = []) :
    (ofText .sourceUnit text).tree.meaning true = .error (.noPart .nothing "line") := by
  have empty : ¬ (ofText .sourceUnit text).tree.Filled := fun filled => (ofText_filled clean).mp filled absent
  obtain ⟨level,derives⟩ := (ofText_proper clean).derives
  obtain ⟨token,only⟩ := derives.whole_empty empty
  obtain ⟨start,children,root⟩ := (ofText_marked clean).2
  have stopless : Token.lastOf (ofText .sourceUnit text).tree.tokens = Option.none := by
    refine Option.eq_none_iff_forall_ne_some.mpr fun last found => empty ?_
    exact ⟨last,Token.lastOf_mem found⟩
  rw [stopless] at root
  rw [root] at only ⊢
  cases (show children = [.leaf token] from only)
  rfl

theorem ofText_placeable (clean : (ofText rule text).diagnostics = [])
    (filled : rule = .sourceUnit → (ofText rule text).tree.Filled) : (ofText rule text).tree.Placeable :=
  fun phrase inside _ _ _ found made =>
    ((ofText_marked clean).1 phrase inside).stands ((ofText_proper clean).filled filled inside found made)

theorem phrase_means (clean : (ofText rule text).diagnostics = [])
    (inside : phrase ∈ (ofText rule text).tree.phrases) (found : phrase.rule? = some own)
    (named : own ≠ .eventParameter) (inner : own ≠ .sourceUnit) (clear : phrase.clear = true) (located : Bool) :
    ∃ value, phrase.meaning located = .ok value := by
  obtain ⟨_,proper⟩ := (ofText_proper clean).phrases inside
  cases proper.same found
  obtain ⟨value,means⟩ := (proper.meaning_hinges named).result clear
  cases located with
  | false => exact ⟨value,means⟩
  | true =>
    have placeable : phrase.Placeable := fun deeper below _ _ _ isRule made =>
      ((ofText_marked clean).1 deeper (Tree.phrases_trans inside below)).stands
        (proper.filled (fun whole => absurd whole inner) below isRule made)
    obtain ⟨placed,means,_⟩ := phrase.meaning_bare.back placeable value means
    exact ⟨placed,means⟩

end Reading

theorem Rule.ofName_whole (known : Rule.ofName? start = some rule) : rule = .sourceUnit ↔ start = "sourceUnit" := by
  constructor
  · rintro rfl
    have named := List.find?_some (show Rule.all.find? (·.name == start) = some .sourceUnit from known)
    exact (beq_iff_eq.mp named).symm
  · rintro rfl
    have named : Rule.ofName? "sourceUnit" = some .sourceUnit := by decide
    exact Option.some.inj (known.symm.trans named)

-- Asking for places changes nothing but that the places are there.  Where a text is read without complaint and has an
-- abstract tree, it has one with places too, unless it is a whole source without tokens.
theorem parse_unplaced (text start : String) :
    (∀ value, (parse text start true).1 = .ok value → (parse text start false).1 = .ok value.unplaced) ∧
    ((parse text start false).2 = [] → ∀ value, (parse text start false).1 = .ok value →
      ((∃ placed, (parse text start true).1 = .ok placed) ↔ ¬ (start = "sourceUnit" ∧ grammarTokens text = [])) ∧
      (start = "sourceUnit" ∧ grammarTokens text = [] →
        (parse text start true).1 = .error (.noPart .nothing "line"))) := by
  cases known : Rule.ofName? start with
  | none =>
    have refused (located : Bool) : (parse text start located).1 = .error (.unknownRule start) := by rw [parse,known]
    simp [refused]
  | some rule =>
    have whole (located : Bool) : parse text start located =
        ((Reading.ofText rule text).tree.meaning located,(Reading.ofText rule text).diagnostics) := by
      rw [parse,known]
    rw [whole,whole]
    have tied := (Reading.ofText rule text).tree.meaning_bare
    refine ⟨fun value placed => ?_,fun clean value result => ?_⟩
    · obtain ⟨other,result,bare⟩ := tied.forth value placed
      rw [result,← show _ = other from bare]
    · have lineless (blank : start = "sourceUnit" ∧ grammarTokens text = []) :
          (Reading.ofText rule text).tree.meaning true = .error (.noPart .nothing "line") := by
        cases (Rule.ofName_whole known).mpr blank.1
        exact Reading.ofText_lineless clean blank.2
      refine ⟨⟨?_,fun other => ?_⟩,lineless⟩
      · rintro ⟨placed,found⟩ blank
        rw [lineless blank] at found
        cases found
      · have filled : rule = .sourceUnit → (Reading.ofText rule text).tree.Filled := by
          rintro rfl
          exact (Reading.ofText_filled clean).mpr fun absent => other ⟨(Rule.ofName_whole known).mp rfl,absent⟩
        obtain ⟨placed,found,_⟩ := tied.back (Reading.ofText_placeable clean filled) value result
        exact ⟨placed,found⟩

set_option maxRecDepth 100000 in
theorem bareError_read : ∀ located, reads (fun value => value.nodes.length == 3 &&
    value.nodes.any fun node => !(Value.fieldNodes node).isEmpty) "error E();" "customErrorDefinition" located = true := by
  decide +kernel

theorem bareError_clean : (parse "error E();" "customErrorDefinition" false).2 = [] := by
  obtain ⟨_,parsed,_⟩ := reads_ok (bareError_read false)
  rw [parsed]

-- The node of an error holds two further nodes, one for its name and one for its parameters.
theorem bareError_means (located : Bool) : ∃ value, (parse "error E();" "customErrorDefinition" located).1 = .ok value ∧
    value.nodes.length = 3 ∧ ∃ node ∈ value.nodes, Value.fieldNodes node ≠ [] := by
  obtain ⟨value,parsed,tested⟩ := reads_ok (bareError_read located)
  rw [Bool.and_eq_true,beq_iff_eq,any_eq_true] at tested
  obtain ⟨count,node,member,holds⟩ := tested
  exact ⟨value,by rw [parsed],count,node,member,fun absent => by simp [absent] at holds⟩

-- An error is read the same way with the places of its nodes and without.
theorem bareError_unplaced : (parse "error E();" "customErrorDefinition" false).2 = [] ∧ ∃ value placed,
    (parse "error E();" "customErrorDefinition" false).1 = .ok value ∧ value.nodes.length = 3 ∧
    (parse "error E();" "customErrorDefinition" true).1 = .ok placed ∧ placed.unplaced = value := by
  obtain ⟨value,result,count,_⟩ := bareError_means false
  have same := parse_unplaced "error E();" "customErrorDefinition"
  obtain ⟨placed,found⟩ := (same.2 bareError_clean value result).1.mpr fun whole => by simp at whole
  exact ⟨bareError_clean,value,placed,result,count,found,Except.ok.inj ((same.1 placed found).symm.trans result)⟩

end SolReader
