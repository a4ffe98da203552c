import SolReader.Proofs.Ast.Nodes
import SolReader.Proofs.Parse.Loose
import SolReader.Proofs.Token.Respacing

namespace SolReader

open List

theorem map_eq_iff_paired {α β : Type} {change : α → β} {items others : List α} :
    items.map change = others.map change ↔ items.Forall₂ (fun one two => change one = change two) others := by
  rw [← forall₂_eq_eq_eq,forall₂_map_left_iff,forall₂_map_right_iff]

namespace Tree

theorem loose_children (tree : Tree) : tree.loose.children = tree.children.map loose := by
  cases tree with
  | node rule start stop children => rw [loose_node]; rfl
  | _ => rfl

theorem loose_tokens (tree : Tree) : tree.loose.tokens = tree.tokens.map Token.loose := by
  induction tree using by_size with
  | step tree ih =>
    cases tree with
    | leaf token => rfl
    | error token => rfl
    | node rule start stop children =>
      rw [loose_node,tokens,tokens]
      have each : ∀ child ∈ children, child.loose.tokens = child.tokens.map Token.loose :=
        fun child member => ih child (size_child member)
      clear ih
      induction children with
      | nil => rfl
      | cons child children later =>
        obtain ⟨first,others⟩ := forall_mem_cons.mp each
        rw [map_cons,allTokens,allTokens,map_append,first,later others]

theorem loose_text (tree : Tree) : tree.loose.text = tree.text := by
  rw [text,text,loose_tokens,map_map]
  rfl

theorem similar_of_loose {one two : Tree} (same : one.loose = two.loose) : one.Similar two where
  text := by rw [← loose_text,same,loose_text]
  shape := by
    have shapes (tree : Tree) : tree.loose.shape = tree.shape := by
      cases tree <;> rfl
    rw [← shapes,same,shapes]
  kind := by
    have kinds (tree : Tree) : tree.loose.kind? = tree.kind? := by
      cases tree <;> rfl
    rw [← kinds,same,kinds]

end Tree

-- Readings of trees that differ in places only have the same faults.
def Terms.loose : Terms where
  both := True
  faults := Eq
  pieces one two := one.loose = two.loose
  same _ := rfl
  similar := Tree.similar_of_loose
  inner {one two} same := by
    have children := congrArg Tree.children same
    rw [Tree.loose_children,Tree.loose_children] at children
    exact map_eq_iff_paired.mp children

namespace Value

mutual

-- The value with the pieces of the parse tree without their places.
def loose : Value → Value
  | .node fields => .node (looseFields fields)
  | .record fields => .record (looseFields fields)
  | .list items => .list (looseItems items)
  | .tree piece => .tree piece.loose
  | value => value

def looseFields : List (String × Value) → List (String × Value)
  | [] => []
  | (name,value) :: fields => (name,value.loose) :: looseFields fields

def looseItems : List Value → List Value
  | [] => []
  | item :: items => item.loose :: looseItems items

end

theorem looseItems_eq (items : List Value) : looseItems items = items.map loose := by
  induction items with
  | nil => rfl
  | cons item items ih => rw [looseItems,ih,map_cons]

theorem get?_looseFields (fields : Fields) (name : String) :
    Fields.get? (looseFields fields) name = (Fields.get? fields name).map loose := by
  induction fields with
  | nil => rfl
  | cons field fields ih =>
    obtain ⟨own,value⟩ := field
    rw [looseFields,Fields.get?,Fields.get?,lookup_cons,lookup_cons]
    cases name == own with
    | true => rfl
    | false => exact ih

theorem shape_loose (value : Value) : value.loose.shape = value.shape := by
  cases value with
  | tree piece => cases piece <;> rfl
  | _ => rfl

theorem congruent_loose : Congruent fun one two => one.loose = two.loose where
  null := rfl
  bool _ := rfl
  text _ := rfl
  record _ := rfl
  list {values others} paired := by
    rw [loose,loose,looseItems_eq,looseItems_eq]
    exact congrArg list (map_eq_iff_paired.mpr paired)
  null_iff {value other} pair := by
    cases value <;> cases other <;> simp [loose] at pair ⊢
  text_iff {value other} pair content := by
    cases value <;> cases other <;> simp [loose] at pair ⊢
    rw [pair]
  shape {value other} pair := by rw [← shape_loose,pair,shape_loose]
  nodes {value other} pair := by
    cases value with
    | node fields =>
      cases other with
      | node others =>
        refine .inl ⟨fields,others,rfl,rfl,?_⟩
        intro name _
        have found : Fields.get? (looseFields fields) name = Fields.get? (looseFields others) name := by
          rw [node.inj pair]
        rw [get?_looseFields,get?_looseFields] at found
        generalize Fields.get? fields name = one at found ⊢
        generalize Fields.get? others name = two at found ⊢
        cases one <;> cases two <;> simp at found ⊢
        exact found
      | _ => cases pair
    | _ =>
      refine .inr ⟨nofun,?_⟩
      rintro others rfl
      cases pair

end Value

theorem Value.looseFields_eq {fields : Fields}
    (same : fields.Forall₂ (fun one two => one.1 = two.1 ∧ one.2.loose = two.2.loose) others) :
    looseFields fields = looseFields others := by
  induction same with
  | nil => rfl
  | cons pair _ ih => rw [looseFields,looseFields,ih,pair.1,pair.2]

-- Trees that differ in places only mean the same, or have the same fault.
theorem Tree.meaning_loose {one two : Tree} (same : one.loose = two.loose) :
    (one.meaning false).map Value.loose = (two.meaning false).map Value.loose := by
  let related (_ : Tree) (value other : Value) : Prop := value.loose = other.loose
  have tied : Tied .loose (related one) (one.meaning false) (two.meaning false) := by
    refine meaning_tied (fun _ => Value.congruent_loose) (fun _ _ _ _ _ => id) ?_ same (fun _ _ => trivial)
    intro tree piece rule pair found _ type fields others made same
    have values := same.values fun {tree piece} (pair : tree.loose = piece.loose) => congrArg Value.tree pair
    refine .ok (congrArg Value.node ?_)
    rw [Value.looseFields,Value.looseFields,Value.looseFields_eq values]
  cases first : one.meaning false with
  | ok value =>
    obtain ⟨other,second,pair⟩ := tied.forth value first
    rw [second]
    exact congrArg Except.ok pair
  | error fault =>
    cases second : two.meaning false with
    | ok other =>
      obtain ⟨value,impossible,_⟩ := tied.back trivial other second
      rw [first] at impossible
      cases impossible
    | error other => exact congrArg Except.error (tied.faulty trivial fault other first second)

section Layout

variable {text other : String}

-- After any number of edits the text has the same tokens for the grammar.
theorem words_edited (clean : unreadRegions text = []) (edits : Relation.ReflTransGen Respaced text other) :
    words other.toList = words text.toList := by
  induction edits with
  | refl => rfl
  | tail _ edit ih =>
    have readable := unread_words.mpr (ih ▸ unread_words.mp clean)
    rw [edit.words_eq readable,ih]

theorem reading_loose (rule : Rule) (same : words other.toList = words text.toList) :
    (Reading.ofText rule other).tree.loose = (Reading.ofText rule text).tree.loose := by
  have tokens : ((tokens other).filter (!·.kind.isHidden)).map Token.word =
      ((tokens text).filter (!·.kind.isHidden)).map Token.word := by
    rw [← words_tokens,same,words_tokens]
  have read (pieces : List Piece) (result : Tree × Parse × Bool) : (Reading.ofOutcome pieces result).tree = result.1 := rfl
  have loosened (tokens : List Token) : tokens.map Token.loose =
      (tokens.map Token.word).map fun word => ⟨word.1,word.2,.start,0,0⟩ := by
    rw [map_map]
    rfl
  rw [Reading.ofText,Reading.ofText,Reading.resumed,Reading.resumed]
  generalize (SolReader.tokens other).filter (!·.kind.isHidden) = first at tokens ⊢
  generalize (SolReader.tokens text).filter (!·.kind.isHidden) = second at tokens ⊢
  cases first with
  | nil =>
    cases second with
    | nil => rfl
    | cons token others => cases tokens
  | cons current later =>
    cases second with
    | nil => cases tokens
    | cons token others =>
      have same : Input.loose ⟨current,later⟩ = Input.loose ⟨token,others⟩ := by
        have all := loosened (current :: later)
        rw [tokens,← loosened,map_cons,map_cons,List.cons.injEq] at all
        rw [Input.loose,Input.loose,all.1,all.2]
      dsimp only
      rw [read,read]
      exact Parse.outcome_loose rule same

theorem parse_layout (clean : unreadRegions text = []) (edits : Relation.ReflTransGen Respaced text other) :
    unreadRegions other = [] ∧
      ((tokens other).filter (!·.kind.isHidden)).map Token.word =
        ((tokens text).filter (!·.kind.isHidden)).map Token.word ∧
      ∀ start, (parse other start false).1.map Value.loose = (parse text start false).1.map Value.loose := by
  have same := words_edited clean edits
  refine ⟨unread_words.mpr (same ▸ unread_words.mp clean),by rw [← words_tokens,same,words_tokens],?_⟩
  intro start
  rw [parse,parse]
  cases Rule.ofName? start with
  | none => rfl
  | some rule => exact Tree.meaning_loose (reading_loose rule same)

-- A comment before an operator is taken out, and then the comment behind it moves away.
def packed : String := "x/*y*/=//z\r1"

def uncommented : String := "x\n=//z\r1"

def spaced : String := "x\n=\t //z\r1"

set_option maxRecDepth 100000 in
theorem packed_spaced : Relation.ReflTransGen Respaced packed spaced := by
  have first : Respaced packed uncommented :=
    @Respaced.uncomment packed ['x'] "=//z\r1".toList ['\n'] ⟨.blockComment,"/*y*/",⟨1,1⟩,1,5⟩ (by decide +kernel) rfl rfl
      (by decide) (by decide) (by decide)
  have second : Respaced uncommented spaced :=
    @Respaced.space uncommented "x\n=".toList "//z\r1".toList ['\t',' '] (by decide) (by decide +kernel) (by decide)
  exact .tail (.single first) second

theorem parse_packed : unreadRegions packed = [] ∧ Relation.ReflTransGen Respaced packed spaced ∧
    (unreadRegions spaced = [] ∧
      ((tokens spaced).filter (!·.kind.isHidden)).map Token.word =
        ((tokens packed).filter (!·.kind.isHidden)).map Token.word ∧
      ∀ start, (parse spaced start false).1.map Value.loose = (parse packed start false).1.map Value.loose) := by
  have clean : unreadRegions packed = [] := by decide +kernel
  exact ⟨clean,packed_spaced,parse_layout clean packed_spaced⟩

end Layout

end SolReader
