import SolReader.Proofs.Ast.Locations
import SolReader.Proofs.Ast.Shapes

namespace SolReader

open List Bool

variable {field : String × Value} {phrase : SolReader.Phrase} {rule : Rule}

namespace Value

mutual

-- Made of nodes, records, lists, texts, truth values and nothing.  The fields of a node that are spared may hold anything.
def isPlain (spared : Fields → String × Value → Bool) : Value → Bool
  | .null | .bool _ | .text _ => true
  | .number _ | .tree _ => false
  | .list items => arePlain spared items
  | .record fields => holdPlain spared (fun _ => false) fields
  | .node fields => holdPlain spared (spared fields) fields

def holdPlain (spared : Fields → String × Value → Bool) (apart : String × Value → Bool) : List (String × Value) → Bool
  | [] => true
  | (name,value) :: fields => (apart (name,value) || value.isPlain spared) && holdPlain spared apart fields

def arePlain (spared : Fields → String × Value → Bool) : List Value → Bool
  | [] => true
  | item :: items => item.isPlain spared && arePlain spared items

end

-- The lines and columns of the first and the last token.
def isLocation : Value → Bool
  | .record [("start",.record [("line",.number _),("column",.number _)]),
      ("end",.record [("line",.number _),("column",.number _)])] => true
  | _ => false

end Value

-- The place of a node, and the pieces of the parse tree that a variable may hold.
def Fields.spared (node : Fields) (field : String × Value) : Bool :=
  (field.1 == "loc" && field.2.isLocation) || (Value.isOf ["VariableDeclaration"] node && Fields.pieces.contains field.1)

namespace Value

variable {spared : Fields → String × Value → Bool}

theorem holdPlain_iff {apart : String × Value → Bool} :
    holdPlain spared apart fields = true ↔ ∀ field ∈ fields, apart field = true ∨ field.2.isPlain spared = true := by
  induction fields with
  | nil => simp [holdPlain]
  | cons field fields ih => simp [holdPlain,ih]

theorem arePlain_iff : arePlain spared items = true ↔ ∀ item ∈ items, item.isPlain spared = true := by
  induction items with
  | nil => simp [arePlain]
  | cons item items ih => simp [arePlain,ih]

theorem plain_node : (node fields).isPlain spared = true ↔
    ∀ field ∈ fields, spared fields field = true ∨ field.2.isPlain spared = true := by
  rw [isPlain,holdPlain_iff]

theorem plain_simple {value : Value} (simple : value.isSimple = true) : value.isPlain spared = true := by
  cases value <;> first | rfl | cases simple

theorem inherent_plain (few : ∀ node field, spared node field = true → field.1 ∈ Fields.special) :
    Inherent fun value => value.isPlain spared = true where
  null := rfl
  bool _ := rfl
  text _ := rfl
  record simple := by
    rw [isPlain,holdPlain_iff]
    exact fun field member => .inr (plain_simple (simple field member))
  list each := by
    rw [isPlain,arePlain_iff]
    exact each
  field whole _ ordinary _ found :=
    (plain_node.mp whole _ (Fields.mem_of_get? found)).resolve_left fun apart => ordinary (few _ _ apart)

end Value

theorem Fields.spared_special {node : Fields} (spared : node.spared field = true) : field.1 ∈ Fields.special := by
  simp only [Fields.spared,or_eq_true,and_eq_true,beq_iff_eq,contains_eq_mem,decide_eq_true_eq] at spared
  rcases spared with ⟨place,_⟩ | ⟨_,piece⟩
  · rw [place]
    exact mem_cons_self
  · exact mem_cons_of_mem _ piece

theorem Rule.pieces_checked : ∀ rule : Rule, (rule.makes.all fun made =>
    made.1 == "VariableDeclaration" || Fields.pieces.all fun name => !made.2.contains name) = true := by
  decide

theorem Made.declares (made : Made phrase rule type fields)
    (member : field ∈ fields) (piece : field.1 ∈ Fields.pieces) : type = "VariableDeclaration" := by
  have checked := all_eq_true.mp (Rule.pieces_checked rule) _ made.listed
  rw [or_eq_true] at checked
  rcases checked with same | lacking
  · exact beq_iff_eq.mp same
  · have absent := all_eq_true.mp lacking _ piece
    have present : field.1 ∈ fields.names := mem_map_of_mem member
    simp [present] at absent

theorem Phrase.place_located (found : phrase.tree.rule? = some rule) {place : Fields}
    (placed : phrase.place = .ok place) :
    (phrase.located = true ∧ ∃ location, place = [("loc",location)] ∧ location.isLocation = true) ∨
      (phrase.located = false ∧ place = []) := by
  rw [Phrase.place] at placed
  split at placed
  · rename_i wanted
    cases tree : phrase.tree with
    | leaf token | error token => rw [tree] at found; cases found
    | node rule start stop children =>
      rw [tree] at placed
      cases stop with
      | none => cases placed
      | some stop =>
        cases placed
        exact .inl ⟨wanted,_,rfl,rfl⟩
  · rename_i unwanted
    cases placed
    exact .inr ⟨Bool.eq_false_iff.mpr unwanted,rfl⟩

theorem Tree.meaning_plain {tree : Tree} (means : tree.meaning located = .ok value) :
    value.isPlain Fields.spared = true := by
  let Plain (_ : Tree) (value : Value) : Prop := value.isPlain Fields.spared = true
  refine @Tree.meaning_holds Plain (fun _ => True) located
    (fun _ => Value.inherent_plain fun _ _ => Fields.spared_special) (fun _ _ _ _ => id) ?_ tree (fun _ _ => trivial) value
    means
  intro tree rule found _ type fields place made placed each
  rw [show Plain tree _ ↔ _ from Value.plain_node,cons_append,forall_mem_cons,forall_mem_append]
  refine ⟨.inr rfl,fun field member => ?_,fun field member => .inl ?_⟩
  · rcases each field member with plain | ⟨piece,_⟩
    · exact .inr plain
    · left
      have isVariable : Value.isOf ["VariableDeclaration"] (("type",.text type) :: (fields ++ place)) = true := by
        rw [made.declares member piece]
        rfl
      have listed : Fields.pieces.contains field.1 = true := contains_iff_mem.mpr piece
      rw [Fields.spared,isVariable,listed]
      exact or_true _
  · rcases Phrase.place_located found placed with ⟨_,location,rfl,shaped⟩ | ⟨_,rfl⟩
    · rw [mem_singleton.mp member]
      simp [Fields.spared,shaped]
    · cases member

-- Every node has its place if locations are asked for, and none has one otherwise.
theorem Tree.meaning_placed {tree : Tree} (means : tree.meaning located = .ok value) : ∀ node ∈ value.nodes,
    (Fields.get? node "loc").map Value.isLocation = if located then some true else none := by
  let Placed (_ : Tree) (node : Fields) : Prop :=
    (Fields.get? node "loc").map Value.isLocation = if located then some true else none
  refine @Tree.nodes_hold Placed (fun _ => True) located (fun _ _ _ _ => id) ?_ tree (fun _ _ => trivial) value means
  intro tree rule found _ type fields place made placed _
  change (Fields.get? _ "loc").map _ = _
  rw [Fields.get?_behind made.free]
  rcases Phrase.place_located found placed with ⟨wanted,location,rfl,shaped⟩ | ⟨unwanted,rfl⟩
  · cases (wanted : located = true)
    simp [Fields.get?,shaped]
  · cases (unwanted : located = false)
    rfl

-- Whatever the text, numbers stand only in the places of nodes, and every node has its place if locations are asked for.
theorem parse_plain {text start : String} {located : Bool} {value : Value} {diagnostics : List Diagnostic}
    (parsed : parse text start located = (.ok value,diagnostics)) :
    value.isPlain Fields.spared = true ∧ ∀ node ∈ value.nodes,
      (Fields.get? node "loc").map Value.isLocation = if located then some true else none := by
  obtain ⟨rule,_,means,_⟩ := parse_ok parsed
  exact ⟨Tree.meaning_plain means,Tree.meaning_placed means⟩

set_option maxRecDepth 100000 in
-- The place of a name has numbers in it.
theorem name_numbered : ∃ value, (parse "a" "identifier" true).1 = .ok value ∧ value.isPlain (fun _ _ => false) = false := by
  have result : ((parse "a" "identifier" true).1.toOption.map (·.isPlain fun _ _ => false)) = some false := by
    decide +kernel
  cases outcome : (parse "a" "identifier" true).1 with
  | error fault => rw [outcome] at result; cases result
  | ok value =>
    rw [outcome] at result
    exact ⟨value,rfl,Option.some.inj result⟩

theorem bareError_plain : ∃ value, (parse "error E();" "customErrorDefinition" true).1 = .ok value ∧
    value.nodes.length = 3 ∧ value.isPlain Fields.spared = true ∧
    ∀ node ∈ value.nodes, (Fields.get? node "loc").map Value.isLocation = some true := by
  obtain ⟨value,means,count,_⟩ := bareError_means true
  obtain ⟨plain,placed⟩ := parse_plain (Prod.ext means rfl)
  exact ⟨value,means,count,plain,placed⟩

end SolReader
