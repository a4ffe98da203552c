import SolReader.Proofs.Ast.Alike
import SolReader.Proofs.Ast.Known

namespace SolReader

open List

variable {start : String}

theorem parse_known (known : Rule.ofName? start = some rule) (text : String)
    (located : Bool) : parse text start located =
      ((Reading.ofText rule text).tree.meaning located,(Reading.ofText rule text).diagnostics) := by
  rw [parse,known]

theorem parse_ok (parsed : parse text start located = (.ok value,diagnostics)) :
    ∃ rule, Rule.ofName? start = some rule ∧ (Reading.ofText rule text).tree.meaning located = .ok value ∧
      (Reading.ofText rule text).diagnostics = diagnostics := by
  cases known : Rule.ofName? start with
  | none =>
    rw [parse,known] at parsed
    cases parsed
  | some rule =>
    rw [parse_known known] at parsed
    obtain ⟨means,said⟩ := Prod.mk.inj parsed
    exact ⟨rule,rfl,means,said⟩

-- The text is read without complaint, and its abstract tree passes the test.
def reads (test : Value → Bool) (text start : String) (located : Bool) : Bool :=
  match parse text start located with
  | (.ok value,[]) => test value
  | _ => false

theorem reads_ok {test : Value → Bool} (read : reads test text start located = true) :
    ∃ value, parse text start located = (.ok value,[]) ∧ test value = true := by
  rw [reads] at read
  split at read
  · exact ⟨_,by assumption,read⟩
  · cases read

attribute [grind =] Phrase.meaning

namespace Tree

variable {tree phrase : Tree} {rule : Rule}

-- The phrase that a tree is.
def seen (located : Bool) (tree : Tree) : SolReader.Phrase :=
  ⟨tree,tree.children.map (understood located),located⟩

theorem meaning_node (located : Bool) (rule : Rule) (start : Token) (stop : Option Token) (children : List Tree) :
    (node rule start stop children).meaning located = ((node rule start stop children).seen located).meaning rule := by
  rw [meaning,understood,allUnderstood_eq]
  rfl

theorem meaning_seen (found : tree.rule? = some rule) (located : Bool) :
    tree.meaning located = (tree.seen located).meaning rule := by
  cases tree with
  | leaf token => cases found
  | error token => cases found
  | node own start stop children =>
    rw [← Option.some.inj found]
    exact meaning_node located own start stop children

theorem self_mem (found : tree.rule? = some rule) : tree ∈ tree.phrases := by
  cases tree with
  | node own start stop children => exact mem_cons_self
  | _ => cases found

theorem phrases_child (member : child ∈ tree.children) (inside : phrase ∈ child.phrases) : phrase ∈ tree.phrases := by
  cases tree with
  | node rule start stop children => exact mem_cons_of_mem _ (mem_allPhrases.mpr ⟨child,member,inside⟩)
  | leaf token => cases member
  | error token => cases member

theorem size_phrase (inside : phrase ∈ tree.phrases) : sizeOf phrase ≤ sizeOf tree := by
  induction tree using by_size with
  | step tree ih =>
    cases tree with
    | leaf token => cases inside
    | error token => cases inside
    | node rule start stop children =>
      rcases mem_cons.mp inside with rfl | below
      · exact Nat.le_refl _
      · obtain ⟨child,member,below⟩ := mem_allPhrases.mp below
        have smaller : sizeOf child < sizeOf (node rule start stop children) := size_child member
        exact Nat.le_trans (ih child smaller below) (Nat.le_of_lt smaller)

theorem phrases_trans {inner : Tree} (inside : phrase ∈ tree.phrases) (below : inner ∈ phrase.phrases) :
    inner ∈ tree.phrases := by
  induction tree using by_size with
  | step tree ih =>
    cases tree with
    | leaf token => cases inside
    | error token => cases inside
    | node rule start stop children =>
      rcases mem_cons.mp inside with rfl | deeper
      · exact below
      · obtain ⟨child,member,deeper⟩ := mem_allPhrases.mp deeper
        exact phrases_child member (ih child (size_child member) deeper)

section Pairs

variable {related : Value → Value → Prop} {tree other : Tree}
variable {terms : Terms} {left right : Bool}

theorem leaf_tied (good : Congruent related) (same : terms.pieces tree other) (plain : tree.rule? = none) :
    Tied terms related (tree.meaning left) (other.meaning right) := by
  obtain ⟨text,shape,_⟩ := terms.similar same
  cases tree with
  | leaf token =>
    cases other with
    | leaf again =>
      rw [text_leaf,text_leaf] at text
      refine .ok ?_
      rw [text]
      exact good.text _
    | error again => cases shape
    | node rule start stop children => cases shape
  | error token =>
    cases other with
    | leaf again => cases shape
    | error again => exact .ok good.null
    | node rule start stop children => cases shape
  | node rule start stop children => cases plain

theorem understood_mk (located : Bool) (tree : Tree) :
    tree.understood located = .mk tree (tree.children.map (understood located)) (tree.meaning located) := by
  cases tree with
  | leaf token => rfl
  | error token => rfl
  | node rule start stop children => rw [meaning,understood,allUnderstood_eq]; rfl

theorem understood_twin (good : Congruent related) (same : terms.pieces tree other)
    (tied : ∀ phrase ∈ tree.phrases, ∀ piece, terms.pieces phrase piece →
      Tied terms related (phrase.meaning left) (piece.meaning right)) :
    Part.Twin terms related (tree.understood left) (other.understood right) := by
  induction tree using by_size generalizing other with
  | step tree ih =>
    rw [understood_mk,understood_mk]
    refine .mk same ?_ ?_
    · rw [forall₂_map_left_iff,forall₂_map_right_iff]
      refine ((forall₂_and_left _ _).mpr ⟨fun child member => member,terms.inner same⟩).imp ?_
      rintro child piece ⟨member,pair⟩
      exact ih child (size_child member) pair fun phrase inside => tied phrase (phrases_child member inside)
    · cases root : tree.rule? with
      | none => exact leaf_tied good same root
      | some rule =>
        refine tied tree ?_ other same
        cases tree with
        | node own start stop children => exact mem_cons_self
        | _ => cases root

theorem meaning_tied {related : Tree → Value → Value → Prop} {Fine : Tree → Prop} (good : ∀ tree, Congruent (related tree))
    (grow : ∀ tree : Tree, ∀ phrase ∈ tree.phrases, ∀ value other, related phrase value other → related tree value other)
    (made : ∀ (tree piece : Tree) (rule : Rule), terms.pieces tree piece → tree.rule? = some rule → Fine tree →
      ∀ {type fields others}, Made (tree.seen left) rule type fields → Fields.Related terms (related tree) fields others →
        Tied terms (related tree) ((tree.seen left).node type fields) ((piece.seen right).node type others))
    (same : terms.pieces tree other) (fine : ∀ phrase ∈ tree.phrases, Fine phrase) :
    Tied terms (related tree) (tree.meaning left) (other.meaning right) := by
  induction tree using by_size generalizing other with
  | step tree ih =>
    cases root : tree.rule? with
    | none => exact leaf_tied (good tree) same root
    | some rule =>
      have root' : other.rule? = some rule := (terms.similar same).rule?.symm.trans root
      have own : tree ∈ tree.phrases := by
        cases tree with
        | node own start stop children => exact mem_cons_self
        | _ => cases root
      rw [meaning_seen root,meaning_seen root']
      refine Alike.meaning_tied ⟨good tree,same,?_,made tree other rule same root (fine tree own)⟩
      rw [seen,seen,Twins,forall₂_map_left_iff,forall₂_map_right_iff]
      refine ((forall₂_and_left _ _).mpr ⟨fun child member => member,terms.inner same⟩).imp ?_
      rintro child piece ⟨member,pair⟩
      refine understood_twin (good tree) pair fun phrase inside again twin => ?_
      have within : phrase ∈ tree.phrases := phrases_child member inside
      have smaller := Nat.lt_of_le_of_lt (size_phrase inside) (size_child member)
      exact (ih phrase smaller twin fun inner below => fine inner (phrases_trans within below)).imp (grow tree phrase within)

end Pairs

end Tree

theorem Fields.mem_of_get? {fields : Fields} (found : fields.get? name = some value) : (name,value) ∈ fields := by
  obtain ⟨before,after,rfl,_⟩ := lookup_eq_some_iff.mp found
  simp

namespace Value

variable {fields : Fields} {value : Value}

mutual

-- All nodes of a value, at any depth.
def nodes : Value → List Fields
  | .node fields => fields :: fieldNodes fields
  | .record fields => fieldNodes fields
  | .list items => itemNodes items
  | _ => []

def fieldNodes : List (String × Value) → List Fields
  | [] => []
  | (_,value) :: fields => value.nodes ++ fieldNodes fields

def itemNodes : List Value → List Fields
  | [] => []
  | item :: items => item.nodes ++ itemNodes items

end

theorem mem_fieldNodes {node : Fields} : node ∈ fieldNodes fields ↔ ∃ field ∈ fields, node ∈ field.2.nodes := by
  induction fields with
  | nil => simp [fieldNodes]
  | cons field fields ih => simp [fieldNodes,ih]

theorem fieldNodes_append (fields others : Fields) :
    fieldNodes (fields ++ others) = fieldNodes fields ++ fieldNodes others := by
  induction fields with
  | nil => rfl
  | cons field fields ih => rw [cons_append,fieldNodes,fieldNodes,ih,append_assoc]

theorem mem_itemNodes {node : Fields} : node ∈ itemNodes items ↔ ∃ item ∈ items, node ∈ item.nodes := by
  induction items with
  | nil => simp [itemNodes]
  | cons item items ih => simp [itemNodes,ih]

theorem nodes_simple (simple : value.isSimple = true) : value.nodes = [] := by
  cases value <;> first | rfl | cases simple

theorem fieldNodes_simple (simple : ∀ field ∈ fields, field.2.isSimple = true) : fieldNodes fields = [] := by
  apply eq_nil_iff_forall_not_mem.mpr
  intro node member
  obtain ⟨field,inside,deeper⟩ := mem_fieldNodes.mp member
  rw [nodes_simple (simple field inside)] at deeper
  cases deeper

-- All nodes of a value have a property.
def All (holds : Fields → Prop) (value : Value) : Prop :=
  ∀ node ∈ value.nodes, holds node

theorem All.imp {holds weaker : Fields → Prop} (all : value.All holds)
    (weaken : ∀ node, holds node → weaker node) : value.All weaker :=
  fun node member => weaken node (all node member)

-- A property that a value has as soon as what it is put together from has it, and that is handed down to what is looked
-- up in a node.
structure Inherent (holds : Value → Prop) : Prop where
  null : holds .null
  bool (truth : Bool) : holds (.bool truth)
  text (content : String) : holds (.text content)
  record {fields : Fields} (simple : ∀ field ∈ fields, field.2.isSimple = true) : holds (.record fields)
  list {items : List Value} (each : ∀ item ∈ items, holds item) : holds (.list items)
  field {fields : Fields} (whole : holds (.node fields)) {name : String} (ordinary : name ∉ Fields.special) {value : Value}
    (found : fields.get? name = some value) : holds value

-- A value is related to itself if it has the property.
def Same (holds : Value → Prop) (value other : Value) : Prop :=
  value = other ∧ holds value

theorem congruent_same {holds : Value → Prop} (inherent : Inherent holds) : Congruent (Same holds) where
  null := ⟨rfl,inherent.null⟩
  bool truth := ⟨rfl,inherent.bool truth⟩
  text content := ⟨rfl,inherent.text content⟩
  record simple := ⟨rfl,inherent.record simple⟩
  list {values others} paired := by
    have equal : values = others := forall₂_eq_eq_eq ▸ paired.imp fun _ _ pair => pair.1
    subst equal
    exact ⟨rfl,inherent.list fun item member => (forall₂_same.mp paired item member).2⟩
  null_iff pair := by rw [pair.1]
  text_iff pair _ := by rw [pair.1]
  shape pair := by rw [pair.1]
  nodes {value other} pair := by
    obtain ⟨rfl,whole⟩ := pair
    cases value with
    | node fields =>
      refine .inl ⟨fields,fields,rfl,rfl,fun name ordinary => ?_⟩
      cases found : Fields.get? fields name with
      | none => exact .none
      | some value => exact .some ⟨rfl,inherent.field whole ordinary found⟩
    | _ => exact .inr ⟨nofun,nofun⟩

theorem inherent_all (holds : Fields → Prop) : Inherent (All holds) where
  null := nofun
  bool _ := nofun
  text _ := nofun
  record simple := fun node member => by rw [nodes,fieldNodes_simple simple] at member; cases member
  list each := by
    intro node member
    obtain ⟨item,inside,deeper⟩ := mem_itemNodes.mp member
    exact each item inside node deeper
  field whole _ _ _ found := fun node inside =>
    whole node (mem_cons_of_mem _ (mem_fieldNodes.mpr ⟨_,Fields.mem_of_get? found,inside⟩))

end Value

namespace Phrase

-- The field that says where a node stands, if nodes say so.
def place (phrase : Phrase) : Except Fault Fields :=
  if phrase.located then (do return [("loc",← location phrase.tree)]) else .ok []

theorem node_eq (phrase : Phrase) (type : String) (fields : Fields) :
    phrase.node type fields = (do return .node (("type",.text type) :: fields ++ (← phrase.place))) := by
  rw [node,place]
  cases phrase.located with
  | false => simp [bind,Except.bind,pure,Except.pure]
  | true =>
    cases location phrase.tree with
    | error fault => rfl
    | ok place => rfl

theorem node_ok {phrase : Phrase} (made : phrase.node type fields = .ok value) :
    ∃ place, phrase.place = .ok place ∧ value = .node (("type",.text type) :: fields ++ place) := by
  rw [node_eq] at made
  cases placed : phrase.place with
  | error fault => rw [placed] at made; cases made
  | ok place =>
    rw [placed] at made
    exact ⟨place,rfl,(Except.ok.inj made).symm⟩

theorem fieldNodes_place {phrase : Phrase} {place : Fields} (placed : phrase.place = .ok place) :
    Value.fieldNodes place = [] := by
  rw [Phrase.place] at placed
  split at placed
  · cases tree : phrase.tree with
    | leaf token | error token =>
      rw [tree] at placed
      cases placed
      rfl
    | node rule start stop children =>
      rw [tree] at placed
      cases stop with
      | none => cases placed
      | some stop =>
        cases placed
        rfl
  · cases placed
    rfl

theorem fieldNodes_made {phrase : Phrase} {place : Fields} (placed : phrase.place = .ok place) (type : String)
    (fields : Fields) : Value.fieldNodes (("type",.text type) :: fields ++ place) = Value.fieldNodes fields := by
  rw [cons_append,Value.fieldNodes,Value.nodes,nil_append,Value.fieldNodes_append,fieldNodes_place placed,
    append_nil]
  all_goals exact nofun

end Phrase

-- What a field holds has the property, or is a piece of the parse tree.
def Fields.Keeps (holds : Value → Prop) (field : String × Value) : Prop :=
  holds field.2 ∨ (field.1 ∈ Fields.pieces ∧ ∃ piece, field.2 = .tree piece)

theorem Value.same_node {both : Prop} {holds : Value → Prop} {phrase : Phrase} {fields : Fields}
    (same : fields.Related (.ofTree both) (Value.Same holds) others)
    (own : ∀ place, phrase.place = .ok place → (∀ field ∈ fields, Fields.Keeps holds field) →
      holds (.node (("type",.text type) :: fields ++ place))) :
    Tied (.ofTree both) (Value.Same holds) (phrase.node type fields) (phrase.node type others) := by
  have equal : fields = others := by
    refine forall₂_eq_eq_eq ▸ List.Forall₂.imp ?_ same
    rintro one two ⟨name,⟨value,_⟩ | ⟨_,tree,_,held,again,rfl⟩⟩
    · exact Prod.ext name value
    · exact Prod.ext name (held.trans again.symm)
  subst equal
  have inside : ∀ field ∈ fields, Fields.Keeps holds field := by
    intro field member
    rcases (forall₂_same.mp same field member).2 with ⟨_,holds⟩ | ⟨piece,tree,_,held,_⟩
    · exact .inl holds
    · exact .inr ⟨piece,tree,held⟩
  have good : ∀ value, phrase.node type fields = .ok value → Value.Same holds value value := by
    intro value made
    obtain ⟨place,placed,rfl⟩ := Phrase.node_ok made
    exact ⟨rfl,own place placed inside⟩
  exact ⟨fun value made => ⟨value,made,good value made⟩,fun _ value made => ⟨value,made,good value made⟩,
    fun _ _ _ _ _ => trivial⟩

-- If every node that is made has an inherent property as soon as what it is made of has it, the abstract tree has it.
-- The property may depend on the tree, as long as it passes from a part to the whole.
theorem Tree.meaning_holds {holds : Tree → Value → Prop} {Fine : Tree → Prop} {located : Bool}
    (inherent : ∀ tree, Value.Inherent (holds tree))
    (grow : ∀ tree : Tree, ∀ phrase ∈ tree.phrases, ∀ value, holds phrase value → holds tree value)
    (made : ∀ (tree : Tree) (rule : Rule), tree.rule? = some rule → Fine tree → ∀ {type fields place},
      Made (tree.seen located) rule type fields → (tree.seen located).place = .ok place →
        (∀ field ∈ fields, Fields.Keeps (holds tree) field) → holds tree (.node (("type",.text type) :: fields ++ place)))
    {tree : Tree} (fine : ∀ phrase ∈ tree.phrases, Fine phrase) {value : Value} (means : tree.meaning located = .ok value) :
    holds tree value := by
  have tied : Tied (.ofTree True) (Value.Same (holds tree)) (tree.meaning located) (tree.meaning located) := by
    refine Tree.meaning_tied (fun tree => Value.congruent_same (inherent tree)) ?_ ?_ rfl fine
    · exact fun tree phrase inside value other same => ⟨same.1,grow tree phrase inside value same.2⟩
    · rintro tree _ rule rfl found good type fields others known same
      exact Value.same_node same fun place placed inside => made tree rule found good known placed inside
  obtain ⟨other,_,_,all⟩ := tied.forth value means
  exact all

theorem Tree.nodes_hold {holds : Tree → Fields → Prop} {Fine : Tree → Prop} {located : Bool}
    (grow : ∀ tree : Tree, ∀ phrase ∈ tree.phrases, ∀ node, holds phrase node → holds tree node)
    (made : ∀ (tree : Tree) (rule : Rule), tree.rule? = some rule → Fine tree → ∀ {type fields place},
      Made (tree.seen located) rule type fields → (tree.seen located).place = .ok place →
        (∀ node ∈ Value.fieldNodes fields, holds tree node) → holds tree (("type",.text type) :: fields ++ place))
    {tree : Tree} (fine : ∀ phrase ∈ tree.phrases, Fine phrase) {value : Value} (means : tree.meaning located = .ok value) :
    value.All (holds tree) := by
  let Holds (tree : Tree) (value : Value) : Prop := value.All (holds tree)
  refine @Tree.meaning_holds Holds Fine located (fun tree => Value.inherent_all (holds tree))
    (fun tree phrase inside value all => all.imp (grow tree phrase inside)) ?_ tree fine value means
  intro tree rule found good type fields place known placed each
  have inside : ∀ node ∈ Value.fieldNodes fields, holds tree node := by
    intro node member
    obtain ⟨field,held,deeper⟩ := Value.mem_fieldNodes.mp member
    rcases each field held with all | ⟨_,piece,isPiece⟩
    · exact all node deeper
    · rw [isPiece] at deeper
      cases deeper
  intro node member
  rcases mem_cons.mp member with rfl | below
  · exact made tree rule found good known placed inside
  · exact inside node (Phrase.fieldNodes_made placed type fields ▸ below)

end SolReader
