import SolReader.Proofs.Outline.Trace

namespace SolReader

open List Bool

namespace Value

mutual

-- The nodes that a visit does not come to.
def hidden : Value → List Fields
  | .node fields => hiddenFields fields
  | value => value.nodes

def hiddenFields : List (String × Value) → List Fields
  | [] => []
  | (name,value) :: fields =>
    (if Fields.childless.contains name then value.nodes
      else match value with
        | .list items => hiddenItems items
        | value => hidden value) ++ hiddenFields fields

def hiddenItems : List Value → List Fields
  | [] => []
  | item :: items => hidden item ++ hiddenItems items

end

def hiddenField : Value → List Fields
  | .list items => hiddenItems items
  | value => hidden value

theorem hiddenFields_cons (name : String) (value : Value) (fields : List (String × Value)) :
    hiddenFields ((name,value) :: fields) =
      (if Fields.childless.contains name then value.nodes else hiddenField value) ++ hiddenFields fields := by
  cases value <;> rw [hiddenFields] <;> first | rfl | exact nofun

end Value

-- The visit comes to its end, keeps to the order of the nodes and leaves out just the hidden ones.
structure Trace.Splits (nodes hidden : List Fields) (trace : Trace) : Prop where
  complete : trace.fault = none
  ordered : trace.nodes.Sublist nodes
  others : (trace.nodes ++ hidden).Perm nodes

namespace Trace.Splits

theorem none (nodes : List Fields) : Trace.empty.Splits nodes nodes :=
  ⟨rfl,nil_sublist _,.refl _⟩

theorem append {first second : Trace} {nodes hidden more left : List Fields} (one : first.Splits nodes hidden)
    (two : second.Splits more left) : (first.append second).Splits (nodes ++ more) (hidden ++ left) where
  complete := by rw [fault_append one.complete,two.complete]
  ordered := by
    rw [nodes_append one.complete]
    exact one.ordered.append two.ordered
  others := by
    rw [nodes_append one.complete]
    have regrouped : (first.nodes ++ second.nodes ++ (hidden ++ left)).Perm (first.nodes ++ hidden ++ (second.nodes ++ left)) := by
      simpa only [append_assoc] using (perm_append_comm.append_right left).append_left first.nodes
    exact regrouped.trans (one.others.append two.others)

end Trace.Splits

namespace Value

mutual

theorem trace_splits : (value : Value) → value.All Fields.Typed → value.trace.Splits value.nodes value.hidden
  | .node fields, typed => by
    obtain ⟨type,own⟩ := typed fields mem_cons_self
    have inside := traceFields_splits fields fun node member => typed node (mem_cons_of_mem _ member)
    have self : Trace.Splits [fields] [] ⟨[fields],none⟩ := ⟨rfl,.refl _,.refl _⟩
    rw [trace,own,nodes,hidden]
    exact self.append inside
  | .null, _ | .bool _, _ | .number _, _ | .text _, _ | .list _, _ | .record _, _ | .tree _, _ => by
    rw [hidden]
    · exact .none _
    · exact nofun

theorem traceFields_splits : (fields : List (String × Value)) → (∀ node ∈ fieldNodes fields, Fields.Typed node) →
    (traceFields fields).Splits (fieldNodes fields) (hiddenFields fields)
  | [], _ => .none _
  | (name,value) :: fields, typed => by
    rw [fieldNodes] at typed ⊢
    have rest := traceFields_splits fields fun node member => typed node (mem_append_right _ member)
    have own : value.All Fields.Typed := fun node member => typed node (mem_append_left _ member)
    rw [traceFields_cons,hiddenFields_cons]
    split
    · exact (Trace.Splits.none value.nodes).append rest
    · refine Trace.Splits.append ?_ rest
      match value with
      | .list items => exact traceItems_splits items own
      | .node inner => exact trace_splits (.node inner) own
      | .null | .bool _ | .number _ | .text _ | .record _ | .tree _ => exact .none _

theorem traceItems_splits : (items : List Value) → (∀ node ∈ itemNodes items, Fields.Typed node) →
    (traceItems items).Splits (itemNodes items) (hiddenItems items)
  | [], _ => .none _
  | item :: items, typed => by
    rw [itemNodes] at typed ⊢
    have first := trace_splits item fun node member => typed node (mem_append_left _ member)
    have rest := traceItems_splits items fun node member => typed node (mem_append_right _ member)
    rw [traceItems,hiddenItems]
    exact first.append rest

end

-- Nodes that stand neither in records nor under fields that are not looked into, the names of some types apart.
inductive Orderly : Value → Prop where
  | bare {value : Value} (absent : value.nodes = []) : Orderly value
  | list {items : List Value} (each : ∀ item ∈ items, Orderly item) : Orderly (.list items)
  | node {fields : Fields} (each : ∀ field ∈ fields, Orderly field.2)
      (apart : ∀ field ∈ fields, Fields.childless.contains field.1 = true →
        field.2.nodes = [] ∨ (field.1 = "name" ∧ isOf Fields.nodeNamed fields = true)) : Orderly (.node fields)

theorem inherent_orderly : Inherent Orderly where
  null := .bare rfl
  bool _ := .bare rfl
  text _ := .bare rfl
  record simple := .bare (fieldNodes_simple simple)
  list each := .list each
  field whole _ _ _ found := by
    cases whole with
    | bare none => cases none
    | node each _ => exact each _ (Fields.mem_of_get? found)

end Value

theorem Rule.fields_checked : ∀ rule : Rule, (rule.makes.all fun made =>
    made.2.all fun name => !Fields.childless.contains name || name == "name") = true := by
  decide

theorem Made.named (made : Made phrase rule type fields)
    (member : field ∈ fields) (apart : Fields.childless.contains field.1 = true) : field.1 = "name" := by
  have checked := all_eq_true.mp (Rule.fields_checked rule) _ made.listed
  have named := all_eq_true.mp checked field.1 (mem_map_of_mem member)
  rw [apart] at named
  exact beq_iff_eq.mp named

theorem Tree.meaning_orderly {tree : Tree} (means : tree.meaning located = .ok value) : value.Orderly := by
  refine @Tree.meaning_holds (fun _ => Value.Orderly) (fun _ => True) located (fun _ => Value.inherent_orderly)
    (fun _ _ _ _ => id) ?_ tree (fun _ _ => trivial) value means
  intro tree rule found _ type fields place made placed each
  have bare : ∀ field ∈ place, field.2.nodes = [] := fun field member =>
    eq_nil_iff_forall_not_mem.mpr fun node inside =>
      eq_nil_iff_forall_not_mem.mp (Phrase.fieldNodes_place placed) node (Value.mem_fieldNodes.mpr ⟨field,member,inside⟩)
  refine .node ?_ ?_
  · rw [cons_append,forall_mem_cons,forall_mem_append]
    refine ⟨.bare rfl,fun field member => ?_,fun field member => .bare (bare field member)⟩
    rcases each field member with orderly | ⟨_,piece,isPiece⟩
    · exact orderly
    · exact .bare (isPiece ▸ rfl)
  · rw [cons_append,forall_mem_cons,forall_mem_append]
    refine ⟨fun _ => .inl rfl,fun field member apart => ?_,fun field member _ => .inl (bare field member)⟩
    have isName := made.named member apart
    rcases made.worded field member (isName ▸ by decide) with simple | named
    · exact .inl (Value.nodes_simple simple)
    · refine .inr ⟨isName,?_⟩
      have typed : Fields.typeName (("type",.text type) :: (fields ++ place)) = .ok type := rfl
      rw [Value.isOf_eq typed]
      exact contains_iff_mem.mpr named

-- A node holds another where a visit does not come: as its name, or in a list inside a list.
def Fields.Hides (holder node : Fields) : Prop :=
  (∃ value, ("name",value) ∈ holder ∧ Value.isOf Fields.nodeNamed holder = true ∧ node ∈ value.nodes) ∨
    ∃ name items inner, (name,Value.list items) ∈ holder ∧ .list inner ∈ items ∧ node ∈ (Value.list inner).nodes

namespace Value

variable {fields : List (String × Value)} {inner : Fields} {items : List Value} {value : Value}

theorem mem_hiddenFields : inner ∈ hiddenFields fields ↔
    ∃ field ∈ fields, inner ∈ if Fields.childless.contains field.1 then field.2.nodes else hiddenField field.2 := by
  induction fields with
  | nil => simp [hiddenFields]
  | cons field fields ih => rw [hiddenFields_cons,mem_append,ih,exists_mem_cons_iff]

theorem mem_hiddenItems : inner ∈ hiddenItems items ↔ ∃ item ∈ items, inner ∈ item.hidden := by
  induction items with
  | nil => simp [hiddenItems]
  | cons item items ih => rw [hiddenItems,mem_append,ih,exists_mem_cons_iff]

theorem traceField_splits (typed : value.All Fields.Typed) :
    (traceField value).Splits value.nodes (hiddenField value) := by
  cases value with
  | list items => exact traceItems_splits items typed
  | _ => exact trace_splits _ typed

theorem mem_traceFields (typed : ∀ node ∈ fieldNodes fields, Fields.Typed node)
    {field : String × Value} (member : field ∈ fields) (looked : Fields.childless.contains field.1 = false)
    (met : inner ∈ (traceField field.2).nodes) : inner ∈ (traceFields fields).nodes := by
  induction fields with
  | nil => cases member
  | cons first fields ih =>
    have rest := fun node below => typed node (mem_append_right _ below)
    have own : first.2.All Fields.Typed := fun node below => typed node (mem_append_left _ below)
    rw [traceFields_cons]
    rcases mem_cons.mp member with rfl | later
    · rw [looked,if_neg Bool.false_ne_true,Trace.nodes_append (traceField_over own).complete]
      exact mem_append_left _ met
    · split
      · exact ih rest later
      · rw [Trace.nodes_append (traceField_over own).complete]
        exact mem_append_right _ (ih rest later)

theorem mem_traceItems (typed : ∀ node ∈ itemNodes items, Fields.Typed node)
    (member : item ∈ items) (met : inner ∈ item.trace.nodes) : inner ∈ (traceItems items).nodes := by
  induction items with
  | nil => cases member
  | cons first items ih =>
    have rest := fun node below => typed node (mem_append_right _ below)
    have own : first.All Fields.Typed := fun node below => typed node (mem_append_left _ below)
    rw [traceItems,Trace.nodes_append (first.trace_over own).complete]
    rcases mem_cons.mp member with rfl | later
    · exact mem_append_left _ met
    · exact mem_append_right _ (ih rest later)

-- What is hidden in a field is held in such a way by some node that is met, unless it is in a list inside the field's own.
theorem Orderly.held (orderly : value.Orderly) (typed : value.All Fields.Typed)
    (member : inner ∈ hiddenField value) : (∃ holder ∈ (traceField value).nodes, holder.Hides inner) ∨
      ∃ items deeper, value = .list items ∧ .list deeper ∈ items ∧ inner ∈ (Value.list deeper).nodes := by
  induction orderly with
  | bare none =>
    have inside := (traceField_splits typed).others.subset (mem_append_right _ member)
    rw [none] at inside
    cases inside
  | @list items each ih =>
    obtain ⟨item,inside,hidden⟩ := mem_hiddenItems.mp member
    have own : item.All Fields.Typed := fun node below => typed node (mem_itemNodes.mpr ⟨item,inside,below⟩)
    cases item with
    | list deeper => exact .inr ⟨items,deeper,rfl,inside,hidden⟩
    | node fields =>
      rcases ih _ inside own hidden with ⟨holder,met,hides⟩ | ⟨_,_,impossible,_⟩
      · exact .inl ⟨holder,mem_traceItems typed inside met,hides⟩
      · cases impossible
    | _ =>
      rcases ih _ inside own hidden with ⟨_,impossible,_⟩ | ⟨_,_,impossible,_⟩
      · cases impossible
      · cases impossible
  | @node fields each apart ih =>
    obtain ⟨type,named⟩ := typed fields mem_cons_self
    have met : (traceField (.node fields)).nodes = fields :: (traceFields fields).nodes := by
      rw [traceField,trace,named]
      · rfl
      · rintro _ ⟨⟩
    have below : ∀ node ∈ fieldNodes fields, Fields.Typed node := fun node held => typed node (mem_cons_of_mem _ held)
    rw [hiddenField,hidden,mem_hiddenFields] at member
    obtain ⟨⟨name,held⟩,inside,hidden⟩ := member
    rw [met]
    left
    cases looked : Fields.childless.contains name with
    | true =>
      rw [if_pos looked] at hidden
      rcases apart _ inside looked with absent | ⟨rfl,isNamed⟩
      · rw [absent] at hidden
        cases hidden
      · exact ⟨fields,mem_cons_self,.inl ⟨held,inside,isNamed,hidden⟩⟩
    | false =>
      rw [looked,if_neg Bool.false_ne_true] at hidden
      have own : held.All Fields.Typed := fun node deep => below node (mem_fieldNodes.mpr ⟨_,inside,deep⟩)
      rcases ih _ inside own hidden with ⟨holder,found,hides⟩ | ⟨items,deeper,rfl,listed,deep⟩
      · exact ⟨holder,mem_cons_of_mem _ (mem_traceFields below inside looked found),hides⟩
      · exact ⟨fields,mem_cons_self,.inr ⟨name,items,deeper,inside,listed,deep⟩⟩
    rintro _ ⟨⟩

end Value

-- Whatever the text, a visit of its abstract tree calls back for the nodes in their order, each of them once, apart from
-- those that stand for a name or in a list inside a list.  Of something that is no node it calls back for none and gives
-- it back.
theorem parse_visited {text start : String} {located : Bool} {value : Value} {diagnostics : List Diagnostic}
    (parsed : parse text start located = (.ok value,diagnostics)) : ∃ calls : List Fields,
    (∀ (σ : Type) (step : σ → Fields → Except Fault σ) (initial : σ),
      value.fold step initial = calls.foldlM step initial) ∧
    calls.Sublist value.nodes ∧ (calls ++ value.hidden).Perm value.nodes ∧
    ((∀ root, value ≠ .node root) → calls = [] ∧ value.afterVisit = value) ∧
    ∀ root, value = .node root → ∀ node ∈ value.hidden, ∃ holder ∈ calls, holder.Hides node := by
  obtain ⟨rule,_,means,_⟩ := parse_ok parsed
  have typed : value.All Fields.Typed :=
    ((Reading.ofText_fitted rule text).1.shaped (fun _ _ => Nat.zero_le _) means).imp fun _ own => own.typed
  have splits := value.trace_splits typed
  refine ⟨value.trace.nodes,fun σ step initial => value.fold_eq splits.complete step initial,splits.ordered,
    splits.others,fun other => ?_,?_⟩
  · cases value with
    | node root => exact absurd rfl (other root)
    | _ => exact ⟨rfl,rfl⟩
  · rintro root rfl node member
    rcases (Tree.meaning_orderly means).held typed member with held | ⟨_,_,impossible,_⟩
    · exact held
    · cases impossible

set_option maxRecDepth 100000 in
theorem names_read : reads (fun value => value.nodes.length == 1 &&
    (value.fold (fun count _ => .ok (count + 1)) 0).toOption == some 0) "(a)" "identifierList" false = true := by
  decide +kernel

-- A list of names is no node, so a visit of it never calls back, although it holds a node.
theorem names_unvisited : ∃ value, parse "(a)" "identifierList" false = (.ok value,[]) ∧ value.nodes.length = 1 ∧
    value.fold (fun count _ => .ok (count + 1)) 0 = .ok (0 : Nat) := by
  obtain ⟨value,parsed,tested⟩ := reads_ok names_read
  rw [and_eq_true,beq_iff_eq,beq_iff_eq] at tested
  refine ⟨value,parsed,tested.1,?_⟩
  cases folded : value.fold (fun count _ => .ok (count + 1)) (0 : Nat) with
  | error fault => rw [folded] at tested; cases tested.2
  | ok count =>
    rw [folded] at tested
    exact congrArg _ (Option.some.inj tested.2)

set_option maxRecDepth 100000 in
theorem error_read : reads (fun value => value.nodes.length == 3 && value.hidden.length == 1) "error E();"
    "customErrorDefinition" false = true := by
  decide +kernel

-- Of the three nodes of an error without parameters the one that stands for its name is not called back for.
theorem error_visited : ∃ value, parse "error E();" "customErrorDefinition" false = (.ok value,[]) ∧ ∃ calls : List Fields,
    value.fold (fun met node => .ok (met ++ [node])) [] = calls.foldlM (fun met node => .ok (met ++ [node])) [] ∧
    calls.length = 2 ∧ calls.Sublist value.nodes := by
  obtain ⟨value,parsed,tested⟩ := reads_ok error_read
  rw [and_eq_true,beq_iff_eq,beq_iff_eq] at tested
  obtain ⟨calls,called,ordered,others,_⟩ := parse_visited parsed
  refine ⟨value,parsed,calls,called _ _ _,?_,ordered⟩
  have counted := others.length_eq
  rw [length_append,tested.1,tested.2] at counted
  omega

end SolReader
