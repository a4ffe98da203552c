import SolReader.Proofs.Ast.Shapes

namespace SolReader

open List

variable {tier : Nat}

def Fields.Typed (node : Fields) : Prop :=
  ∃ type, node.typeName = .ok type

theorem Fields.Shaped.typed {node : Fields} (shaped : node.Shaped tier) : node.Typed := by
  obtain ⟨type,typed,_⟩ := shaped.typeName
  exact ⟨type,typed⟩

theorem Fields.Shaped.all_typed {node : Fields} (shaped : node.Shaped tier)
    (inside : ∀ inner ∈ Value.fieldNodes node, inner.Shaped other) : (Value.node node).All Fields.Typed :=
  Value.all_node shaped.typed fun inner held => (inside inner held).typed

theorem Value.isOf_eq {node : Fields} (typed : node.typeName = .ok type) (types : List String) :
    Value.isOf types node = types.contains type := by
  rw [Value.isOf,typed]

namespace Trace

-- The visit came to its end and met only some of these nodes.
structure Over (nodes : List Fields) (trace : Trace) : Prop where
  complete : trace.fault = none
  met : ∀ node ∈ trace.nodes, node ∈ nodes

theorem nodes_append {first : Trace} (complete : first.fault = none) :
    (first.append second).nodes = first.nodes ++ second.nodes := by
  simp [append,complete]

theorem fault_append {first : Trace} (complete : first.fault = none) : (first.append second).fault = second.fault := by
  simp [append,complete]

@[simp] theorem append_empty (trace : Trace) : trace.append .empty = trace := by
  rw [append]
  split
  · rfl
  · rename_i complete
    obtain ⟨nodes,fault⟩ := trace
    cases fault with
    | none => simp [empty]
    | some fault => simp at complete

theorem Over.append {first second : Trace} {nodes others : List Fields} (one : first.Over nodes)
    (two : second.Over others) : (first.append second).Over (nodes ++ others) where
  complete := by rw [fault_append one.complete,two.complete]
  met := by
    rw [nodes_append one.complete]
    intro node member
    rcases mem_append.mp member with early | late
    · exact mem_append_left _ (one.met node early)
    · exact mem_append_right _ (two.met node late)

theorem Over.empty {nodes : List Fields} : Trace.empty.Over nodes := ⟨rfl,forall_mem_nil _⟩

end Trace

namespace Value

-- The nodes of what a field holds.
def traceField : Value → Trace
  | .list items => traceItems items
  | value => trace value

theorem traceFields_cons (name : String) (value : Value) (fields : List (String × Value)) :
    traceFields ((name,value) :: fields) =
      if Fields.childless.contains name then traceFields fields else (traceField value).append (traceFields fields) := by
  cases value <;> rw [traceFields] <;> first | rfl | exact nofun

mutual

theorem trace_over : (value : Value) → value.All Fields.Typed → value.trace.Over value.nodes
  | .node fields, typed => by
    obtain ⟨type,own⟩ := typed fields mem_cons_self
    have inside := traceFields_over fields fun node member => typed node (mem_cons_of_mem _ member)
    have self : Trace.Over [fields] ⟨[fields],none⟩ := ⟨rfl,fun _ member => member⟩
    rw [trace,own,nodes]
    exact self.append inside
  | .null, _ | .bool _, _ | .number _, _ | .text _, _ | .list _, _ | .record _, _ | .tree _, _ => Trace.Over.empty

theorem traceFields_over : (fields : List (String × Value)) → (∀ node ∈ fieldNodes fields, Fields.Typed node) →
    (traceFields fields).Over (fieldNodes fields)
  | [], _ => Trace.Over.empty
  | (name,value) :: fields, typed => by
    rw [fieldNodes] at typed ⊢
    have rest := traceFields_over fields fun node member => typed node (mem_append_right _ member)
    have own : value.All Fields.Typed := fun node member => typed node (mem_append_left _ member)
    rw [traceFields_cons]
    split
    · exact ⟨rest.complete,fun node member => mem_append_right _ (rest.met node member)⟩
    · refine Trace.Over.append ?_ rest
      match value with
      | .list items => exact traceItems_over items own
      | .node inner => exact trace_over (.node inner) own
      | .null | .bool _ | .number _ | .text _ | .record _ | .tree _ => exact Trace.Over.empty

theorem traceItems_over : (items : List Value) → (∀ node ∈ itemNodes items, Fields.Typed node) →
    (traceItems items).Over (itemNodes items)
  | [], _ => Trace.Over.empty
  | item :: items, typed => by
    rw [itemNodes] at typed ⊢
    have first := trace_over item fun node member => typed node (mem_append_left _ member)
    have rest := traceItems_over items fun node member => typed node (mem_append_right _ member)
    rw [traceItems]
    exact first.append rest

end

theorem traceField_over {value : Value} (typed : value.All Fields.Typed) : (traceField value).Over value.nodes := by
  cases value with
  | list items => exact traceItems_over items typed
  | node inner => exact trace_over (.node inner) typed
  | _ => exact Trace.Over.empty

mutual

theorem nodes_within : (value : Value) → {own : Fields} → own ∈ value.nodes → ∀ inner ∈ (node own).nodes, inner ∈ value.nodes
  | .node _, own, member => by
    rcases mem_cons.mp member with rfl | deeper
    · exact fun _ held => held
    · exact fun inner held => mem_cons_of_mem _ (fieldNodes_within _ deeper inner held)
  | .record fields, _, member => fieldNodes_within fields member
  | .list items, _, member => itemNodes_within items member

theorem fieldNodes_within : (fields : List (String × Value)) → {own : Fields} → own ∈ fieldNodes fields →
    ∀ inner ∈ (node own).nodes, inner ∈ fieldNodes fields
  | (_,value) :: fields, _, member => by
    rw [fieldNodes] at member ⊢
    intro inner held
    rcases mem_append.mp member with first | rest
    · exact mem_append_left _ (nodes_within value first inner held)
    · exact mem_append_right _ (fieldNodes_within fields rest inner held)

theorem itemNodes_within : (items : List Value) → {own : Fields} → own ∈ itemNodes items →
    ∀ inner ∈ (node own).nodes, inner ∈ itemNodes items
  | item :: items, _, member => by
    rw [itemNodes] at member ⊢
    intro inner held
    rcases mem_append.mp member with first | rest
    · exact mem_append_left _ (nodes_within item first inner held)
    · exact mem_append_right _ (itemNodes_within items rest inner held)

end

-- The nodes that stand in a list.
def node? : Value → Option Fields
  | .node fields => some fields
  | _ => none

theorem mem_members {items : List Value} : own ∈ items.filterMap node? ↔ .node own ∈ items := by
  rw [mem_filterMap]
  constructor
  · rintro ⟨item,inside,same⟩
    cases item <;> cases same
    exact inside
  · exact fun inside => ⟨_,inside,rfl⟩

section Items

variable {items : List Value}

theorem traceItems_met (typed : ∀ own, .node own ∈ items → (node own).All Fields.Typed) :
    (traceItems items).fault = none ∧
      ∀ met ∈ (traceItems items).nodes, ∃ own, .node own ∈ items ∧ met ∈ (node own).nodes := by
  induction items with
  | nil => exact ⟨rfl,forall_mem_nil _⟩
  | cons item items ih =>
    obtain ⟨complete,others⟩ := ih fun own inside => typed own (mem_cons_of_mem _ inside)
    have later : ∀ met ∈ (traceItems items).nodes, ∃ own, .node own ∈ item :: items ∧ met ∈ (node own).nodes := by
      intro met member
      obtain ⟨own,inside,held⟩ := others met member
      exact ⟨own,mem_cons_of_mem _ inside,held⟩
    rw [traceItems]
    cases item with
    | node own =>
      have walked := (node own).trace_over (typed own mem_cons_self)
      rw [Trace.fault_append walked.complete,Trace.nodes_append walked.complete]
      refine ⟨complete,fun met member => ?_⟩
      rcases mem_append.mp member with first | rest
      · exact ⟨own,mem_cons_self,walked.met met first⟩
      · exact later met rest
    | _ => exact ⟨complete,later⟩

-- If they hold nothing of some sort, what it meets of that sort are the nodes that stand in the list.
theorem traceItems_filter {relevant : Fields → Bool} (typed : ∀ own, .node own ∈ items → (node own).All Fields.Typed)
    (apart : ∀ own, .node own ∈ items → ∀ inner ∈ fieldNodes own, relevant inner = false) :
    (traceItems items).nodes.filter relevant = (items.filterMap node?).filter relevant := by
  induction items with
  | nil => rfl
  | cons item items ih =>
    have rest := ih (fun own inside => typed own (mem_cons_of_mem _ inside))
      (fun own inside => apart own (mem_cons_of_mem _ inside))
    rw [traceItems]
    cases item with
    | node own =>
      have typedOwn := typed own mem_cons_self
      obtain ⟨type,found⟩ := typedOwn own mem_cons_self
      have walked := traceFields_over own fun inner member => typedOwn inner (mem_cons_of_mem _ member)
      have absent : (traceFields own).nodes.filter relevant = [] :=
        filter_eq_nil_iff.mpr fun inner member => by simp [apart own mem_cons_self inner (walked.met inner member)]
      have whole : (trace (.node own)).nodes = own :: (traceFields own).nodes := by
        rw [trace,found]
        rfl
      rw [Trace.nodes_append ((node own).trace_over typedOwn).complete,whole,filterMap_cons,node?,cons_append,
        filter_cons,filter_append,absent,rest,filter_cons]
      rfl
    | _ => exact rest

end Items

theorem traceFields_place (placed : ∀ field ∈ place, field.1 = "loc") : traceFields place = .empty := by
  induction place with
  | nil => rfl
  | cons field place ih =>
    obtain ⟨name,value⟩ := field
    obtain ⟨rfl,others⟩ := forall_mem_cons.mp placed
    rw [traceFields_cons,if_pos (by decide),ih others]

theorem trace_list (looked : Fields.childless.contains name = false) (placed : ∀ field ∈ place, field.1 = "loc") :
    (Value.node ([("type",.text type),(name,.list items)] ++ place)).trace =
      Trace.append ⟨[[("type",.text type),(name,.list items)] ++ place],none⟩ (traceItems items) := by
  have typed : Fields.typeName ([("type",.text type),(name,.list items)] ++ place) = .ok type := rfl
  have inside : traceFields ([("type",.text type),(name,.list items)] ++ place) = traceItems items := by
    rw [cons_append,cons_append,nil_append,traceFields_cons,if_pos (by decide),traceFields_cons,
      if_neg (Bool.eq_false_iff.mp looked),traceFields_place placed,traceField,Trace.append_empty]
  rw [trace,typed,inside]

theorem trace_contract {kind : String} (placed : ∀ field ∈ place, field.1 = "loc")
    (made : own = [("type",.text "ContractDefinition"),("name",.text name),("baseContracts",bases),
      ("subNodes",.list items),("kind",.text kind)] ++ place) :
    (node own).trace = Trace.append ⟨[own],none⟩ ((traceField bases).append (traceItems items)) := by
  have typed : Fields.typeName own = .ok "ContractDefinition" := by
    rw [made]
    rfl
  have inside : traceFields own = (traceField bases).append (traceItems items) := by
    simp only [made,cons_append,nil_append]
    rw [traceFields_cons,if_pos (by decide),traceFields_cons,if_pos (by decide),traceFields_cons,if_neg (by decide),
      traceFields_cons,if_neg (by decide),traceFields_cons,if_neg (by decide),traceFields_place placed,
      Trace.append_empty]
    exact congrArg _ (Trace.append_empty _)
  rw [trace,typed,inside]

theorem fold_eq {σ : Type} {value : Value} (complete : value.trace.fault = none) (step : σ → Fields → Except Fault σ)
    (start : σ) : value.fold step start = value.trace.nodes.foldlM step start := by
  rw [fold,complete]
  exact bind_pure _

end Value

theorem foldlM_tracks {σ : Type} {step : σ → Fields → Except Fault σ} {Tracks : List Fields → σ → Prop}
    {nodes : List Fields} (each : ∀ node ∈ nodes, ∀ done state, Tracks done state →
      ∃ next, step state node = .ok next ∧ Tracks (done ++ [node]) next)
    {done : List Fields} {state : σ} (tracks : Tracks done state) :
    ∃ final, nodes.foldlM step state = .ok final ∧ Tracks (done ++ nodes) final := by
  induction nodes generalizing done state with
  | nil => exact ⟨state,rfl,by rwa [append_nil]⟩
  | cons node nodes ih =>
    obtain ⟨first,others⟩ := forall_mem_cons.mp each
    obtain ⟨next,stepped,kept⟩ := first done state tracks
    obtain ⟨final,folded,last⟩ := ih others kept
    rw [append_assoc] at last
    rw [foldlM_cons,stepped]
    exact ⟨final,folded,last⟩

theorem Value.fold_tracks {σ : Type} {value : Value} {step : σ → Fields → Except Fault σ} {start : σ}
    {Tracks : List Fields → σ → Prop} (complete : value.trace.fault = none)
    (each : ∀ node ∈ value.trace.nodes, ∀ done state, Tracks done state →
      ∃ next, step state node = .ok next ∧ Tracks (done ++ [node]) next) (tracks : Tracks [] start) :
    ∃ final, value.fold step start = .ok final ∧ Tracks value.trace.nodes final := by
  rw [Value.fold_eq complete]
  exact foldlM_tracks each tracks

theorem Value.foldOf_tracks {σ : Type} {value : Value} {types : List String} {step : σ → Fields → Except Fault σ}
    {start : σ} {Tracks : List Fields → σ → Prop} (complete : value.trace.fault = none)
    (typed : ∀ node ∈ value.trace.nodes, node.Typed)
    (each : ∀ node ∈ value.trace.nodes, isOf types node = true → ∀ done state, Tracks done state →
      ∃ next, step state node = .ok next ∧ Tracks (done ++ [node]) next) (tracks : Tracks [] start) :
    ∃ final, value.foldOf types step start = .ok final ∧ Tracks (value.trace.nodes.filter (isOf types)) final := by
  let Kept (done : List Fields) (state : σ) : Prop := Tracks (done.filter (isOf types)) state
  refine @fold_tracks σ value _ start Kept complete ?_ tracks
  intro node member done state kept
  obtain ⟨type,own⟩ := typed node member
  rw [own]
  change ∃ next, (if types.contains type = true then _ else _) = _ ∧ _
  rw [← isOf_eq own types]
  simp only [Kept,filter_append]
  cases sort : isOf types node with
  | false => exact ⟨state,rfl,by simpa [sort] using kept⟩
  | true =>
    obtain ⟨next,stepped,later⟩ := each node member sort _ state kept
    exact ⟨next,stepped,by simpa [sort] using later⟩

end SolReader
