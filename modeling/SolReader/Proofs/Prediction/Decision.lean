import SolReader.Proofs.Grammar.Place

namespace SolReader

open List

-- One row of a table: the entry of the place is put under its label.
def Grammar.fill {α : Type} (row? : Todo → Option (Label × α)) (table : Array α) (todo : Todo) : Array α :=
  match row? todo with
  | some (label,entry) => table.setIfInBounds (label % Label.span) entry
  | none => table

theorem Grammar.tabulate_eq {α : Type} (default : α) (row? : Todo → Option (Label × α)) :
    Grammar.tabulate default row? = (Rule.all.map fun rule =>
      (rule.form.places []).foldl (Grammar.fill row?) (Array.replicate Label.span default)).toArray := rfl

section Fill

variable {α : Type} (row? : Todo → Option (Label × α))

-- Where the places have their entries.
def Grammar.slots (todos : List Todo) : List Nat :=
  todos.filterMap fun todo => (row? todo).map fun row => row.1 % Label.span

theorem Grammar.fill_other (absent : slot ∉ Grammar.slots row? todos)
    (table : Array α) : (todos.foldl (Grammar.fill row?) table)[slot]? = table[slot]? := by
  induction todos generalizing table with
  | nil => rfl
  | cons todo rest ih =>
    rw [slots,filterMap_cons] at absent
    rw [foldl_cons,fill]
    cases row : row? todo with
    | none =>
      simp only [row,Option.map_none] at absent
      exact ih absent table
    | some pair =>
      obtain ⟨other,entry⟩ := pair
      simp only [row,Option.map_some,mem_cons,not_or] at absent
      rw [ih absent.2]
      exact Array.getElem?_setIfInBounds_ne (fun same => absent.1 same.symm)

theorem Grammar.fill_own (distinct : (Grammar.slots row? todos).Nodup)
    (member : todo ∈ todos) {entry : α} (row : row? todo = some (label,entry)) {table : Array α}
    (bound : label % Label.span < table.size) :
    (todos.foldl (Grammar.fill row?) table)[label % Label.span]? = some entry := by
  induction todos generalizing table with
  | nil => cases member
  | cons first rest ih =>
    rw [slots,filterMap_cons] at distinct
    rw [foldl_cons]
    rcases mem_cons.mp member with rfl | later
    · simp only [row,Option.map_some,nodup_cons] at distinct
      rw [fill_other row? distinct.1,fill,row]
      simp [bound]
    · have tail : (Grammar.slots row? rest).Nodup := by
        cases own : row? first with
        | none => simpa [own,slots] using distinct
        | some pair =>
          simp only [own,Option.map_some,nodup_cons] at distinct
          exact distinct.2
      refine ih tail later ?_
      rw [fill]
      split
      · simpa using bound
      · exact bound

theorem Grammar.entry_own {rule : Rule} (distinct : (Grammar.slots row? (rule.form.places [])).Nodup)
    (member : todo ∈ rule.form.places []) (own : label / Label.span = rule.ctorIdx) {entry : α}
    (row : row? todo = some (label,entry)) (default : α) :
    Grammar.entry (Grammar.tabulate default row?) label default = entry := by
  have bound : label % Label.span < (Array.replicate Label.span default).size := by
    rw [Array.size_replicate]
    exact Nat.mod_lt _ (by decide)
  have found := Grammar.fill_own row? distinct member row bound
  have row : (Grammar.tabulate default row?).getD rule.ctorIdx #[] =
      (rule.form.places []).foldl (Grammar.fill row?) (Array.replicate Label.span default) := by
    rw [Grammar.tabulate_eq,Array.getD_eq_getD_getElem?,List.getElem?_toArray,List.getElem?_map,Rule.all_at]
    rfl
  rw [Grammar.entry,own,row,Array.getD_eq_getD_getElem?,found]
  rfl

end Fill

-- The lists of forms that the options of a place lead to.
def Todo.options : Todo → List Todo
  | .choice _ options :: rest => options.map (· :: rest)
  | .optional _ body :: rest => [body :: rest,rest]
  | .loop _ entry back body :: rest => [body :: .loop .again entry back body :: rest,rest]
  | _ => []

namespace Decision

variable {rest : Todo} {body : Form Label}

-- The label under which the decision of a place is kept; a loop is decided under the label of its entry.
def key? (todo : Todo) : Option Label :=
  (ofTodo? todo).map Prod.fst

def keys (rule : Rule) : List Label :=
  (rule.form.places []).filterMap key?

theorem keys_checked : ∀ rule : Rule, (
    decide ((keys rule).map (· % Label.span)).Nodup && (keys rule).all (· / Label.span == rule.ctorIdx)) = true := by
  decide

-- What the table of the decisions has in its rows.
def row? (todo : Todo) : Option (Label × Option Decision) :=
  (ofTodo? todo).map fun (label,decision) => (label,some decision)

theorem table_eq : table = Grammar.tabulate none row? := rfl

theorem get_of_place (place : todo ∈ Grammar.places) {decision : Decision}
    (made : ofTodo? todo = some (label,decision)) : Decision.get label = decision := by
  obtain ⟨rule,_,member⟩ := mem_flatMap.mp place
  have checked := keys_checked rule
  rw [Bool.and_eq_true] at checked
  have slots : Grammar.slots row? (rule.form.places []) = (keys rule).map (· % Label.span) := by
    rw [keys,map_filterMap]
    refine congrArg (List.filterMap · (rule.form.places [])) (funext fun todo => ?_)
    simp [row?,key?,Function.comp_def]
  have distinct : (Grammar.slots row? (rule.form.places [])).Nodup := slots ▸ of_decide_eq_true checked.1
  have listed : label ∈ keys rule := mem_filterMap.mpr ⟨todo,member,by simp [key?,made]⟩
  have own : label / Label.span = rule.ctorIdx := by simpa using all_eq_true.mp checked.2 label listed
  have row : row? todo = some (label,some decision) := by simp [row?,made]
  rw [get,table_eq,Grammar.entry_own row? distinct member own row]
  rfl

-- What is kept under the label of a place is a decision between the options of that place.
def Between (decision : Decision) (options : List Todo) : Prop :=
  ∃ rule isRecursive, decision = make rule isRecursive (options.map Todo.reach)

theorem get_choice {options : List (Form Label)} (place : .choice label options :: rest ∈ Grammar.places) :
    (Decision.get label).Between (Todo.options (.choice label options :: rest)) := by
  refine ⟨label.rule,false,?_⟩
  rw [get_of_place place rfl]
  simp [Todo.options,Function.comp_def]

theorem get_optional (place : .optional label body :: rest ∈ Grammar.places) :
    (Decision.get label).Between (Todo.options (.optional label body :: rest)) :=
  ⟨label.rule,false,get_of_place place rfl⟩

theorem get_loop {rounds : Rounds} (place : .loop .again entry back body :: rest ∈ Grammar.places) :
    (Decision.get entry).Between (Todo.options (.loop rounds entry back body :: rest)) :=
  ⟨entry.rule,_,get_of_place place rfl⟩

end Decision

end SolReader
