import SolReader.Proofs.Prediction.Decision

namespace SolReader

open List Bool

variable {α : Type} {rule : Rule} {label site : Label} {todo : Todo} {level : Nat}

namespace Form

mutual

-- The rules that can be called before a token is taken.
def leading {α : Type} : Form α → List Rule
  | .call _ rule _ => [rule]
  | .seq first second => first.leading ++ (if (first.next Rule.next).ends then second.leading else [])
  | .choice _ options => allLeading options
  | .optional _ body => body.leading
  | .loop _ _ _ body => body.leading
  | .token _ _ | .oneOf _ _ | .wrap _ _ | .skip => []

def allLeading {α : Type} : List (Form α) → List Rule
  | [] => []
  | form :: forms => form.leading ++ allLeading forms

end

-- Two ways of reaching into a rule agree, also on whether the rule can be empty.
def Settled (one two : Rule → Reach) (rule : Rule) : Prop :=
  one rule = two rule ∧ (one rule).ends = rule.next.ends

section Steady

variable {one two : Rule → Reach}

mutual

theorem reach_steady : (form : Form Label) → (∀ rule ∈ form.leading, Settled one two rule) →
    form.reach one = form.reach two ∧ (form.reach one).ends = (form.next Rule.next).ends
  | .token _ _, _ => by
    rw [reach,reach,next]
    exact ⟨rfl,rfl⟩
  | .oneOf _ _, _ => by
    rw [reach,reach,next]
    exact ⟨rfl,rfl⟩
  | .wrap _ _, _ => by
    rw [reach,reach,next]
    exact ⟨rfl,rfl⟩
  | .skip, _ => by
    rw [reach,reach,next]
    exact ⟨rfl,rfl⟩
  | .call label rule level, agree => by
    obtain ⟨same,ends⟩ := agree rule (by simp [leading])
    rw [reach,reach,next,same]
    exact ⟨rfl,same ▸ ends⟩
  | .seq first second, agree => by
    rw [leading] at agree
    obtain ⟨same,ends⟩ := reach_steady first fun rule member => agree rule (mem_append_left _ member)
    rw [reach_seq,reach_seq,next_seq,← same,Reach.andThen,Reach.andThen,Next.andThen,← ends]
    cases empty : (first.reach one).ends with
    | false => simp [← ends,empty]
    | true =>
      rw [← ends,empty,if_pos rfl] at agree
      obtain ⟨also,spent⟩ := reach_steady second fun rule member => agree rule (mem_append_right _ member)
      rw [if_pos rfl,if_pos rfl,if_pos rfl,← also]
      exact ⟨rfl,spent⟩
  | .choice _ options, agree => by
    rw [leading] at agree
    rw [reach,reach,next]
    exact anyReach_steady options agree
  | .optional _ body, agree => by
    rw [leading] at agree
    obtain ⟨same,_⟩ := reach_steady body agree
    rw [reach,reach,next,same]
    exact ⟨rfl,by simp [Reach.orElse,Reach.ends,Reach.nothing,Next.orElse,Next.nothing]⟩
  | .loop .atLeastOne _ _ body, agree => by
    rw [leading] at agree
    rw [reach,reach,next]
    exact reach_steady body agree
  | .loop .many _ _ body, agree => by
    rw [leading] at agree
    obtain ⟨same,_⟩ := reach_steady body agree
    rw [reach,reach,next,same]
    · exact ⟨rfl,by simp [Reach.orElse,Reach.ends,Reach.nothing,Next.orElse,Next.nothing]⟩
    all_goals exact fun same => nomatch same
  | .loop .again _ _ body, agree => by
    rw [leading] at agree
    obtain ⟨same,_⟩ := reach_steady body agree
    rw [reach,reach,next,same]
    · exact ⟨rfl,by simp [Reach.orElse,Reach.ends,Reach.nothing,Next.orElse,Next.nothing]⟩
    all_goals exact fun same => nomatch same

theorem anyReach_steady : (forms : List (Form Label)) → (∀ rule ∈ allLeading forms, Settled one two rule) →
    anyReach one forms = anyReach two forms ∧ (anyReach one forms).ends = (anyNext Rule.next forms).ends
  | [], _ => by
    rw [anyReach,anyReach,anyNext]
    exact ⟨rfl,rfl⟩
  | form :: forms, agree => by
    rw [allLeading] at agree
    obtain ⟨same,ends⟩ := reach_steady form fun rule member => agree rule (mem_append_left _ member)
    obtain ⟨also,spent⟩ := anyReach_steady forms fun rule member => agree rule (mem_append_right _ member)
    rw [anyReach,anyReach,anyNext,← same,← also]
    refine ⟨rfl,?_⟩
    change ((form.reach one).ends || (anyReach one forms).ends) = _
    rw [ends,spent]
    rfl

end

end Steady

end Form

namespace Rule

-- Whether there is a chain of so many rules that begin with each other.
def chained : (count : Nat) → Rule → Bool
  | 0, _ => true
  | count + 1, rule => rule.form.leading.any (chained count)

theorem chains_checked : ∀ rule : Rule, (!chained 12 rule) = true := by
  decide

theorem ends_checked : ∀ rule : Rule, ((rule.form.next Rule.next).ends == rule.next.ends) = true := by
  decide

theorem reachWithin_steady {count : Nat} (more : Nat) (short : chained count rule = false) :
    Form.Settled (reachWithin (count + more)) (reachWithin (count + more + 1)) rule := by
  induction count generalizing rule with
  | zero => simp [chained] at short
  | succ count ih =>
    rw [chained,any_eq_false] at short
    have body := Form.reach_steady rule.form fun other member => ih (eq_false_iff.mpr (short other member))
    have same : (rule.form.next Rule.next).ends = rule.next.ends := by
      simpa using ends_checked rule
    rw [same] at body
    rw [Nat.add_right_comm]
    exact body

theorem reach_table (rule : Rule) : rule.reach = reachWithin Rule.all.length rule := by
  rw [reach,reachTable,Array.getD_eq_getD_getElem?,List.getElem?_toArray,List.getElem?_map,Rule.all_at]
  rfl

-- The reach of a rule is worked out from the reaches of the rules it begins with.
theorem reach_eq (rule : Rule) : rule.reach = rule.form.reach Rule.reach := by
  have short : chained 12 rule = false := by
    simpa using chains_checked rule
  have settled := (reachWithin_steady (Rule.all.length - 12) short).1
  have deep : 12 + (Rule.all.length - 12) = Rule.all.length := rfl
  rw [deep] at settled
  have all : reachWithin Rule.all.length = Rule.reach := funext fun rule => (reach_table rule).symm
  rw [reach_table,settled,reachWithin,all]

end Rule

namespace Todo

-- The label of a token or a call that comes first.
def mark? : Todo → Option Label
  | .token label _ :: _ | .oneOf label _ :: _ | .call label _ _ :: _ => some label
  | _ => none

-- The kinds of the token that comes first.
def intake : Todo → KindSet
  | .token _ kind :: _ => .ofList [kind]
  | .oneOf _ kinds :: _ => kinds
  | _ => ∅

end Todo

theorem Grammar.entry_other (row? : Todo → Option (Label × α))
    (own : label / Label.span = rule.ctorIdx) (absent : label % Label.span ∉ Grammar.slots row? (rule.form.places []))
    (default : α) : Grammar.entry (Grammar.tabulate default row?) label default = default := by
  have filled := Grammar.fill_other row? absent (Array.replicate Label.span default)
  have row : (Grammar.tabulate default row?).getD rule.ctorIdx #[] =
      (rule.form.places []).foldl (Grammar.fill row?) (Array.replicate Label.span default) := by
    rw [Grammar.tabulate_eq,Array.getD_eq_getD_getElem?,List.getElem?_toArray,List.getElem?_map,Rule.all_at]
    rfl
  rw [Grammar.entry,own,row,Array.getD_eq_getD_getElem?,filled,Array.getElem?_replicate]
  split <;> rfl

theorem Grammar.entry_outside (row? : Todo → Option (Label × α))
    (outside : Rule.all[label / Label.span]? = none) (default : α) :
    Grammar.entry (Grammar.tabulate default row?) label default = default := by
  have row : (Grammar.tabulate default row?).getD (label / Label.span) #[] = #[] := by
    rw [Grammar.tabulate_eq,Array.getD_eq_getD_getElem?,List.getElem?_toArray,List.getElem?_map,outside]
    rfl
  rw [Grammar.entry,row]
  rfl

theorem Rule.all_nodup : Rule.all.Nodup := by
  decide

namespace Label

variable {label : Label} {α β : Type} {f : α → Option β} {todo : Todo}

def marks (rule : Rule) : List Label :=
  (rule.form.places []).filterMap Todo.mark?

set_option maxRecDepth 100000 in
theorem marks_checked : ∀ rule : Rule, (
    decide ((marks rule).map (· % Label.span)).Nodup && (marks rule).all (· / Label.span == rule.ctorIdx) &&
      (marks rule).all (· % Label.span != Label.span - 1)) = true := by
  decide

theorem rule_eq {rule : Rule} (own : label / Label.span = rule.ctorIdx) : label.rule = rule := by
  rw [Label.rule,own,ruleTable,Array.getD_eq_getD_getElem?,List.getElem?_toArray,Rule.all_at]
  rfl

-- The kinds of the tokens that can be taken at a label.
def kinds (label : Label) : KindSet :=
  Grammar.entry (Grammar.tabulate ∅ fun todo => todo.mark?.map (·,todo.intake)) label ∅

theorem filterMap_sublist {g : α → Option β} (fewer : ∀ a b, f a = some b → g a = some b)
    (as : List α) : (as.filterMap f).Sublist (as.filterMap g) := by
  induction as with
  | nil => exact .slnil
  | cons a as ih =>
    cases found : f a with
    | none =>
      rw [filterMap_cons_none found]
      cases also : g a with
      | none => rwa [filterMap_cons_none also]
      | some b =>
        rw [filterMap_cons_some also]
        exact ih.cons b
    | some b =>
      rw [filterMap_cons_some found,filterMap_cons_some (fewer a b found)]
      exact ih.cons_cons b

theorem filterMap_injective {as : List α} (distinct : (as.filterMap f).Nodup)
    (one : a ∈ as) (two : a' ∈ as) (found : f a = some b) (again : f a' = some b) : a = a' := by
  induction as with
  | nil => cases one
  | cons first as ih =>
    have later {c : α} (listed : c ∈ as) (hit : f c = some b) : b ∈ as.filterMap f :=
      mem_filterMap.mpr ⟨c,listed,hit⟩
    rcases mem_cons.mp one with rfl | listed <;> rcases mem_cons.mp two with rfl | listed'
    · rfl
    · rw [filterMap_cons_some found] at distinct
      exact absurd (later listed' again) (nodup_cons.mp distinct).1
    · rw [filterMap_cons_some again] at distinct
      exact absurd (later listed found) (nodup_cons.mp distinct).1
    · exact ih (distinct.sublist ((sublist_cons_self first as).filterMap f)) listed listed'

theorem after_row {entry : Reach} (row : (match todo with
    | .token label _ :: rest | .oneOf label _ :: rest | .call label _ _ :: rest => some (label,Todo.reach rest)
    | _ => none) = some (label,entry)) : todo.mark? = some label := by
  split at row
  · cases row
    rfl
  · cases row
    rfl
  · cases row
    rfl
  · cases row

theorem closing_row (row : closingCall? todo = some (label,entry)) : todo.mark? = some label := by
  unfold closingCall? at row
  split at row
  · cases row
    rfl
  · cases row

section Marked

variable {rule : Rule} {todo : Todo} {label : Label} (place : todo ∈ rule.form.places [])
  (marked : todo.mark? = some label)

include place marked

theorem marks_facts : ((marks rule).map (· % Label.span)).Nodup ∧ label / Label.span = rule.ctorIdx ∧
    label % Label.span ≠ Label.span - 1 := by
  have checked := marks_checked rule
  rw [and_eq_true,and_eq_true] at checked
  have listed : label ∈ marks rule := mem_filterMap.mpr ⟨todo,place,marked⟩
  refine ⟨of_decide_eq_true checked.1.1,?_,?_⟩
  · simpa using all_eq_true.mp checked.1.2 label listed
  · simpa using all_eq_true.mp checked.2 label listed

theorem rule_of_mark : label.rule = rule :=
  rule_eq (marks_facts place marked).2.1

theorem entry_of_mark {α : Type} (default : α) {row? : Todo → Option (Label × α)}
    (rows : ∀ {todo label entry}, row? todo = some (label,entry) → todo.mark? = some label) :
    Grammar.entry (Grammar.tabulate default row?) label default = ((row? todo).map Prod.snd).getD default := by
  obtain ⟨distinct,own,_⟩ := marks_facts place marked
  rw [marks,map_filterMap] at distinct
  have slot (todo : Todo) (slot : Nat) (found : (row? todo).map (·.1 % Label.span) = some slot) :
      (todo.mark?.map (· % Label.span)) = some slot := by
    obtain ⟨⟨label,entry⟩,row,rfl⟩ := Option.map_eq_some_iff.mp found
    rw [rows row]
    rfl
  cases row : row? todo with
  | some pair =>
    obtain ⟨other,entry⟩ := pair
    cases (rows row).symm.trans marked
    have fewer := filterMap_sublist slot (rule.form.places [])
    exact Grammar.entry_own row? (distinct.sublist fewer) place own row default
  | none =>
    refine Grammar.entry_other row? own (fun present => ?_) default
    obtain ⟨other,listed,found⟩ := mem_filterMap.mp present
    have same : other = todo := filterMap_injective distinct listed place (slot _ _ found) (by rw [marked]; rfl)
    rw [same,row] at found
    cases found

theorem after_eq : label.after = Todo.reach todo.tail := by
  rw [Label.after,afterTable,entry_of_mark place marked]
  · unfold Todo.mark? at marked
    split at marked
    · rfl
    · rfl
    · rfl
    · cases marked
  · exact after_row

theorem kinds_eq : label.kinds = todo.intake := by
  rw [Label.kinds,entry_of_mark place marked,marked]
  · rfl
  · intro todo label entry row
    obtain ⟨_,first,same⟩ := Option.map_eq_some_iff.mp row
    cases same
    exact first

theorem isClosing_eq : label.isClosing = ((closingCall? todo).map Prod.snd).getD false :=
  entry_of_mark place marked false closing_row

end Marked

end Label

namespace Todo

variable {form : Form Label} {rest : Todo} {label : Label}
variable {rule : Rule}

theorem Sited.place (sited : Sited rule (form :: rest)) (named : form.label?.isSome) :
    form :: rest ∈ rule.form.places [] :=
  Form.mem_places sited.mem named

theorem named_of_mark (marked : mark? (form :: rest) = some label) : form.label?.isSome := by
  cases form <;> simp_all [mark?,Form.label?]

theorem sited_option {options : List (Form Label)}
    (sited : Sited rule (.choice label options :: rest)) (member : option ∈ options) : Sited rule (option :: rest) := by
  obtain ⟨inside,after⟩ := sited
  rw [Form.spots] at inside
  exact ⟨fun spot found => inside spot (mem_cons_of_mem _ (Form.mem_allSpots member found)),after⟩

theorem sited_body (sited : Sited rule (.optional label body :: rest)) : Sited rule (body :: rest) := by
  obtain ⟨inside,after⟩ := sited
  rw [Form.spots] at inside
  exact ⟨fun spot member => inside spot (mem_cons_of_mem _ member),after⟩

theorem sited_seq (sited : Sited rule (.seq first second :: rest)) : Sited rule (first :: second :: rest) := by
  obtain ⟨inside,after⟩ := sited
  rw [Form.spots] at inside
  exact ⟨fun spot member => inside spot (by simp [member]),fun spot member => inside spot (by simp [member]),after⟩

end Todo

-- A head of a reach and what a call of it leads into are at places of the rule.
structure Reach.Located (rule : Rule) (reach : Reach) : Prop where
  head : ∀ head ∈ reach.heads, ∃ todo, Todo.Sited rule todo ∧ todo.mark? = some head.label ∧ todo.intake = head.kinds
  call : ∀ call ∈ reach.calls, ∃ callee level rest,
    Todo.Sited rule (.call call.1 callee level :: rest) ∧ call.2 = callee.reach

namespace Reach

variable {rule : Rule} {first second : Reach}

theorem Located.andThen (one : first.Located rule) (two : first.ends = true → second.Located rule) :
    (first.andThen second).Located rule := by
  rw [Reach.andThen]
  split
  · rename_i ends
    refine ⟨fun head member => ?_,fun call member => ?_⟩
    · rcases mem_append.mp member with left | right
      · exact one.head head left
      · obtain ⟨other,found,rfl⟩ := mem_map.mp right
        exact (two ends).head other found
    · rcases mem_append.mp member with left | right
      · exact one.call call left
      · exact (two ends).call call right
  · exact one

theorem Located.orElse (one : first.Located rule) (two : second.Located rule) : (first.orElse second).Located rule := by
  refine ⟨fun head member => ?_,fun call member => ?_⟩
  · rcases mem_append.mp member with left | right
    · exact one.head head left
    · exact two.head head right
  · rcases mem_append.mp member with left | right
    · exact one.call call left
    · exact two.call call right

theorem located_blank (ends : Bool) (level : Option Nat) : (Reach.mk [] [] ends level).Located rule :=
  ⟨fun _ member => (nomatch member),fun _ member => (nomatch member)⟩

theorem located_head (sited : Todo.Sited rule todo) {kinds : KindSet}
    (marked : todo.mark? = some label) (taken : todo.intake = kinds) : (Reach.head label kinds).Located rule := by
  refine ⟨fun head member => ?_,fun _ member => (nomatch member)⟩
  cases mem_singleton.mp member
  exact ⟨todo,sited,marked,taken⟩

end Reach

namespace Form

open Reach (located_blank located_head)

variable {rule : Rule}

mutual

theorem reach_located : (form : Form Label) → (rest : Todo) → Todo.Sited rule (form :: rest) →
    (form.reach Rule.reach).Located rule
  | .token label kind, _, sited => by
    rw [reach]
    exact located_head sited rfl rfl
  | .oneOf label kinds, _, sited => by
    rw [reach]
    exact located_head sited rfl rfl
  | .call label callee level, rest, sited => by
    rw [reach]
    refine ⟨fun _ member => (nomatch member),fun call member => ?_⟩
    cases mem_singleton.mp member
    exact ⟨callee,level,rest,sited,rfl⟩
  | .wrap _ _, _, _ => by
    rw [reach]
    exact located_blank ..
  | .skip, _, _ => by
    rw [reach]
    exact located_blank ..
  | .seq first second, rest, sited => by
    have parts := Todo.sited_seq sited
    rw [reach_seq]
    exact (reach_located first _ parts).andThen fun _ => reach_located second _ parts.2
  | .choice _ options, rest, sited => by
    rw [reach]
    exact anyReach_located options rest fun option member => Todo.sited_option sited member
  | .optional _ body, rest, sited => by
    rw [reach]
    exact (reach_located body rest (Todo.sited_body sited)).orElse (located_blank ..)
  | .loop .atLeastOne _ _ body, _, sited => by
    rw [reach]
    exact reach_located body _ (Todo.sited_loop sited)
  | .loop .many _ _ body, _, sited => by
    rw [reach]
    · exact (reach_located body _ (Todo.sited_loop sited)).orElse (located_blank ..)
    all_goals exact fun same => nomatch same
  | .loop .again _ _ body, _, sited => by
    rw [reach]
    · exact (reach_located body _ (Todo.sited_loop sited)).orElse (located_blank ..)
    all_goals exact fun same => nomatch same

theorem anyReach_located : (forms : List (Form Label)) → (rest : Todo) →
    (∀ form ∈ forms, Todo.Sited rule (form :: rest)) → (anyReach Rule.reach forms).Located rule
  | [], _, _ => by
    rw [anyReach]
    exact located_blank ..
  | form :: forms, rest, sited => by
    rw [anyReach]
    exact (reach_located form rest (sited form mem_cons_self)).orElse
      (anyReach_located forms rest fun other member => sited other (mem_cons_of_mem _ member))

end

end Form

theorem Todo.reach_located (sited : Todo.Sited rule todo) : (Todo.reach todo).Located rule := by
  induction todo with
  | nil => exact Reach.located_blank ..
  | cons form rest ih =>
    rw [Todo.reach_cons]
    exact (Form.reach_located form rest sited).andThen fun _ => ih sited.2

theorem Reach.andThen_nothing (reach : Reach) : reach.andThen .nothing = reach := by
  cases reach with
  | mk heads calls ends level =>
    cases ends <;> simp [Reach.andThen,Reach.nothing,Reach.ends,Reach.heads,Reach.calls,Reach.level]

theorem Rule.reach_start (rule : Rule) : Todo.reach [rule.form] = rule.reach := by
  rw [Todo.reach_cons,Todo.reach,Reach.andThen_nothing,← Rule.reach_eq]

theorem Rule.reach_located (rule : Rule) : rule.reach.Located rule := by
  rw [← Rule.reach_start]
  exact Todo.reach_located (Todo.sited_start rule)

theorem Rule.mem_callers {callee : Rule} :
    (site,level) ∈ callee.callers ↔ ∃ rest, .call site callee level :: rest ∈ Grammar.places := by
  rw [callers,callerTable,Array.getD_eq_getD_getElem?,List.getElem?_toArray,List.getElem?_map,Rule.all_at]
  refine mem_reverse.trans (mem_filterMap.trans ?_)
  constructor
  · rintro ⟨todo,place,found⟩
    split at found
    · rename_i label rule bound rest
      split at found
      · rename_i same
        cases found
        cases beq_iff_eq.mp same
        exact ⟨rest,place⟩
      · cases found
    · cases found
  · rintro ⟨rest,place⟩
    exact ⟨_,place,by simp⟩

mutual

theorem Form.sited_places : (form : Form Label) → (rest : Todo) →
    Todo.Sited rule (form :: rest) → todo ∈ form.places rest → Todo.Sited rule todo
  | .token _ _, _, sited, member | .oneOf _ _, _, sited, member | .call _ _ _, _, sited, member
  | .wrap _ _, _, sited, member => mem_singleton.mp member ▸ sited
  | .skip, _, _, member => nomatch member
  | .seq first second, rest, sited, member => by
    have parts := Todo.sited_seq sited
    rcases mem_append.mp member with left | right
    · exact sited_places first _ parts left
    · exact sited_places second _ parts.2 right
  | .choice _ options, rest, sited, member => by
    rcases mem_cons.mp member with rfl | inside
    · exact sited
    · exact sited_allPlaces options rest (fun option listed => Todo.sited_option sited listed) inside
  | .optional _ body, rest, sited, member => by
    rcases mem_cons.mp member with rfl | inside
    · exact sited
    · exact sited_places body rest (Todo.sited_body sited) inside
  | .loop _ _ _ body, rest, sited, member => by
    have round := Todo.sited_loop sited
    rcases mem_cons.mp member with rfl | later
    · exact sited
    · rcases mem_cons.mp later with rfl | inside
      · exact round.2
      · exact sited_places body _ round inside

theorem Form.sited_allPlaces : (forms : List (Form Label)) → (rest : Todo) →
    (∀ form ∈ forms, Todo.Sited rule (form :: rest)) → todo ∈ Form.allPlaces rest forms → Todo.Sited rule todo
  | [], _, _, member => nomatch member
  | form :: forms, rest, sited, member => by
    rcases mem_append.mp member with here | later
    · exact sited_places form rest (sited form mem_cons_self) here
    · exact sited_allPlaces forms rest (fun other listed => sited other (mem_cons_of_mem _ listed)) later

end

theorem Rule.sited_place (place : todo ∈ rule.form.places []) : Todo.Sited rule todo :=
  Form.sited_places rule.form [] (Todo.sited_start rule) place

-- A label of a token or a call of some rule.
def Label.Marked (label : Label) : Prop :=
  ∃ todo, Todo.Sited label.rule todo ∧ todo.mark? = some label

namespace Todo

variable {rule : Rule} {todo : Todo} {label : Label}

theorem Sited.place_of_mark (sited : Sited rule todo) (marked : todo.mark? = some label) :
    todo ∈ rule.form.places [] := by
  cases todo with
  | nil => cases marked
  | cons form rest => exact sited.place (named_of_mark marked)

theorem Sited.tail (sited : Sited rule todo) : Sited rule todo.tail := by
  cases todo with
  | nil => trivial
  | cons form rest => exact sited.2

theorem Sited.marked (sited : Sited rule todo) (marked : todo.mark? = some label) : label.rule = rule ∧ label.Marked := by
  have same := Label.rule_of_mark (sited.place_of_mark marked) marked
  exact ⟨same,todo,same ▸ sited,marked⟩

end Todo

namespace Label

variable {label : Label}

theorem Marked.proper (marked : label.Marked) : label % Label.span ≠ Label.span - 1 := by
  obtain ⟨todo,sited,first⟩ := marked
  exact (marks_facts (sited.place_of_mark first) first).2.2

theorem eq_of_slot (slot : other % Label.span = label % Label.span)
    (own : other / Label.span = label / Label.span) : other = label := by
  rw [← Nat.div_add_mod other Label.span,slot,own,Nat.div_add_mod]

theorem entry_unmarked {α : Type} (default : α) {row? : Todo → Option (Label × α)}
    (rows : ∀ {todo label entry}, row? todo = some (label,entry) → todo.mark? = some label) (unmarked : ¬label.Marked) :
    Grammar.entry (Grammar.tabulate default row?) label default = default := by
  cases found : Rule.all[label / Label.span]? with
  | none => exact Grammar.entry_outside row? found default
  | some rule =>
    have own : label / Label.span = rule.ctorIdx :=
      (List.getElem?_inj (List.getElem?_eq_some_iff.mp found).1 Rule.all_nodup).mp (found.trans rule.all_at.symm)
    refine Grammar.entry_other row? own (fun present => unmarked ?_) default
    obtain ⟨todo,place,slot⟩ := mem_filterMap.mp present
    obtain ⟨⟨other,entry⟩,row,same⟩ := Option.map_eq_some_iff.mp slot
    have equal := eq_of_slot same ((marks_facts place (rows row)).2.1.trans own.symm)
    exact equal ▸ ((Rule.sited_place place).marked (rows row)).2

theorem after_unmarked (unmarked : ¬label.Marked) : label.after = .never := by
  rw [Label.after,afterTable]
  exact entry_unmarked Reach.never after_row unmarked

theorem isClosing_unmarked (unmarked : ¬label.Marked) : label.isClosing = false :=
  entry_unmarked false closing_row unmarked

theorem after_located (label : Label) : label.after.Located label.rule := by
  by_cases marked : label.Marked
  · obtain ⟨todo,sited,first⟩ := marked
    rw [Label.after_eq (sited.place_of_mark first) first]
    exact Todo.reach_located sited.tail
  · rw [after_unmarked marked]
    exact Reach.located_blank ..

end Label

namespace Reach

variable {rule : Rule} {reach : Reach}

theorem Located.of_head (located : reach.Located rule) {head : Head} (member : head ∈ reach.heads) :
    head.label.rule = rule ∧ head.label.Marked ∧ head.label.kinds = head.kinds := by
  obtain ⟨todo,sited,first,taken⟩ := located.head head member
  obtain ⟨same,marked⟩ := sited.marked first
  exact ⟨same,marked,(Label.kinds_eq (sited.place_of_mark first) first).trans taken⟩

theorem Located.of_call {inner : Reach} (located : reach.Located rule) (member : (site,inner) ∈ reach.calls) :
    ∃ (callee : Rule) (level : Nat), (site,level) ∈ callee.callers ∧ inner = callee.reach ∧ site.rule = rule ∧
      site.Marked := by
  obtain ⟨callee,level,rest,sited,same⟩ := located.call _ member
  obtain ⟨own,marked⟩ := sited.marked rfl
  exact ⟨callee,level,Rule.mem_callers.mpr ⟨rest,Grammar.mem_places sited.mem rfl⟩,same,own,marked⟩

end Reach

end SolReader
