import Mathlib.Data.List.Nodup
import SolReader.Proofs.Prediction.Ways

namespace SolReader

namespace Rule

variable {marked : Option Rule}

-- The end of one rule can be the end of the other; the mark notes whether a call of `marked` without a level was left.
def Follows (marked : Option Rule) (one two : Rule × Bool) : Prop :=
  ∃ site level, (site,level) ∈ one.1.callers ∧ site.after.ends = true ∧
    two = (site.rule,one.2 || (level == 0 && marked == some one.1))

theorem nodup_eraseDups {α : Type} [BEq α] [LawfulBEq α] (as : List α) : as.eraseDups.Nodup := by
  cases as with
  | nil => exact List.nodup_nil
  | cons a as =>
    rw [List.eraseDups_cons]
    refine List.nodup_cons.mpr ⟨?_,nodup_eraseDups _⟩
    simp
termination_by as.length
decreasing_by
  simp only [List.length_cons]
  exact Nat.lt_succ_of_le (List.length_filter_le ..)

theorem mem_reached {frontier : List (Rule × Bool)} : two ∈ (frontier.flatMap fun (rule,mark) =>
      (rule.callers.filter fun (site,_) => (Label.after site).ends).map fun (site,level) =>
        (site.rule,mark || (level == 0 && marked == some rule))) ↔ ∃ one ∈ frontier, Follows marked one two := by
  constructor
  · intro member
    obtain ⟨⟨rule,mark⟩,listed,inside⟩ := List.mem_flatMap.mp member
    obtain ⟨⟨site,level⟩,calls,rfl⟩ := List.mem_map.mp inside
    obtain ⟨calls,ends⟩ := List.mem_filter.mp calls
    exact ⟨_,listed,site,level,calls,ends,rfl⟩
  · rintro ⟨⟨rule,mark⟩,listed,site,level,calls,ends,rfl⟩
    exact List.mem_flatMap.mpr ⟨_,listed,List.mem_map.mpr ⟨(site,level),List.mem_filter.mpr ⟨calls,ends⟩,rfl⟩⟩

section Ends

variable {marked : Option Rule} {all : List (Rule × Bool)}
  (within : ∀ one ∈ all, ∀ two, Follows marked one two → two ∈ all)

include within

-- As long as there is something new the list grows, and it has no room for more than all the pairs.
theorem endsFrom_closed {frontier : List (Rule × Bool)} {seen : List (Rule × Bool)} (distinct : seen.Nodup)
    (inside : ∀ one ∈ seen, one ∈ all) (begun : ∀ one ∈ frontier, one ∈ seen)
    (done : ∀ one ∈ seen, one ∉ frontier → ∀ two, Follows marked one two → two ∈ seen)
    (enough : all.length < seen.length + fuel) : (∀ one ∈ seen, one ∈ endsFrom marked fuel frontier seen) ∧
      ∀ one ∈ endsFrom marked fuel frontier seen, ∀ two, Follows marked one two →
        two ∈ endsFrom marked fuel frontier seen := by
  induction fuel generalizing frontier seen with
  | zero =>
    have fewer := distinct.length_le_of_subset inside
    omega
  | succ fuel ih =>
    rw [endsFrom]
    generalize reached_eq : (frontier.flatMap fun (rule,mark) =>
      (rule.callers.filter fun (site,_) => (Label.after site).ends).map fun (site,level) =>
        (site.rule,mark || (level == 0 && marked == some rule))) = reached
    have mem_reached (two : Rule × Bool) : two ∈ reached ↔ ∃ one ∈ frontier, Follows marked one two := by
      rw [← reached_eq]
      exact mem_reached
    have mem_fresh (two : Rule × Bool) : two ∈ (reached.eraseDups).filter (fun rule => !seen.contains rule) ↔
        two ∈ reached ∧ two ∉ seen := by
      simp [List.mem_filter]
    generalize fresh_eq : (reached.eraseDups).filter (fun rule => !seen.contains rule) = fresh at mem_fresh
    -- whatever follows something seen is seen already or fresh
    have next (one : Rule × Bool) (listed : one ∈ seen) (two : Rule × Bool) (follows : Follows marked one two) :
        two ∈ seen ∨ two ∈ fresh := by
      by_cases begin : one ∈ frontier
      · by_cases known : two ∈ seen
        · exact .inl known
        · exact .inr ((mem_fresh two).mpr ⟨(mem_reached two).mpr ⟨one,begin,follows⟩,known⟩)
      · exact .inl (done one listed begin two follows)
    split
    · rename_i nothing
      rw [List.isEmpty_iff] at nothing
      refine ⟨fun one listed => listed,fun one listed two follows => ?_⟩
      exact (next one listed two follows).resolve_right (by simp [nothing])
    · rename_i something
      have grown : (seen ++ fresh).Nodup := by
        refine List.nodup_append.mpr ⟨distinct,fresh_eq ▸ (nodup_eraseDups reached).filter _,?_⟩
        rintro one listed _ added rfl
        exact ((mem_fresh one).mp added).2 listed
      have more : 0 < fresh.length := List.length_pos_iff.mpr (by simpa using something)
      obtain ⟨kept,closed⟩ := ih grown
        (List.forall_mem_append.mpr ⟨inside,fun two added => by
          obtain ⟨one,begin,follows⟩ := (mem_reached two).mp ((mem_fresh two).mp added).1
          exact within one (inside one (begun one begin)) two follows⟩)
        (fun one added => List.mem_append_right _ added)
        (fun one listed old two follows => by
          rcases List.mem_append.mp listed with known | added
          · exact List.mem_append.mpr (next one known two follows)
          · exact absurd added old)
        (by rw [List.length_append]; omega)
      exact ⟨fun one listed => kept one (List.mem_append_left _ listed),closed⟩

end Ends

theorem endsFrom_start {all : List (Rule × Bool)}
    (inside : (rule,false) ∈ all) (within : ∀ one ∈ all, ∀ two, Follows marked one two → two ∈ all)
    (enough : all.length ≤ fuel) : (rule,false) ∈ endsFrom marked fuel [(rule,false)] [(rule,false)] ∧
      ∀ one ∈ endsFrom marked fuel [(rule,false)] [(rule,false)], ∀ two, Follows marked one two →
        two ∈ endsFrom marked fuel [(rule,false)] [(rule,false)] := by
  have room : all.length < [(rule,false)].length + fuel := by
    rw [List.length_singleton]
    omega
  obtain ⟨kept,closed⟩ := endsFrom_closed within (List.nodup_singleton _)
    (fun one listed => List.mem_singleton.mp listed ▸ inside) (fun one listed => listed)
    (fun one listed old => absurd listed old) room
  exact ⟨kept _ (List.mem_singleton_self _),closed⟩

-- The ends that `outward` looks at.
def outerEnds (marked : Option Rule) (rule : Rule) : List (Rule × Bool) :=
  endsFrom marked (2 * Rule.all.length) [(rule,false)] [(rule,false)]

theorem outerEnds_closed (marked : Option Rule) (rule : Rule) : (rule,false) ∈ outerEnds marked rule ∧
    ∀ one ∈ outerEnds marked rule, ∀ two, Follows marked one two → two ∈ outerEnds marked rule := by
  have every (pair : Rule × Bool) : pair ∈ Rule.all.flatMap fun rule => [(rule,false),(rule,true)] := by
    obtain ⟨rule,mark⟩ := pair
    exact List.mem_flatMap.mpr ⟨rule,Rule.mem_all rule,by cases mark <;> simp⟩
  exact endsFrom_start (every _) (fun _ _ two _ => every two) (by simp [List.length_flatMap]; omega)

end Rule

namespace Reach

variable {rule : Rule} {sites under : List Label} {head : Head}

-- After the end of a rule a head is met behind one of its callers, or behind a caller of that.
inductive Leaves (marked : Option Rule) : Rule → List Label → Bool → Head → List Label → Prop where
  | here {rule : Rule} {site : Label} {sites under : List Label} {level : Nat} {head : Head}
      (calls : (site,level) ∈ rule.callers) (enters : site.after.Enters sites head under) :
      Leaves marked rule (site :: sites) (level == 0 && marked == some rule) head under
  | up {rule : Rule} {site : Label} {sites under : List Label} {level : Nat} {mark : Bool} {head : Head}
      (calls : (site,level) ∈ rule.callers) (ends : site.after.ends = true)
      (leaves : Leaves marked site.rule sites mark head under) :
      Leaves marked rule (site :: sites) ((level == 0 && marked == some rule) || mark) head under

theorem Meets.leaves (marked : Option Rule)
    (linked : Linked base rule (site :: sites)) (meets : site.after.Meets 0 sites head under) :
    ∃ mark, Leaves marked rule (site :: sites) mark head under := by
  induction sites generalizing rule site with
  | nil =>
    obtain ⟨_,calls⟩ := linked.1
    cases meets with
    | own member _ => exact ⟨_,.here calls (.own member)⟩
    | call member enters => exact ⟨_,.here calls (.call member enters)⟩
  | cons next sites ih =>
    obtain ⟨_,calls⟩ := linked.1
    cases meets with
    | own member _ => exact ⟨_,.here calls (.own member)⟩
    | call member enters => exact ⟨_,.here calls (.call member enters)⟩
    | up ends meets =>
      obtain ⟨mark,leaves⟩ := ih linked.2 meets
      exact ⟨_,.up calls ends leaves⟩

-- If no call without a level was left, the rule was left through calls that complete a round of it, and those do not
-- matter for what a round of the rule reads.
theorem Leaves.same_round
    (leaves : Leaves (some rule) rule sites mark head under) (unmarked : mark = false) {kinds : List Kind}
    (round : head.label.isRound = true) (own : head.label.rule = rule)
    (reads : head.label.after.Reads 0 under kinds) : head.label.after.Reads 0 sites kinds := by
  have closing {site : Label} {level : Nat} (calls : (site,level) ∈ rule.callers)
      (leveled : (level == 0 && some rule == some rule) = false) : site.isClosing = true ∧ site.rule = rule := by
    obtain ⟨same,closes⟩ := Rule.caller_facts calls
    have closes := closes (by simpa using leveled)
    exact ⟨closes,same closes⟩
  generalize marked_eq : some rule = marked at leaves
  generalize current_eq : rule = current at leaves
  induction leaves with
  | here calls enters =>
    subst marked_eq current_eq
    obtain ⟨closes,same⟩ := closing calls unmarked
    obtain ⟨_,calls,_⟩ := Label.steady _ |>.looping (Label.steady _ |>.closing closes)
    cases enters with
    | own member => exact reads.alike (.unfold _ round closes (same.trans own.symm))
    | call member _ => simp [calls] at member
  | up calls ends _ ih =>
    subst marked_eq current_eq
    rw [Bool.or_eq_false_iff] at unmarked
    obtain ⟨closes,same⟩ := closing calls unmarked.1
    exact (ih unmarked.2 round own reads same.symm).alike (.unfold _ round closes (same.trans own.symm))

end Reach

theorem Stacks.covers_call {pending : Stacks} (site : Label) (covers : pending.Covers sites) :
    (pending.call site).Covers (site :: sites) :=
  covers_push.mpr (.inl ⟨sites,rfl,covers⟩)

theorem Label.kinds_final (rule : Rule) : (Label.final rule).kinds = ∅ := by
  refine entry_unmarked ∅ ?_ fun marked => marked.proper ?_
  · intro todo label entry row
    obtain ⟨_,first,same⟩ := Option.map_eq_some_iff.mp row
    cases same
    exact first
  · have final := Config.isFinal_spent default rule
    simpa [Config.isFinal,Config.spent] using final

namespace Config

variable {configs : List Config} {under : List Label} {reach : Reach} {pending : Stacks}

-- The kinds are those of the label.
def Genuine (config : Config) : Prop :=
  config.kinds = config.label.kinds

-- The way stands at the label, under open stacks one of which stands for the given one.
structure Leads (config : Config) (label : Label) (under : List Label) (mark : Bool) : Prop where
  label : config.label = label
  covers : config.pending.Covers under
  lifted : mark = true → config.lifted = true

theorem gather_genuine (genuine : ∀ config ∈ configs, config.Genuine) :
    ∀ config ∈ gather isOpen configs, config.Genuine :=
  gather_keeps (fun _ _ _ left _ => left) genuine

theorem gather_leads (member : config ∈ configs) {label : Label} (leads : config.Leads label under mark) :
    ∃ found ∈ gather true configs, found.Leads label under mark ∧ found.option = config.option ∧
      found.guard = config.guard := by
  have joins (left right : Config) (same : left.sameWay right = true) (_ : True) (_ : True)
      (either : (left.Leads label under mark ∧ left.option = config.option ∧ left.guard = config.guard) ∨
        (right.Leads label under mark ∧ right.option = config.option ∧ right.guard = config.guard)) :
      (left.join true right).Leads label under mark ∧ (left.join true right).option = config.option ∧
        (left.join true right).guard = config.guard := by
    simp only [sameWay,Bool.and_eq_true,beq_iff_eq] at same
    rcases either with ⟨leads,option,guard⟩ | ⟨leads,option,guard⟩
    · refine ⟨⟨leads.label,Stacks.covers_union (.inl leads.covers),fun marked => ?_⟩,option,guard⟩
      simp [join,leads.lifted marked]
    · refine ⟨⟨same.1.1.trans leads.label,Stacks.covers_union (.inr leads.covers),fun marked => ?_⟩,
        same.1.2.trans option,same.2.trans guard⟩
      simp [join,leads.lifted marked]
  exact gather_finds (fun _ _ _ _ _ => trivial) joins (fun _ _ => trivial) member ⟨leads,rfl,rfl⟩

theorem enter_genuine {way : Config} (located : reach.Located rule)
    (member : next ∈ way.enter reach pending) : next.Genuine := by
  have comes : Comes rule way reach pending next := comes_of_enter located member
  cases comes with
  | going same _ kinds _ =>
    rw [same]
    exact kinds.symm
  | ended same _ _ =>
    rw [same]
    exact (Label.kinds_final rule).symm

theorem enter_leads (enters : reach.Enters sites head under)
    (covers : pending.Covers sites) (kept : pending.allTops Label.isClosing = false) (way : Config) :
    ∃ pending', pending'.Covers under ∧ way.atHead pending' head ∈ way.enter reach pending := by
  cases enters with
  | own member => exact ⟨pending,covers,mem_enter_own member (.inr kept)⟩
  | call member enters =>
    obtain ⟨pending',inside,found⟩ := mem_descendAll_of_call Stacks.covers_call member enters covers way
    exact ⟨pending',inside,List.mem_append_right _ found⟩

end Config

namespace Rule

open Config (Leads)

variable {marked : Option Rule} {start rule : Rule} {mark known : Bool} {sites under : List Label} {head : Head}

-- The ways that lead out from one of the ends.
def outwardFrom (marked : Option Rule) (rule : Rule) (mark : Bool) : List Config :=
  let blank : Config := ⟨0,∅,0,none,.empty,true,false⟩
  if rule.callers.isEmpty then [{ blank with label := .final rule, lifted := mark }]
  else rule.callers.flatMap fun (site,level) =>
    { blank with lifted := mark || (level == 0 && marked == some rule) }.enter (Label.after site) .empty

theorem outward_eq (marked : Option Rule) (rule : Rule) :
    outward marked rule = (outerEnds marked rule).flatMap fun (rule,mark) => outwardFrom marked rule mark := rfl

theorem outward_genuine (member : config ∈ outward marked rule) : config.Genuine := by
  rw [outward_eq] at member
  obtain ⟨⟨rule,mark⟩,_,inside⟩ := List.mem_flatMap.mp member
  simp only [outwardFrom] at inside
  split at inside
  · cases List.mem_singleton.mp inside
    exact (Label.kinds_final rule).symm
  · obtain ⟨⟨site,level⟩,_,entered⟩ := List.mem_flatMap.mp inside
    exact Config.enter_genuine site.after_located entered

theorem outwardFrom_leads (calls : (site,level) ∈ rule.callers)
    (enters : site.after.Enters sites head under) : ∃ config ∈ outwardFrom marked rule known,
      config.Leads head.label under (known || (level == 0 && marked == some rule)) ∧ config.guard = none := by
  have filled : rule.callers.isEmpty = false := by
    rw [List.isEmpty_eq_false_iff]
    exact List.ne_nil_of_mem calls
  let way : Config := ⟨0,∅,0,none,.empty,true,known || (level == 0 && marked == .some rule)⟩
  obtain ⟨pending,covers,found⟩ := Config.enter_leads enters (Stacks.covers_empty sites) rfl way
  refine ⟨way.atHead pending head,?_,⟨rfl,covers,fun lifted => lifted⟩,rfl⟩
  rw [outwardFrom,if_neg (by simp [filled])]
  exact List.mem_flatMap.mpr ⟨_,calls,found⟩

theorem outward_leads (leaves : Reach.Leaves marked rule sites mark head under)
    (reached : (rule,known) ∈ outerEnds marked start) :
    ∃ config ∈ outward marked start, config.Leads head.label under (known || mark) ∧ config.guard = none := by
  induction leaves generalizing known with
  | here calls enters =>
    obtain ⟨config,member,found⟩ := outwardFrom_leads calls enters
    exact ⟨config,outward_eq marked start ▸ List.mem_flatMap.mpr ⟨_,reached,member⟩,found⟩
  | up calls ends _ ih =>
    rw [← Bool.or_assoc]
    exact ih ((outerEnds_closed marked start).2 _ reached _ ⟨_,_,calls,ends,rfl⟩)

theorem outward_ends {base : Rule} (outermost : base.callers = []) (linked : Linked base rule sites) {reach : Reach}
    (finishes : reach.Finishes sites) (reached : (rule,known) ∈ outerEnds marked start) :
    ∃ config ∈ outward marked start, config.Leads (.final base) [] false ∧ config.guard = none := by
  induction sites generalizing rule reach known with
  | nil =>
    have same : rule = base := linked
    subst same
    refine ⟨⟨.final rule,∅,0,none,.empty,true,known⟩,?_,⟨rfl,Stacks.covers_empty [],nofun⟩,rfl⟩
    rw [outward_eq]
    refine List.mem_flatMap.mpr ⟨_,reached,?_⟩
    simp [outwardFrom,outermost]
  | cons site sites ih =>
    obtain ⟨⟨level,calls⟩,linked⟩ := linked
    cases finishes with
    | up _ finishes =>
      exact ih linked finishes ((outerEnds_closed marked start).2 _ reached _ ⟨_,_,calls,finishes.ends,rfl⟩)

theorem outwardTable_eq (rule : Rule) : outwardTable.getD rule.ctorIdx [] = Config.gather true (outward none rule) := by
  rw [outwardTable,Array.getD_eq_getD_getElem?,List.getElem?_toArray,List.getElem?_map,Rule.all_at]
  rfl

end Rule

end SolReader
