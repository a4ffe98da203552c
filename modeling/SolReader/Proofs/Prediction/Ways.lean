import SolReader.Proofs.Prediction.Option
import SolReader.Proofs.Prediction.Reading
import SolReader.Proofs.Prediction.Stacks

namespace SolReader

open List (mem_append mem_append_left mem_append_right mem_cons mem_cons_of_mem mem_cons_self mem_map)

-- Each call is one of the rule above it; the outermost rule is `base`.
def Linked (base : Rule) : Rule → List Label → Prop
  | rule, [] => rule = base
  | rule, site :: sites => (∃ level, (site,level) ∈ rule.callers) ∧ Linked base site.rule sites

-- A call that completes a round calls its own rule, and only such calls ask for a level.
set_option maxRecDepth 100000 in
theorem Grammar.calls_checked : (Grammar.places.all fun
    | .call site rule level :: rest =>
      (!Todo.isClosing (.call site rule level :: rest) || site.rule == rule) &&
        (level == 0 || Todo.isClosing (.call site rule level :: rest))
    | _ => true) = true := by
  decide

theorem Rule.caller_facts {rule : Rule} (calls : (site,level) ∈ rule.callers) :
    (site.isClosing = true → site.rule = rule) ∧ (level ≠ 0 → site.isClosing = true) := by
  obtain ⟨rest,listed⟩ := Rule.mem_callers.mp calls
  obtain ⟨owner,_,place⟩ := List.mem_flatMap.mp listed
  have checked := List.all_eq_true.mp Grammar.calls_checked _ listed
  have closing : site.isClosing = Todo.isClosing (.call site rule level :: rest) := Label.isClosing_eq place rfl
  simp only [← closing,Bool.and_eq_true,Bool.or_eq_true,Bool.not_eq_true',beq_iff_eq] at checked
  refine ⟨fun closes => ?_,fun leveled => checked.2.resolve_left leveled⟩
  exact checked.1.resolve_left (by simp [closes])

namespace Reach

variable {base rule : Rule} {reach : Reach} {sites under : List Label} {head : Head}

theorem Enters.linked (enters : reach.Enters sites head under) (located : reach.Located rule)
    (linked : Linked base rule sites) :
    head.label.Marked ∧ head.label.kinds = head.kinds ∧ Linked base head.label.rule under := by
  induction enters generalizing rule with
  | own member =>
    obtain ⟨rfl,marked,kinds⟩ := located.of_head member
    exact ⟨marked,kinds,linked⟩
  | call member _ ih =>
    obtain ⟨callee,level,calls,rfl,rfl,_⟩ := located.of_call member
    exact ih callee.reach_located ⟨⟨level,calls⟩,linked⟩

theorem Meets.linked {level : Nat} (meets : reach.Meets level sites head under) (located : reach.Located rule)
    (linked : Linked base rule sites) :
    head.label.Marked ∧ head.label.kinds = head.kinds ∧ Linked base head.label.rule under := by
  induction meets generalizing rule with
  | own member _ =>
    obtain ⟨rfl,marked,kinds⟩ := located.of_head member
    exact ⟨marked,kinds,linked⟩
  | call member enters =>
    obtain ⟨callee,level,calls,rfl,rfl,_⟩ := located.of_call member
    exact enters.linked callee.reach_located ⟨⟨level,calls⟩,linked⟩
  | up _ _ ih => exact ih (Label.after_located _) linked.2

end Reach

namespace Config

variable {config : Config} {configs : List Config}

theorem descend_eq (way : Config) (pending : Stacks) (reach : Reach) :
    descend way pending reach = reach.heads.map (way.atHead pending) ++ descendAll way pending reach.calls := by
  cases reach
  rfl

theorem descendAll_eq (way : Config) (pending : Stacks) (calls : List (Label × Reach)) :
    descendAll way pending calls = calls.flatMap fun call => descend way (pending.call call.1) call.2 := by
  induction calls with
  | nil => rfl
  | cons call calls ih =>
    rw [descendAll,ih]
    rfl

-- Goes on from a place whose rule can end there.
def onward (isOpen : Bool) (way : Config) (rule : Rule) (reach : Reach) (pending : Stacks) : List Config :=
  way.enter reach pending ++ if reach.ends then way.leave isOpen rule pending else []

theorem leave_push (isOpen : Bool) (way : Config) (rule : Rule) (site : Label) (below others : Stacks) :
    way.leave isOpen rule (.push site below others) =
      way.onward isOpen site.rule site.after below ++ way.leave isOpen rule others := by
  rw [leave,onward]

section Entering

-- `Holds` may be membership in a set of stacks or being covered by one.
variable {Holds : Stacks → List Label → Prop}
  (push : ∀ {pending : Stacks} {sites : List Label} (site : Label), Holds pending sites →
    Holds (pending.call site) (site :: sites))

include push

theorem mem_descend_of_enters {reach : Reach}
    (enters : reach.Enters sites head under) {pending : Stacks} (held : Holds pending sites) (way : Config) :
    ∃ pending', Holds pending' under ∧ way.atHead pending' head ∈ descend way pending reach := by
  induction enters generalizing pending with
  | own member =>
    refine ⟨pending,held,?_⟩
    rw [descend_eq]
    exact mem_append_left _ (mem_map.mpr ⟨_,member,rfl⟩)
  | @call _ _ _ _ site _ member _ ih =>
    obtain ⟨pending',inside,found⟩ := ih (push site held)
    refine ⟨pending',inside,?_⟩
    rw [descend_eq,descendAll_eq]
    exact mem_append_right _ (List.mem_flatMap.mpr ⟨_,member,found⟩)

theorem mem_descendAll_of_call {inner : Reach}
    (member : (site,inner) ∈ calls) (enters : inner.Enters (site :: sites) head under) {pending : Stacks}
    (held : Holds pending sites) (way : Config) :
    ∃ pending', Holds pending' under ∧ way.atHead pending' head ∈ descendAll way pending calls := by
  obtain ⟨pending',inside,found⟩ := mem_descend_of_enters push enters (push site held) way
  refine ⟨pending',inside,?_⟩
  rw [descendAll_eq]
  exact List.mem_flatMap.mpr ⟨_,member,found⟩

end Entering

mutual

theorem enters_of_mem_descend {pending : Stacks} {reach : Reach}
    (located : reach.Located rule) (member : next ∈ descend way pending reach) :
    ∃ head, next = way.atHead next.pending head ∧ head.label.Marked ∧ head.label.kinds = head.kinds ∧
      ∀ under, next.pending.Has under → ∃ sites, pending.Has sites ∧ reach.Enters sites head under := by
  cases reach with
  | mk heads calls ends level =>
    rw [descend,mem_append] at member
    rcases member with own | called
    · obtain ⟨head,inside,rfl⟩ := mem_map.mp own
      obtain ⟨_,marked,kinds⟩ := located.of_head inside
      exact ⟨head,rfl,marked,kinds,fun under has => ⟨under,has,.own inside⟩⟩
    · obtain ⟨head,same,marked,kinds,site,inner,listed,enters⟩ := enters_of_mem_descendAll located.of_call called
      refine ⟨head,same,marked,kinds,fun under has => ?_⟩
      obtain ⟨sites,below,inside⟩ := enters under has
      exact ⟨sites,below,.call listed inside⟩

theorem enters_of_mem_descendAll {pending : Stacks}
    (located : ∀ {site inner}, (site,inner) ∈ calls → ∃ (callee : Rule) (level : Nat), (site,level) ∈ callee.callers ∧
      inner = callee.reach ∧ site.rule = rule ∧ site.Marked) (member : next ∈ descendAll way pending calls) :
    ∃ head, next = way.atHead next.pending head ∧ head.label.Marked ∧ head.label.kinds = head.kinds ∧
      ∃ site inner, (site,inner) ∈ calls ∧ ∀ under, next.pending.Has under →
        ∃ sites, pending.Has sites ∧ Reach.Enters inner (site :: sites) head under := by
  cases calls with
  | nil => simp [descendAll] at member
  | cons call rest =>
    obtain ⟨site,reach⟩ := call
    rw [descendAll,mem_append] at member
    rcases member with own | later
    · obtain ⟨callee,_,_,same,_⟩ := located mem_cons_self
      have inner : reach.Located callee := same ▸ callee.reach_located
      obtain ⟨head,same,marked,kinds,enters⟩ := enters_of_mem_descend inner own
      refine ⟨head,same,marked,kinds,site,reach,mem_cons_self,fun under has => ?_⟩
      obtain ⟨_,inside,found⟩ := enters under has
      obtain ⟨sites,rfl,below⟩ := Stacks.has_call.mp inside
      exact ⟨sites,below,found⟩
    · obtain ⟨head,same,marked,kinds,site,inner,listed,enters⟩ :=
        enters_of_mem_descendAll (fun member => located (mem_cons_of_mem _ member)) later
      exact ⟨head,same,marked,kinds,site,inner,mem_cons_of_mem _ listed,enters⟩

end

-- The way that has come to the end of everything.
def spent (way : Config) (base : Rule) : Config :=
  { way with label := .final base, kinds := ∅, pending := .empty }

theorem isFinal_spent (way : Config) (base : Rule) : (way.spent base).isFinal = true := by
  have last : (Label.span * base.ctorIdx + Label.span - 1) % Label.span = Label.span - 1 := by
    rw [Nat.add_sub_assoc (by decide),Nat.mul_add_mod]
    exact Nat.mod_eq_of_lt (by decide)
  simp [isFinal,spent,Label.final,Label.base,last]

theorem mem_insert_of (member : config = way ∨ config ∈ configs) : config ∈ way.insert configs := by
  induction configs with
  | nil => simpa [insert] using member
  | cons next rest ih =>
    rw [insert]
    split
    · exact mem_cons.mpr member
    · rcases member with rfl | member
      · exact mem_cons_of_mem _ (ih (.inl rfl))
      · rcases mem_cons.mp member with rfl | later
        · exact mem_cons_self
        · exact mem_cons_of_mem _ (ih (.inr later))

theorem mem_ordered_of (member : config ∈ configs) : config ∈ configs.foldr insert [] := by
  induction configs with
  | nil => cases member
  | cons first rest ih =>
    refine mem_insert_of ?_
    rcases mem_cons.mp member with rfl | later
    · exact .inl rfl
    · exact .inr (ih later)

-- What holds of a way, and of all that it is joined with, is found again among the gathered ways.
theorem gather_finds {Good Holds : Config → Prop}
    (good : ∀ left right, left.sameWay right → Good left → Good right → Good (left.join isOpen right))
    (joins : ∀ left right, left.sameWay right → Good left → Good right → Holds left ∨ Holds right →
      Holds (left.join isOpen right)) (all : ∀ config ∈ configs, Good config) (member : config ∈ configs)
    (holds : Holds config) : ∃ found ∈ gather isOpen configs, Holds found := by
  have sorted : ∀ config ∈ configs.foldr insert [], Good config := fun config member => all config (mem_ordered member)
  have listed := mem_ordered_of member
  rw [gather]
  generalize configs.foldr insert [] = ordered at sorted listed
  induction ordered generalizing config with
  | nil => cases listed
  | cons first rest ih =>
    have later : ∀ config ∈ rest, Good config := fun config member => sorted config (mem_cons_of_mem _ member)
    have gathered := joinNeighbours_keeps good later
    have found : config = first ∨ ∃ found ∈ joinNeighbours isOpen rest, Holds found :=
      (mem_cons.mp listed).imp_right (ih member holds later)
    have head := sorted first mem_cons_self
    cases joined : joinNeighbours isOpen rest with
    | cons next others =>
      rw [joined] at gathered found
      have second := gathered next mem_cons_self
      rw [joinNeighbours] at joined ⊢
      rw [List.foldr_cons,joined]
      dsimp only
      split
      · rename_i same
        rcases found with rfl | ⟨found,member,good⟩
        · exact ⟨_,mem_cons_self,joins _ next same head second (.inl holds)⟩
        · rcases mem_cons.mp member with rfl | member
          · exact ⟨_,mem_cons_self,joins first _ same head second (.inr good)⟩
          · exact ⟨found,mem_cons_of_mem _ member,good⟩
      · rcases found with rfl | ⟨found,member,good⟩
        · exact ⟨_,mem_cons_self,holds⟩
        · exact ⟨found,mem_cons_of_mem _ member,good⟩
    | nil =>
      rw [joined] at found
      rw [joinNeighbours] at joined ⊢
      rw [List.foldr_cons,joined]
      rcases found with rfl | ⟨found,member,_⟩
      · exact ⟨_,mem_cons_self,holds⟩
      · cases member

section Closed

variable {way next : Config} {reach : Reach} {site label : Label} {rule : Rule} {pending : Stacks} {head : Head}
  {isOpen : Bool} {sites : List Label}
variable {base : Rule}

-- A way on from a place is one of the grammar, and it ends only where all the rules can.
inductive Comes (base : Rule) (way : Config) (reach : Reach) (pending : Stacks) (next : Config) : Prop where
  | going {head : Head} (same : next = way.atHead next.pending head) (marked : head.label.Marked)
      (kinds : head.label.kinds = head.kinds)
      (meets : ∀ under, next.pending.Has under → ∃ sites, pending.Has sites ∧ reach.Meets 0 sites head under)
  | ended {sites : List Label} (same : next = way.spent base) (has : pending.Has sites) (finishes : reach.Finishes sites)

theorem Comes.mono {more : Stacks} (comes : Comes base way reach fewer next)
    (all : ∀ sites, fewer.Has sites → more.Has sites) : Comes base way reach more next := by
  cases comes with
  | going same marked kinds meets =>
    refine .going same marked kinds fun under has => ?_
    obtain ⟨sites,inside,found⟩ := meets under has
    exact ⟨sites,all sites inside,found⟩
  | ended same has finishes => exact .ended same (all _ has) finishes

theorem Comes.up {below : Stacks} (comes : Comes base way site.after below next) (ends : reach.ends = true) :
    Comes base way reach (below.call site) next := by
  cases comes with
  | going same marked kinds meets =>
    refine .going same marked kinds fun under has => ?_
    obtain ⟨sites,inside,found⟩ := meets under has
    exact ⟨site :: sites,Stacks.has_call.mpr ⟨sites,rfl,inside⟩,.up ends found⟩
  | ended same has finishes => exact .ended same (Stacks.has_call.mpr ⟨_,rfl,has⟩) (.up ends finishes)

theorem comes_of_enter (located : reach.Located rule)
    (member : next ∈ way.enter reach pending) : Comes base way reach pending next := by
  rcases mem_append.mp member with own | called
  · obtain ⟨head,listed,rfl⟩ := mem_map.mp own
    have inside : head ∈ reach.heads := by
      split at listed
      · exact (List.mem_filter.mp listed).1
      · exact listed
    obtain ⟨_,marked,kinds⟩ := located.of_head inside
    exact .going rfl marked kinds fun under has => ⟨under,has,.own inside (by cases head.level <;> simp)⟩
  · obtain ⟨head,same,marked,kinds,site,inner,listed,enters⟩ := enters_of_mem_descendAll located.of_call called
    refine .going same marked kinds fun under has => ?_
    obtain ⟨sites,below,found⟩ := enters under has
    exact ⟨sites,below,.call listed found⟩

theorem mem_enter_own (member : head ∈ reach.heads)
    (kept : head.level = none ∨ pending.allTops Label.isClosing = false) :
    way.atHead pending head ∈ way.enter reach pending := by
  refine mem_append_left _ (mem_map.mpr ⟨head,?_,rfl⟩)
  split
  · rename_i covered
    refine List.mem_filter.mpr ⟨member,?_⟩
    rcases kept with free | uncovered
    · simp [free]
    · simp [uncovered] at covered
  · exact member

theorem mem_onward
    (member : next ∈ way.enter reach pending ∨ (reach.ends = true ∧ next ∈ way.leave isOpen rule pending)) :
    next ∈ way.onward isOpen rule reach pending := by
  rcases member with here | ⟨ends,beyond⟩
  · exact mem_append_left _ here
  · exact mem_append_right _ (by rwa [if_pos ends])

theorem onward_of_mem (member : next ∈ way.onward isOpen rule reach pending) :
    next ∈ way.enter reach pending ∨ (reach.ends = true ∧ next ∈ way.leave isOpen rule pending) := by
  rcases mem_append.mp member with here | beyond
  · exact .inl here
  · split at beyond
    · exact .inr ⟨‹_›,beyond⟩
    · cases beyond

theorem leave_has (has : pending.Has (site :: sites)) (isOpen : Bool)
    (way : Config) (rule : Rule) : ∃ below, below.Has sites ∧
      ∀ next ∈ way.onward isOpen site.rule site.after below, next ∈ way.leave isOpen rule pending := by
  induction pending with
  | nil => cases has
  | bottom others ih =>
    obtain ⟨below,inside,all⟩ := ih (has.resolve_left (by simp))
    refine ⟨below,inside,fun next member => ?_⟩
    rw [leave]
    exact mem_append_right _ (all next member)
  | push other below others _ ih =>
    rcases has with ⟨rest,same,inside⟩ | later
    · cases same
      refine ⟨below,inside,fun next member => ?_⟩
      rw [leave_push]
      exact mem_append_left _ member
    · obtain ⟨below,inside,all⟩ := ih later
      refine ⟨below,inside,fun next member => ?_⟩
      rw [leave_push]
      exact mem_append_right _ (all next member)

-- A head that can be met is found, under a stack with which the same can be read.
theorem onward_found (linked : Linked base label.rule sites)
    (has : pending.Has sites) (meets : label.after.Meets 0 sites head under)
    (way : Config) : ∃ pending' under', pending'.Has under' ∧
      way.atHead pending' head ∈ way.onward false label.rule label.after pending ∧
      ∀ kinds, head.label.after.Reads 0 under kinds → head.label.after.Reads 0 under' kinds := by
  induction sites generalizing label pending head under with
  | nil =>
    cases meets with
    | own member _ =>
      have free : pending.allTops Label.isClosing = false := by
        cases covered : pending.allTops Label.isClosing with
        | false => rfl
        | true =>
          obtain ⟨_,_,same,_⟩ := Stacks.allTops_has covered has
          cases same
      exact ⟨pending,[],has,mem_onward (.inl (mem_enter_own member (.inr free))),fun _ reads => reads⟩
    | call member enters =>
      obtain ⟨pending',inside,found⟩ := mem_descendAll_of_call Stacks.has_under member enters has way
      exact ⟨pending',under,inside,mem_onward (.inl (mem_append_right _ found)),fun _ reads => reads⟩
  | cons site sites ih =>
    obtain ⟨below,inside,all⟩ := leave_has has false way label.rule
    cases meets with
    | own member _ =>
      by_cases kept : head.level = none ∨ pending.allTops Label.isClosing = false
      · exact ⟨pending,_,has,mem_onward (.inl (mem_enter_own member kept)),fun _ reads => reads⟩
      · -- the head is left out here, but the caller starts the same round
        rw [not_or,Bool.not_eq_false] at kept
        obtain ⟨_,_,same,closes⟩ := Stacks.allTops_has kept.2 has
        cases same
        obtain ⟨_,calls⟩ := linked.1
        have own := (Rule.caller_facts calls).1 closes
        obtain ⟨again,ends,alike⟩ := Reach.round_again member (Option.isSome_iff_ne_none.mpr kept.1) closes own
        obtain ⟨pending',under',held,found,transfer⟩ :=
          ih linked.2 inside (.own again (by cases head.level <;> simp))
        exact ⟨pending',under',held,mem_onward (.inr ⟨ends,all _ found⟩),
          fun kinds reads => transfer kinds (reads.alike (alike sites))⟩
    | call member enters =>
      obtain ⟨pending',inside,found⟩ := mem_descendAll_of_call Stacks.has_under member enters has way
      exact ⟨pending',under,inside,mem_onward (.inl (mem_append_right _ found)),fun _ reads => reads⟩
    | up ends meets =>
      obtain ⟨pending',under',held,found,transfer⟩ := ih linked.2 inside meets
      exact ⟨pending',under',held,mem_onward (.inr ⟨ends,all _ found⟩),transfer⟩

theorem comes_of_leave (ends : reach.ends = true)
    (linked : ∀ sites, pending.Has sites → Linked base rule sites) (member : next ∈ way.leave false rule pending) :
    Comes base way reach pending next := by
  induction pending generalizing rule reach with
  | nil => cases member
  | bottom others ih =>
    rw [leave] at member
    rcases mem_append.mp member with here | later
    · have outermost : rule = base := linked [] (.inl rfl)
      have same : next = way.spent base := by simpa [spent,outermost] using here
      exact .ended same (.inl rfl) (.bottom ends)
    · exact (ih ends (fun sites has => linked sites (.inr has)) later).mono fun _ has => .inr has
  | push site below others inner outer =>
    rw [leave_push] at member
    rcases mem_append.mp member with here | later
    · have inside : ∀ sites, below.Has sites → Linked base site.rule sites := fun sites has =>
        (linked (site :: sites) (.inl ⟨sites,rfl,has⟩)).2
      have comes : Comes base way site.after below next := by
        rcases onward_of_mem here with entered | ⟨spent,left⟩
        · exact comes_of_enter site.after_located entered
        · exact inner spent inside left
      exact (comes.up ends).mono fun _ has => .inl (Stacks.has_call.mp has)
    · exact (outer ends (fun sites has => linked sites (.inr has)) later).mono fun _ has => .inr has

theorem comes_of_onward (linked : ∀ sites, pending.Has sites → Linked base label.rule sites)
    (member : next ∈ way.onward false label.rule label.after pending) : Comes base way label.after pending next := by
  rcases onward_of_mem member with entered | ⟨ends,left⟩
  · exact comes_of_enter label.after_located entered
  · exact comes_of_leave ends linked left

theorem leave_empty (has : pending.Has []) (way : Config) : way.spent rule ∈ way.leave false rule pending := by
  induction pending with
  | nil => cases has
  | bottom others _ =>
    rw [leave]
    exact mem_append_left _ (List.mem_singleton_self _)
  | push site below others _ ih =>
    rw [leave_push]
    exact mem_append_right _ (ih (has.resolve_left (by simp)))

theorem onward_over (linked : Linked base label.rule sites)
    (has : pending.Has sites) (finishes : label.after.Finishes sites) (way : Config) :
    way.spent base ∈ way.onward false label.rule label.after pending := by
  induction sites generalizing label pending with
  | nil =>
    have outermost : label.rule = base := linked
    exact mem_onward (.inr ⟨finishes.ends,outermost ▸ leave_empty has way⟩)
  | cons site sites ih =>
    obtain ⟨below,inside,all⟩ := leave_has has false way label.rule
    cases finishes with
    | up ends finishes => exact mem_onward (.inr ⟨ends,all _ (ih linked.2 inside finishes)⟩)

theorem leave_over (linked : Linked base rule sites)
    (has : pending.Has sites) (finishes : reach.Finishes sites) (way : Config) :
    way.spent base ∈ way.leave false rule pending := by
  cases finishes with
  | bottom _ =>
    have outermost : rule = base := linked
    exact outermost ▸ leave_empty has way
  | up _ finishes =>
    obtain ⟨below,inside,all⟩ := leave_has has false way rule
    exact all _ (onward_over linked.2 inside finishes way)

end Closed

end Config

end SolReader
