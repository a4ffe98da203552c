import SolReader.Proofs.Prediction.Foresight
import SolReader.Proofs.Prediction.Outward

namespace SolReader

open List

namespace Config

section Onward

variable {rule : Rule} {under : List Label} {head : Head} {way next : Config}
variable {base : Rule} {label : Label} {sites : List Label} {pending : Stacks}

theorem allTops_of_empty (has : pending.Has []) : pending.allTops Label.isClosing = false := by
  cases covered : pending.allTops Label.isClosing with
  | false => rfl
  | true =>
    obtain ⟨_,_,same,_⟩ := Stacks.allTops_has covered has
    cases same

theorem leave_outward (has : pending.Has []) (way : Config)
    (member : config ∈ gather true (Rule.outward none rule)) :
    { config with option := way.option, guard := way.guard } ∈ way.leave true rule pending := by
  induction pending with
  | nil => cases has
  | bottom others _ =>
    rw [leave,if_pos rfl,Rule.outwardTable_eq]
    exact mem_append_left _ (mem_map.mpr ⟨config,member,rfl⟩)
  | push site below others _ ih =>
    rw [leave_push]
    exact mem_append_right _ (ih (has.resolve_left (by simp)))

-- A way on of the same option, at the label and under a stack with which the same can be read.
def Follows (base : Rule) (way next : Config) (label : Label) (under : List Label) : Prop :=
  next.option = way.option ∧ next.guard = way.guard ∧ ∃ under', next.Leads label under' false ∧
    Linked base label.rule under' ∧ ∀ kinds, label.after.Reads 0 under kinds → label.after.Reads 0 under' kinds

theorem enter_follows {reach : Reach} (enters : reach.Enters sites head under)
    (covers : pending.Covers sites) (kept : head.level = none ∨ pending.allTops Label.isClosing = false)
    (inner : Linked base head.label.rule under) (way : Config) :
    ∃ next ∈ way.enter reach pending, Follows base way next head.label under := by
  obtain ⟨pending',covers,found⟩ : ∃ pending', pending'.Covers under ∧ way.atHead pending' head ∈ way.enter reach pending := by
    cases enters with
    | own member => exact ⟨pending,covers,mem_enter_own member kept⟩
    | call member enters =>
      obtain ⟨pending',inside,found⟩ := mem_descendAll_of_call Stacks.covers_call member enters covers way
      exact ⟨pending',inside,mem_append_right _ found⟩
  exact ⟨_,found,rfl,rfl,under,⟨rfl,covers,nofun⟩,inner,fun _ reads => reads⟩

-- Under the empty stack nothing is left out, and what comes after the end is among the ways out.
theorem onward_bottom (linked : Linked base label.rule sites) (has : pending.Has [])
    (meets : label.after.Meets 0 sites head under) (way : Config) :
    ∃ next ∈ way.onward true label.rule label.after pending, Follows base way next head.label under := by
  have inner := (meets.linked label.after_located linked).2.2
  have entered (enters : label.after.Enters sites head under) :
      ∃ next ∈ way.onward true label.rule label.after pending, Follows base way next head.label under := by
    obtain ⟨next,found,follows⟩ :=
      enter_follows enters ⟨[],has, nil_prefix⟩ (.inr (allTops_of_empty has)) inner way
    exact ⟨next,mem_onward (.inl found),follows⟩
  cases meets with
  | own member _ => exact entered (.own member)
  | call member enters => exact entered (.call member enters)
  | up ends meets =>
    obtain ⟨mark,leaves⟩ := meets.leaves none linked
    obtain ⟨config,member,leads,_⟩ := Rule.outward_leads leaves (Rule.outerEnds_closed none label.rule).1
    obtain ⟨found,gathered,leads,_⟩ := gather_leads member leads
    exact ⟨_,mem_onward (.inr ⟨ends,leave_outward has way gathered⟩),rfl,rfl,under,
      ⟨leads.label,leads.covers,nofun⟩,inner,fun _ reads => reads⟩

-- The induction is on the calls that are open; it stops at the first stack that has run out of known calls.
theorem onward_follows (linked : Linked base label.rule sites) (covers : pending.Covers sites)
    (meets : label.after.Meets 0 sites head under) (way : Config) :
    ∃ next ∈ way.onward true label.rule label.after pending, Follows base way next head.label under := by
  induction sites generalizing label pending head under with
  | nil =>
    obtain ⟨top,has,begins⟩ := covers
    exact onward_bottom linked (prefix_nil.mp begins ▸ has) meets way
  | cons site sites ih =>
    obtain ⟨top,has,begins⟩ := covers
    cases top with
    | nil => exact onward_bottom linked has meets way
    | cons first top =>
      have covers : pending.Covers (site :: sites) := ⟨_,has,begins⟩
      obtain ⟨rfl,starts⟩ := cons_prefix_cons.mp begins
      obtain ⟨below,inside,all⟩ := leave_has has true way label.rule
      have inner := (meets.linked label.after_located linked).2.2
      have beyond {head : Head} {under : List Label} (ends : label.after.ends = true)
          (meets : first.after.Meets 0 sites head under) :
          ∃ next ∈ way.onward true label.rule label.after pending, Follows base way next head.label under := by
        obtain ⟨next,found,follows⟩ := ih linked.2 ⟨top,inside,starts⟩ meets
        exact ⟨next,mem_onward (.inr ⟨ends,all next found⟩),follows⟩
      cases meets with
      | own member _ =>
        by_cases kept : head.level = none ∨ pending.allTops Label.isClosing = false
        · obtain ⟨next,found,follows⟩ := enter_follows (.own member) covers kept inner way
          exact ⟨next,mem_onward (.inl found),follows⟩
        · -- the head is left out here, but the caller starts the same round
          rw [not_or,Bool.not_eq_false] at kept
          obtain ⟨_,_,same,closes⟩ := Stacks.allTops_has kept.2 has
          cases same
          obtain ⟨_,calls⟩ := linked.1
          have own := (Rule.caller_facts calls).1 closes
          obtain ⟨again,ends,alike⟩ := Reach.round_again member (Option.isSome_iff_ne_none.mpr kept.1) closes own
          obtain ⟨next,found,option,guard,under',leads,linked',transfer⟩ :=
            beyond ends (.own again (by cases head.level <;> simp))
          exact ⟨next,found,option,guard,under',leads,linked',
            fun kinds reads => transfer kinds (reads.alike (alike sites))⟩
      | call member enters =>
        obtain ⟨pending',held,found⟩ := mem_descendAll_of_call Stacks.covers_call member enters covers way
        exact ⟨_,mem_onward (.inl (mem_append_right _ found)),rfl,rfl,under,⟨rfl,held,nofun⟩,inner,
          fun _ reads => reads⟩
      | up ends meets => exact beyond ends meets

theorem onward_final (outermost : base.callers = []) (linked : Linked base label.rule sites)
    (covers : pending.Covers sites) (finishes : label.after.Finishes sites) (way : Config) :
    ∃ next ∈ way.onward true label.rule label.after pending, next.option = way.option ∧ next.guard = way.guard ∧
      next.label = .final base := by
  have bottom {sites : List Label} {label : Label} {pending : Stacks} (linked : Linked base label.rule sites)
      (has : pending.Has []) (finishes : label.after.Finishes sites) :
      ∃ next ∈ way.onward true label.rule label.after pending, next.option = way.option ∧ next.guard = way.guard ∧
        next.label = .final base := by
    obtain ⟨config,member,leads,_⟩ :=
      Rule.outward_ends outermost linked finishes (Rule.outerEnds_closed none label.rule).1
    obtain ⟨found,gathered,leads,_⟩ := gather_leads member leads
    exact ⟨_,mem_onward (.inr ⟨finishes.ends,leave_outward has way gathered⟩),rfl,rfl,leads.label⟩
  induction sites generalizing label pending with
  | nil =>
    obtain ⟨top,has,begins⟩ := covers
    exact bottom linked (prefix_nil.mp begins ▸ has) finishes
  | cons site sites ih =>
    obtain ⟨top,has,begins⟩ := covers
    cases top with
    | nil => exact bottom linked has finishes
    | cons first top =>
      obtain ⟨rfl,starts⟩ := cons_prefix_cons.mp begins
      obtain ⟨below,inside,all⟩ := leave_has has true way label.rule
      cases finishes with
      | up ends finishes =>
        obtain ⟨next,found,same⟩ := ih linked.2 ⟨top,inside,starts⟩ finishes
        exact ⟨next,mem_onward (.inr ⟨ends,all next found⟩),same⟩

theorem leave_genuine (member : next ∈ way.leave true rule pending) : next.Genuine := by
  induction pending generalizing rule with
  | nil => cases member
  | bottom others ih =>
    rw [leave,if_pos rfl,Rule.outwardTable_eq] at member
    rcases mem_append.mp member with here | later
    · obtain ⟨config,gathered,rfl⟩ := mem_map.mp here
      exact gather_genuine (fun _ => Rule.outward_genuine) config gathered
    · exact ih later
  | push site below others inner outer =>
    rw [leave_push] at member
    rcases mem_append.mp member with here | later
    · rcases onward_of_mem here with entered | ⟨_,left⟩
      · exact enter_genuine site.after_located entered
      · exact inner left
    · exact outer later

theorem shift_genuine (member : next ∈ way.shift true) : next.Genuine := by
  rcases onward_of_mem member with entered | ⟨_,left⟩
  · exact enter_genuine way.label.after_located entered
  · exact leave_genuine left

end Onward

-- Under some stack that the open ones stand for, the way reads these kinds and is then at the end of everything.
inductive MayRead (base : Rule) (config : Config) : List Kind → Prop where
  | ended (final : config.isFinal = true) : MayRead base config []
  | take {sites : List Label} {kind : Kind} {kinds : List Kind} (covers : config.pending.Covers sites)
      (linked : Linked base config.label.rule sites) (taken : config.kinds.contains kind = true)
      (reads : config.label.after.Reads 0 sites kinds) : MayRead base config (kind :: kinds)

-- Some way of the option that the level allows may read the kinds.
def Allowed (base : Rule) (level : Nat) (configs : List Config) (option : Nat) (kinds : List Kind) : Prop :=
  ∃ config ∈ configs, config.option = option ∧ config.allows level = true ∧ config.MayRead base kinds

section Advance

variable {base : Rule} {level option : Nat} {configs : List Config} {kind : Kind} {kinds : List Kind}

theorem MayRead.join {left : Config} (same : left.sameWay right = true) (one : left.Genuine) (two : right.Genuine)
    (either : left.MayRead base kinds ∨ right.MayRead base kinds) : (left.join true right).MayRead base kinds := by
  simp only [sameWay,Bool.and_eq_true,beq_iff_eq] at same
  rcases either with may | may
  · cases may with
    | ended final => exact .ended final
    | take covers linked taken reads => exact .take (Stacks.covers_union (.inl covers)) linked taken reads
  · cases may with
    | ended final => exact .ended (by rwa [isFinal,← same.1.1] at final)
    | take covers linked taken reads =>
      refine .take (Stacks.covers_union (.inr covers)) (same.1.1.symm ▸ linked) ?_ (same.1.1.symm ▸ reads)
      rw [show (left.join true right).kinds = left.kinds from rfl,show left.kinds = right.kinds by rw [one,two,same.1.1]]
      exact taken

theorem gather_allowed (genuine : ∀ config ∈ configs, config.Genuine)
    (allowed : Allowed base level configs option kinds) : Allowed base level (gather true configs) option kinds := by
  obtain ⟨config,member,rfl,allows,may⟩ := allowed
  have joins (left right : Config) (same : left.sameWay right = true) (one : left.Genuine) (two : right.Genuine)
      (either : (left.option = config.option ∧ left.allows level = true ∧ left.MayRead base kinds) ∨
        (right.option = config.option ∧ right.allows level = true ∧ right.MayRead base kinds)) :
      (left.join true right).option = config.option ∧ (left.join true right).allows level = true ∧
        (left.join true right).MayRead base kinds := by
    have together (either : left.MayRead base kinds ∨ right.MayRead base kinds) := MayRead.join same one two either
    simp only [sameWay,Bool.and_eq_true,beq_iff_eq] at same
    rcases either with ⟨option,allows,may⟩ | ⟨option,allows,may⟩
    · exact ⟨option,allows,together (.inl may)⟩
    · refine ⟨same.1.2.trans option,?_,together (.inr may)⟩
      rwa [Config.allows,← same.2] at allows
  exact gather_finds (fun _ _ _ left _ => left) joins genuine member ⟨rfl,allows,may⟩

theorem shift_mayRead (outermost : base.callers = []) {config : Config} (may : config.MayRead base (kind :: kinds)) :
    ∃ next ∈ config.shift true, next.option = config.option ∧ next.guard = config.guard ∧ next.MayRead base kinds := by
  cases may with
  | take covers linked taken reads =>
    cases reads with
    | done finishes =>
      obtain ⟨next,found,option,guard,label⟩ := onward_final outermost linked covers finishes config
      refine ⟨next,found,option,guard,.ended ?_⟩
      rw [isFinal,label]
      exact isFinal_spent config base
    | @take _ _ _ _ head _ _ meets taken reads =>
      have known := (meets.linked config.label.after_located linked).2.1
      obtain ⟨next,found,option,guard,under,leads,linked,transfer⟩ := onward_follows linked covers meets config
      refine ⟨next,found,option,guard,.take leads.covers ?_ ?_ ?_⟩
      · rwa [leads.label]
      · rw [shift_genuine found,leads.label,known]
        exact taken
      · rw [leads.label]
        exact transfer _ reads

theorem moved_genuine (kind : Kind) (configs : List Config) :
    ∀ config ∈ (configs.filter (·.kinds.contains kind)).flatMap (shift true), config.Genuine := by
  intro config member
  obtain ⟨_,_,inside⟩ := mem_flatMap.mp member
  exact shift_genuine inside

theorem advance_open (kind : Kind) (configs : List Config) : advance true kind configs =
    if kind = .eof then
      gather true ((gather true ((configs.filter (·.kinds.contains kind)).flatMap (shift true))).filter isFinal ++
        configs.filter isFinal)
    else gather true ((configs.filter (·.kinds.contains kind)).flatMap (shift true)) := by
  by_cases ended : kind = .eof <;> simp [advance,ended]

theorem ended_genuine (genuine : ∀ config ∈ configs, config.Genuine) :
    ∀ config ∈ (gather true ((configs.filter (·.kinds.contains kind)).flatMap (shift true))).filter isFinal ++
      configs.filter isFinal, config.Genuine := by
  refine forall_mem_append.mpr ⟨fun config member => ?_,fun config member => ?_⟩
  · exact gather_genuine (moved_genuine kind configs) config (mem_filter.mp member).1
  · exact genuine config (mem_filter.mp member).1

theorem advance_genuine (genuine : ∀ config ∈ configs, config.Genuine) :
    ∀ config ∈ advance true kind configs, config.Genuine := by
  rw [advance_open]
  split
  · exact gather_genuine (ended_genuine genuine)
  · exact gather_genuine (moved_genuine kind configs)

theorem advance_allowed (outermost : base.callers = []) (genuine : ∀ config ∈ configs, config.Genuine)
    (last : kind = .eof → kinds = []) (allowed : Allowed base level configs option (kind :: kinds)) :
    Allowed base level (advance true kind configs) option kinds := by
  obtain ⟨config,member,rfl,allows,may⟩ := allowed
  have taken : config.kinds.contains kind = true := by
    cases may with
    | take _ _ taken _ => exact taken
  obtain ⟨next,found,option,guard,may⟩ := shift_mayRead outermost may
  have shifted : Allowed base level ((configs.filter (·.kinds.contains kind)).flatMap (shift true)) config.option kinds :=
    ⟨next,mem_flatMap.mpr ⟨config,mem_filter.mpr ⟨member,taken⟩,found⟩,option,
      by rwa [Config.allows,guard],may⟩
  have moved := gather_allowed (moved_genuine kind configs) shifted
  rw [advance_open]
  split
  · rename_i ended
    refine gather_allowed (ended_genuine genuine) ?_
    obtain ⟨next,found,option,allows,may⟩ := moved
    have final : next.isFinal = true := by
      rw [last ended] at may
      cases may with
      | ended final => exact final
    exact ⟨next,mem_append_left _ (mem_filter.mpr ⟨found,final⟩),option,allows,may⟩
  · exact moved

theorem advance_final (configs : List Config) : (advance true .eof configs).all isFinal = true := by
  rw [advance_open,if_pos rfl,all_eq_true]
  refine gather_keeps (fun _ _ _ left _ => left) (forall_mem_append.mpr ⟨fun config member => ?_,fun config member => ?_⟩)
  · exact (mem_filter.mp member).2
  · exact (mem_filter.mp member).2

end Advance

end Config

namespace Decision

open Config (Allowed)

section Glance

variable {kinds : List Kind} {found : Nat}
variable {base : Rule} {level option : Nat} {configs : List Config}

theorem allowed?_eq (allowed : Allowed base level configs option kinds)
    (sole : allowed? level configs = some found) : found = option := by
  obtain ⟨config,member,rfl,allows,_⟩ := allowed
  exact (Config.soleOption?_eq sole config (mem_filter.mpr ⟨member,allows⟩)).symm

theorem allowed?_of_sole (allowed : Allowed base level configs option kinds)
    (sole : Config.soleOption? configs = some found) : allowed? level configs = some option := by
  have all := Config.soleOption?_eq sole
  obtain ⟨config,member,rfl,allows,_⟩ := allowed
  refine Config.soleOption?_of (ne_nil_of_mem (mem_filter.mpr ⟨member,allows⟩)) _ fun other listed => ?_
  rw [all other (mem_filter.mp listed).1,all config member]

-- The induction is on the tokens ahead; the option has a way among those that are followed.
theorem glance_option (outermost : base.callers = []) {closed : Unit → Forecast}
    (fallback : (closed ()).option = some option) (genuine : ∀ config ∈ configs, config.Genuine)
    (ended : Token.Closed ahead) (allowed : Allowed base level configs option (ahead.map (·.kind))) (looked : Nat) :
    (glance level closed configs looked ahead).option = some option := by
  induction ahead generalizing configs looked with
  | nil => exact ended.elim
  | cons token rest ih =>
    rw [List.map_cons] at allowed
    rw [glance]
    have last (spent : token.kind = .eof) : rest.map (·.kind) = [] := by rw [Token.closed_last ended spent]; rfl
    have next := Config.advance_allowed outermost genuine last allowed
    have filled : Config.advance true token.kind configs ≠ [] := by
      obtain ⟨config,member,_⟩ := next
      exact List.ne_nil_of_mem member
    cases settled : Config.settled? true token.kind configs with
    | some found =>
      have sole : Config.soleOption? (configs.filter (·.kinds.contains token.kind)) = .some found := by
        rw [Config.settled?] at settled
        split at settled
        · cases settled
        · exact settled
      have taking : Allowed base level (configs.filter (·.kinds.contains token.kind)) option
          (token.kind :: rest.map (·.kind)) := by
        obtain ⟨config,member,same,allows,may⟩ := allowed
        have taken : config.kinds.contains token.kind = true := by
          cases may with
          | take _ _ taken _ => exact taken
        exact ⟨config,List.mem_filter.mpr ⟨member,taken⟩,same,allows,may⟩
      exact allowed?_of_sole taking sole
    | none =>
      simp only [List.isEmpty_iff,filled,if_false]
      split
      · rename_i sole
        obtain ⟨found,sole⟩ := Option.isSome_iff_exists.mp sole
        exact allowed?_of_sole next sole
      · split
        · split
          · rename_i chosen
            rw [Bool.and_eq_true] at chosen
            obtain ⟨found,sole⟩ := Option.isSome_iff_exists.mp chosen.2
            rw [sole,allowed?_eq next sole]
          · exact fallback
        · rename_i free
          cases rest with
          | nil =>
            have spent : token.kind = .eof := ended
            rw [spent] at free
            simp [Config.conflict,Config.advance_final] at free
          | cons second rest =>
            rw [if_neg (by simp)]
            exact ih (Config.advance_genuine genuine) ended.2 next (looked + 1)

end Glance

-- A decision about another round is one between a round and nothing more.
def Repeats (isRecursive : Bool) (reaches : List Reach) : Prop :=
  isRecursive = true → ∃ round, reaches = [round,.nothing] ∧ round.calls = [] ∧ round.ends = false ∧
    ∀ head ∈ round.heads, head.label.isRound = true

section Start

variable {base rule : Rule} {level option : Nat} {reach : Reach} {sites under : List Label} {head : Head}

-- The ways of one option with nothing known about the callers.
def openWays (marked : Option Rule) (rule : Rule) (option : Nat) (reach : Reach) : List Config :=
  optionHeads option reach .empty ++ (if reach.ends then (Rule.outward marked rule).map ({ · with option }) else [])

theorem start_eq (isRecursive : Bool) (reaches : List Reach) : (make rule isRecursive reaches).start =
    Config.gather true ((reaches.zipIdx 1).flatMap fun (reach,option) =>
      openWays (if isRecursive then some rule else none) rule option reach) := rfl

theorem openWays_genuine {marked : Option Rule} (located : reach.Located rule)
    (member : config ∈ openWays marked rule option reach) : config.Genuine := by
  rcases mem_append.mp member with entered | beyond
  · rcases mem_append.mp entered with own | called
    · obtain ⟨head,listed,rfl⟩ := mem_map.mp own
      exact (located.of_head listed).2.2.symm
    · obtain ⟨head,same,_,kinds,_⟩ := Config.enters_of_mem_descendAll located.of_call called
      rw [same]
      exact kinds.symm
  · split at beyond
    · obtain ⟨config,outside,rfl⟩ := mem_map.mp beyond
      have genuine := Rule.outward_genuine outside
      exact genuine
    · cases beyond

theorem openWays_leads (marked : Option Rule) (option : Nat) (linked : Linked base rule sites)
    (meets : reach.Meets level sites head under) : ∃ config ∈ openWays marked rule option reach,
      config.option = option ∧ config.allows level = true ∧ config.Leads head.label under false := by
  cases meets with
  | own member within =>
    exact ⟨_,mem_append_left _ (mem_append_left _ (mem_map.mpr ⟨head,member,rfl⟩)),rfl,within,
      rfl,Stacks.covers_empty _,nofun⟩
  | call member enters =>
    obtain ⟨pending,covers,found⟩ := Config.mem_descendAll_of_call Stacks.covers_call member enters
      (Stacks.covers_empty sites) ⟨0,∅,option,none,.empty,false,false⟩
    exact ⟨_,mem_append_left _ (mem_append_right _ found),rfl,rfl,rfl,covers,nofun⟩
  | up ends meets =>
    obtain ⟨mark,leaves⟩ := meets.leaves marked linked
    obtain ⟨config,member,leads,free⟩ := Rule.outward_leads leaves (Rule.outerEnds_closed marked rule).1
    refine ⟨{ config with option },mem_append_right _ ?_,rfl,by simp [Config.allows,free],
      leads.label,leads.covers,nofun⟩
    rw [if_pos ends]
    exact mem_map.mpr ⟨config,member,rfl⟩

section Options

variable {reaches : List Reach} (located : ∀ reach ∈ reaches, reach.Located rule) (isRecursive : Bool)
  {kinds : List Kind}

include located

theorem options_genuine (marked : Option Rule) : ∀ config ∈ (reaches.zipIdx 1).flatMap (fun (reach,option) =>
    openWays marked rule option reach), config.Genuine := by
  intro config member
  obtain ⟨⟨reach,option⟩,listed,inside⟩ := mem_flatMap.mp member
  exact openWays_genuine (located reach (mem_of_getElem? (mem_zipIdx_one listed).2)) inside

theorem start_genuine : ∀ config ∈ (make rule isRecursive reaches).start, config.Genuine := by
  rw [start_eq]
  exact Config.gather_genuine (options_genuine located _)

theorem start_allowed (linked : Linked base rule sites) (counted : 1 ≤ option)
    (found : reaches[option - 1]? = some reach) (reads : reach.Reads level sites (kind :: kinds)) :
    Allowed base level (make rule isRecursive reaches).start option (kind :: kinds) := by
  rw [start_eq]
  refine Config.gather_allowed (options_genuine located _) ?_
  cases reads with
  | @take _ _ _ under head _ _ meets taken reads =>
    have here := located reach (mem_of_getElem? found)
    obtain ⟨_,known,inner⟩ := meets.linked here linked
    obtain ⟨config,inside,same,allows,leads⟩ :=
      openWays_leads (if isRecursive then some rule else none) option linked meets
    have listed : (reach,option) ∈ reaches.zipIdx 1 :=
      mem_zipIdx_iff_le_and_getElem?_sub.mpr ⟨counted,found⟩
    refine ⟨config,mem_flatMap.mpr ⟨_,listed,inside⟩,same,allows,.take leads.covers ?_ ?_ ?_⟩
    · rwa [leads.label]
    · rw [openWays_genuine here inside,leads.label,known]
      exact taken
    · rwa [leads.label]

end Options

section Recursive

variable {round : Reach} (located : round.Located rule) (calls : round.calls = []) (ends : round.ends = false)
  (rounds : ∀ head ∈ round.heads, head.label.isRound = true) {kind : Kind} {kinds : List Kind}

include calls ends

theorem start_round (member : config ∈ (make rule true [round,.nothing]).start)
    (first : config.option = 1) : ∃ head ∈ round.heads, config.label = head.label ∧ config.guard = head.level := by
  have kept : ∀ config ∈ (make rule true [round,.nothing]).start, config.option = 1 →
      ∃ head ∈ round.heads, config.label = head.label ∧ config.guard = head.level := by
    rw [start_eq]
    refine Config.gather_keeps (fun _ _ _ left _ => left) fun config member first => ?_
    obtain ⟨⟨reach,option⟩,listed,inside⟩ := mem_flatMap.mp member
    have options : (reach,option) = (round,1) ∨ (reach,option) = (.nothing,2) := by simpa using listed
    rcases options with same | same
    · cases same
      simp only [openWays,optionHeads,calls,ends,Config.descendAll,append_nil,if_false,Bool.false_eq_true] at inside
      obtain ⟨head,own,rfl⟩ := mem_map.mp inside
      exact ⟨head,own,rfl,rfl⟩
    · cases same
      simp only [openWays,optionHeads,Reach.nothing,Reach.heads,Reach.calls,Reach.ends,Config.descendAll,
        map_nil,nil_append,if_true] at inside
      obtain ⟨_,_,rfl⟩ := mem_map.mp inside
      cases first
  exact kept config member first

include located rounds

-- A way past the end of the rule is left out only where a round that reads the same is followed.
theorem startOpen_exit (linked : Linked base rule sites) (reads : Reach.nothing.Reads level sites (kind :: kinds))
    (least : ¬round.Reads level sites (kind :: kinds)) :
    Allowed base level ((make rule true [round,.nothing]).startOpen level) 2 (kind :: kinds) := by
  have both : ∀ reach ∈ [round,.nothing], reach.Located rule :=
    forall_mem_cons.mpr ⟨located,forall_mem_singleton.mpr (Reach.located_blank true none)⟩
  cases reads with
  | @take _ _ _ under head _ _ meets taken reads =>
    obtain ⟨_,known,inner⟩ := meets.linked (Reach.located_blank true none) linked
    cases meets with
    | own impossible _ => cases impossible
    | call impossible _ => cases impossible
    | up _ meets =>
      obtain ⟨mark,leaves⟩ := meets.leaves (some rule) linked
      obtain ⟨config,member,leads,free⟩ := Rule.outward_leads leaves (Rule.outerEnds_closed (some rule) rule).1
      have inside : { config with option := 2 } ∈ ([round,.nothing].zipIdx 1).flatMap fun (reach,option) =>
          openWays (some rule) rule option reach :=
        mem_flatMap.mpr ⟨(.nothing,2),by simp,mem_append_right _ (mem_map.mpr ⟨config,member,rfl⟩)⟩
      obtain ⟨found,gathered,leads,option,guard⟩ :=
        Config.gather_leads inside ⟨leads.label,leads.covers,leads.lifted⟩
      have genuine := start_genuine both true found gathered
      refine ⟨found,mem_append_right _ (mem_filter.mpr ⟨gathered,?_⟩),option,
        by simp [Config.allows,guard,free],.take leads.covers (by rwa [leads.label]) ?_ (by rwa [leads.label])⟩
      · rw [Bool.and_eq_true,Bool.or_eq_true,Bool.not_eq_true',any_eq_false]
        refine ⟨by simp [option],?_⟩
        cases lifted : found.lifted with
        | true => exact .inl rfl
        | false =>
          refine .inr fun other listed same => least ?_
          have unmarked : mark = false := by
            cases marked : mark with
            | false => rfl
            | true => simp [leads.lifted (by simp [marked])] at lifted
          obtain ⟨origin,chosen,rfl⟩ := mem_map.mp listed
          obtain ⟨started,allowed⟩ := mem_filter.mp chosen
          simp only [Bool.and_eq_true,beq_iff_eq] at allowed same
          obtain ⟨first,own,label,bound⟩ := start_round calls ends started allowed.1
          obtain ⟨inRule,_,kinds⟩ := located.of_head own
          have label : first.label = head.label := label.symm.trans (same.1.trans leads.label)
          refine .take (.own own (by rw [← bound]; exact allowed.2)) ?_ ?_
          · rwa [← kinds,label,known]
          · rw [label]
            exact leaves.same_round unmarked (label ▸ rounds first own) (label ▸ inRule) reads
      · rw [genuine,leads.label,known]
        exact taken

end Recursive

end Start

section Forecast

variable {isRecursive : Bool}
variable {base rule : Rule} {level option : Nat} {reaches : List Reach} {sites : List Label} {ahead : List Token}

theorem startOpen_genuine (located : ∀ reach ∈ reaches, reach.Located rule) (isRecursive : Bool) :
    ∀ config ∈ (make rule isRecursive reaches).startOpen level, config.Genuine := by
  have start := start_genuine located isRecursive
  intro config member
  rw [startOpen] at member
  split at member
  · rcases mem_append.mp member with repeated | exit
    · obtain ⟨origin,chosen,rfl⟩ := mem_map.mp repeated
      have genuine := start origin (mem_filter.mp chosen).1
      exact genuine
    · exact start config (mem_filter.mp exit).1
  · exact start config member

theorem startOpen_allowed (located : ∀ reach ∈ reaches, reach.Located rule) (linked : Linked base rule sites)
    (repeats : Repeats isRecursive reaches) {kinds : List Kind}
    (viable : ∃ reach, 1 ≤ option ∧ reaches[option - 1]? = some reach ∧ reach.Reads level sites (kind :: kinds))
    (least : ∀ option' reach, 1 ≤ option' → reaches[option' - 1]? = some reach →
      reach.Reads level sites (kind :: kinds) → option ≤ option') :
    Allowed base level ((make rule isRecursive reaches).startOpen level) option (kind :: kinds) := by
  obtain ⟨reach,counted,found,reads⟩ := viable
  have started := start_allowed located isRecursive linked counted found reads
  cases isRecursive with
  | false => exact started
  | true =>
    obtain ⟨round,rfl,calls,ends,rounds⟩ := repeats rfl
    by_cases first : option = 1
    · subst first
      obtain ⟨config,member,same,allows,may⟩ := started
      refine ⟨{ config with guard := none },mem_append_left _ (mem_map.mpr ⟨config,?_,rfl⟩),same,rfl,?_⟩
      · exact mem_filter.mpr ⟨member,by simp [same,allows]⟩
      · cases may with
        | take covers linked taken reads => exact .take covers linked taken reads
    · have second : option = 2 := by
        have bound := (List.getElem?_eq_some_iff.mp found).1
        simp at bound
        omega
      subst second
      have nothing : reach = .nothing := by simpa using found.symm
      subst nothing
      exact startOpen_exit (located round mem_cons_self) calls ends rounds linked reads fun other =>
        absurd (least 1 round (by omega) rfl other) (by omega)

theorem Prime.unique {ahead : List Kind} {one two : Nat} (first : Prime level reaches sites ahead one)
    (second : Prime level reaches sites ahead two) : one = two := by
  obtain ⟨count,viable,best⟩ := first
  obtain ⟨count',viable',best'⟩ := second
  have := best two count' viable'
  have := best' one count viable
  omega

-- The first of the options with which the whole text can be read.
def Chosen (level : Nat) (reaches : List Reach) (sites : List Label) (ahead : List Kind) (option : Nat) : Prop :=
  (∃ reach, 1 ≤ option ∧ reaches[option - 1]? = some reach ∧ reach.Reads level sites ahead) ∧
    ∀ option' reach, 1 ≤ option' → reaches[option' - 1]? = some reach → reach.Reads level sites ahead → option ≤ option'

theorem Chosen.prime {ahead : List Kind} (chosen : Chosen level reaches sites ahead option) :
    Viable level reaches sites ahead option ahead.length ∧ Prime level reaches sites ahead option := by
  obtain ⟨⟨reach,counted,found,reads⟩,least⟩ := chosen
  have viable : Viable level reaches sites ahead option ahead.length :=
    ⟨reach,counted,found,Nat.le_refl _,by rwa [take_length]⟩
  refine ⟨viable,ahead.length,viable,fun option' count' ⟨reach',counted',found',within,reads'⟩ => ?_⟩
  rcases Nat.lt_or_eq_of_le within with fewer | same
  · exact .inl fewer
  · refine .inr ⟨same,least option' reach' counted' found' ?_⟩
    rwa [same,take_length] at reads'

theorem forecast_option (outermost : base.callers = []) (located : ∀ reach ∈ reaches, reach.Located rule)
    (linked : Linked base rule sites) (repeats : Repeats isRecursive reaches)
    (closed : Token.Closed ahead) (chosen : Chosen level reaches sites (ahead.map (·.kind)) option) :
    ((make rule isRecursive reaches).forecast level (.single sites) ahead).option = some option := by
  obtain ⟨viable,prime⟩ := chosen.prime
  have fallback : (foresee level ((make rule isRecursive reaches).startClosed level (.single sites)) 0 ahead).option =
      some option := by
    obtain ⟨found,seen,best⟩ := foresee_prime located linked isRecursive closed viable 0
    rw [seen,best.unique prime]
  cases ahead with
  | nil => exact closed.elim
  | cons token rest =>
    exact glance_option outermost fallback (startOpen_genuine located isRecursive) closed
      (startOpen_allowed located linked repeats chosen.1 chosen.2) 0

end Forecast

section Turning

-- With nothing known about the callers, tokens of these kinds do not tell the options apart: they lead to ways that belong
-- to several options.
def turns : List Config → List Kind → Bool
  | _, [] => false
  | configs, kind :: kinds =>
    let next := Config.advance true kind configs
    (Config.settled? true kind configs).isNone && !next.isEmpty && (Config.soleOption? next).isNone &&
      if Config.conflict next then !next.any (·.guard.isSome) else turns next kinds

variable {level : Nat} {ahead : List Token} {kinds : List Kind}

theorem glance_turned {closed : Unit → Forecast} (turned : turns configs kinds = true)
    (starts : kinds <+: ahead.map (·.kind)) (looked : Nat) :
    (glance level closed configs looked ahead).option = (closed ()).option := by
  induction kinds generalizing configs ahead looked with
  | nil => cases turned
  | cons kind kinds ih =>
    obtain ⟨more,split⟩ := starts
    cases ahead with
    | nil => cases split
    | cons token rest =>
      rw [map_cons,cons_append,List.cons.injEq] at split
      obtain ⟨rfl,later⟩ := split
      rw [turns] at turned
      simp only [Bool.and_eq_true,Option.isNone_iff_eq_none,Bool.not_eq_true'] at turned
      obtain ⟨⟨⟨unsettled,going⟩,several⟩,onward⟩ := turned
      rw [glance]
      simp only [unsettled,going,several,Option.isSome_none,Bool.false_eq_true,if_false]
      cases conflict : Config.conflict (Config.advance true token.kind configs) with
      | true =>
        rw [conflict,if_pos rfl,Bool.not_eq_true'] at onward
        simp only [onward,Bool.false_and,Bool.false_eq_true,if_true,if_false]
      | false =>
        rw [conflict,if_neg (by simp)] at onward
        cases kinds with
        | nil => cases onward
        | cons second kinds =>
          have longer : rest.isEmpty = false := by
            cases rest with
            | nil => cases later
            | cons _ _ => rfl
          simp only [longer,Bool.false_eq_true,if_false]
          exact ih onward ⟨more,later⟩ _

theorem forecast_turned {rule : Rule} {pending : Stacks}
    (turned : turns (make rule false reaches).start kinds = true) (starts : kinds <+: ahead.map (·.kind)) :
    ((make rule false reaches).forecast level pending ahead).option =
      (foresee level ((make rule false reaches).startClosed level pending) 0 ahead).option :=
  glance_turned turned starts 0

end Turning

section Tests

variable {reach : Reach} {mark : Bool}
variable {rule : Rule} {sites under : List Label} {head : Head} {kind : Kind}

theorem contains_of_enters (enters : reach.Enters sites head under)
    (taken : head.kinds.contains kind = true) : reach.kinds.contains kind = true := by
  induction enters with
  | own member =>
    rw [Reach.contains_kinds,any_eq_true.mpr ⟨_,member,taken⟩,Bool.true_or]
  | call member _ ih =>
    rw [Reach.contains_kinds,Bool.or_eq_true]
    exact .inr (any_eq_true.mpr ⟨_,member,ih taken⟩)

theorem contains_foldl_kinds (reaches : List Reach) (set : KindSet) : (reaches.foldl
    (fun set reach => set ∪ reach.kinds) set).contains kind = (set.contains kind || reaches.any (·.kinds.contains kind)) := by
  induction reaches generalizing set with
  | nil => simp
  | cons reach rest ih => simp [ih,Bool.or_assoc]

theorem contains_callers {ends : List (Rule × Bool)}
    (closed : ∀ one ∈ ends, ∀ two, Rule.Follows none one two → two ∈ ends)
    (leaves : Reach.Leaves none rule sites mark head under) (reached : (rule,false) ∈ ends)
    (taken : head.kinds.contains kind = true) :
    ∃ call ∈ ends.flatMap (·.1.callers), (Label.after call.1).kinds.contains kind = true := by
  induction leaves with
  | here calls enters => exact ⟨_,mem_flatMap.mpr ⟨_,reached,calls⟩,contains_of_enters enters taken⟩
  | @up _ site _ _ _ _ _ calls spent _ ih =>
    have next : (site.rule,false) ∈ ends := closed _ reached _ ⟨site,_,calls,spent,by simp⟩
    exact ih next taken

theorem contains_beyond (leaves : Reach.Leaves none rule sites mark head under)
    (taken : head.kinds.contains kind = true) : (kindsBeyond rule).1.contains kind = true := by
  have every (rule : Rule) : (rule,false) ∈ Rule.all.map (·,false) := mem_map.mpr ⟨rule,Rule.mem_all rule,rfl⟩
  have within (one : Rule × Bool) (listed : one ∈ Rule.all.map (·,false)) (two : Rule × Bool)
      (follows : Rule.Follows none one two) : two ∈ Rule.all.map (·,false) := by
    obtain ⟨_,_,rfl⟩ := mem_map.mp listed
    obtain ⟨site,level,_,_,rfl⟩ := follows
    simpa using every site.rule
  obtain ⟨begun,closed⟩ := Rule.endsFrom_start (every rule) within (Nat.le_of_eq (length_map ..))
  obtain ⟨call,listed,contains⟩ := contains_callers closed leaves begun taken
  rw [kindsBeyond,contains_foldl_kinds,Bool.or_eq_true]
  exact .inr (any_eq_true.mpr ⟨_,mem_map.mpr ⟨call,listed,rfl⟩,contains⟩)

theorem disjoint_unique {sets : List KindSet} (apart : disjoint sets = true) {one two : Nat} {first second : KindSet}
    (atOne : sets[one]? = some first) (atTwo : sets[two]? = some second) (inFirst : first.contains kind = true)
    (inSecond : second.contains kind = true) : one = two := by
  induction sets generalizing one two with
  | nil => simp at atOne
  | cons set sets ih =>
    rw [disjoint,Bool.and_eq_true,all_eq_true] at apart
    cases one with
    | zero =>
      cases two with
      | zero => rfl
      | succ two =>
        cases Option.some.inj atOne
        exact absurd inSecond (by simp [KindSet.apart_of_isEmpty (apart.1 second (mem_of_getElem? atTwo)) inFirst])
    | succ one =>
      cases two with
      | zero =>
        cases Option.some.inj atTwo
        exact absurd inFirst (by simp [KindSet.apart_of_isEmpty (apart.1 first (mem_of_getElem? atOne)) inSecond])
      | succ two => rw [ih apart.2 atOne atTwo]

theorem tests_index {base : Rule} {level option : Nat} {reaches : List Reach} (linked : Linked base rule sites)
    {kinds : List Kind} {tests : List KindSet} (tested : tokenTests rule reaches = some tests)
    (found : reaches[option - 1]? = some reach) (reads : reach.Reads level sites (kind :: kinds)) :
    tests.findIdx? (·.contains kind) = some (option - 1) := by
  rw [tokenTests] at tested
  dsimp only at tested
  split at tested
  · rename_i apart
    rw [Bool.and_eq_true] at apart
    have contains : (if reach.ends then reach.kinds ∪ (kindsBeyond rule).1 else reach.kinds).contains kind = true := by
      have inside (own : reach.kinds.contains kind = true) :
          (if reach.ends then reach.kinds ∪ (kindsBeyond rule).1 else reach.kinds).contains kind = true := by
        split
        · rw [KindSet.contains_union,own,Bool.true_or]
        · exact own
      cases reads with
      | take meets taken _ =>
        cases meets with
        | own member _ => exact inside (contains_of_enters (Reach.Enters.own member : reach.Enters sites _ sites) taken)
        | call member enters => exact inside (contains_of_enters (.call member enters) taken)
        | up ends meets =>
          obtain ⟨_,leaves⟩ := meets.leaves none linked
          rw [if_pos ends,KindSet.contains_union,contains_beyond leaves taken,Bool.or_true]
    cases tested
    have listed := (List.getElem?_map ..).trans (congrArg (Option.map fun reach =>
      if reach.ends then reach.kinds ∪ (kindsBeyond rule).1 else reach.kinds) found)
    obtain ⟨bound,same⟩ := List.getElem?_eq_some_iff.mp listed
    refine List.findIdx?_eq_some_iff_getElem.mpr ⟨bound,by rw [same]; exact contains,fun earlier before => ?_⟩
    intro also
    have unique := disjoint_unique apart.2 (List.getElem?_eq_getElem (Nat.lt_trans before bound)) listed also contains
    omega
  · cases tested

end Tests

end Decision

end SolReader
