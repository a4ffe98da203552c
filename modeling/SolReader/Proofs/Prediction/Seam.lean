import SolReader.Proofs.Prediction.Glance
import SolReader.Proofs.Prediction.Todo

namespace SolReader

open List Bool

namespace Config

variable {way config : Config} {pending : Stacks} {isOpen : Bool}

-- None of the ways has a level that is still to be compared.
def Free (configs : List Config) : Prop :=
  ∀ config ∈ configs, config.guard = none

theorem guard_enter (member : config ∈ way.enter reach pending) : config.guard = way.guard := by
  rcases mem_append.mp member with own | called
  · obtain ⟨_,_,rfl⟩ := mem_map.mp own
    rfl
  · obtain ⟨_,_,_,rfl⟩ := mem_descendAll called
    rfl

theorem guard_leave (member : config ∈ way.leave isOpen rule pending) : config.guard = way.guard := by
  induction pending generalizing rule with
  | nil => cases member
  | bottom others ih =>
    rw [leave,mem_append] at member
    rcases member with here | later
    · cases isOpen with
      | true =>
        obtain ⟨_,_,rfl⟩ := mem_map.mp here
        rfl
      | false =>
        cases mem_singleton.mp here
        rfl
    · exact ih later
  | push site below others inner outer =>
    rw [leave_push,mem_append] at member
    rcases member with here | later
    · rcases onward_of_mem here with entered | ⟨_,left⟩
      · exact guard_enter entered
      · exact inner left
    · exact outer later

theorem guard_shift (member : config ∈ way.shift isOpen) : config.guard = way.guard := by
  rcases onward_of_mem member with entered | ⟨_,left⟩
  · exact guard_enter entered
  · exact guard_leave left

namespace Free

variable {configs : List Config}

theorem gather (free : Free configs) (isOpen : Bool) : Free (Config.gather isOpen configs) :=
  gather_keeps (fun _ _ _ left _ => left) free

theorem filter (free : Free configs) (keep : Config → Bool) : Free (configs.filter keep) :=
  fun config member => free config (mem_filter.mp member).1

theorem moved (free : Free configs) (kind : Kind) :
    Free ((configs.filter (·.kinds.contains kind)).flatMap (shift true)) := by
  intro config member
  obtain ⟨way,listed,shifted⟩ := mem_flatMap.mp member
  rw [guard_shift shifted]
  exact free.filter _ way listed

theorem advance (free : Free configs) (kind : Kind) : Free (Config.advance true kind configs) := by
  have moved := (free.moved kind).gather true
  rw [advance_open]
  split
  · exact gather (forall_mem_append.mpr ⟨moved.filter isFinal,free.filter isFinal⟩) true
  · exact moved

theorem allows (free : Free configs) (level : Nat) (member : config ∈ configs) : config.allows level = true := by
  rw [Config.allows,free config member]
  rfl

theorem filter_allows (free : Free configs) (level : Nat) : configs.filter (Config.allows level) = configs :=
  filter_eq_self.mpr fun _ member => free.allows level member

theorem finished? (free : Free configs) (one two : Nat) : Config.finished? one configs = Config.finished? two configs := by
  have same (keep : Config → Bool) : (configs.filter keep).filter (Config.allows one) =
      (configs.filter keep).filter (Config.allows two) := by
    rw [(free.filter keep).filter_allows,(free.filter keep).filter_allows]
  have absent (keep : Config → Bool) (level : Nat) : (configs.filter keep).filter (!Config.allows level ·) = [] :=
    filter_eq_nil_iff.mpr fun _ member => by simp [(free.filter keep).allows level member]
  simp only [Config.finished?,same,absent]

end Free

end Config

namespace Decision

open Config (Free)

theorem allowed?_free (free : Free configs) (level : Nat) : allowed? level configs = Config.soleOption? configs := by
  rw [allowed?,free.filter_allows]

section Glance

variable {one two : Nat} {first second : Unit → Forecast}

-- Two looks at the same ways come to the same answer or both turn to the calls that are open.
theorem glance_same {configs : List Config} (free : Free configs) (ahead : List Token) (looked : Nat) :
    (glance one first configs looked ahead).option = (glance two second configs looked ahead).option ∨
      ((glance one first configs looked ahead).option = (first ()).option ∧
        (glance two second configs looked ahead).option = (second ()).option) := by
  induction ahead generalizing configs looked with
  | nil => exact .inl (free.finished? one two)
  | cons token rest ih =>
    have next := free.advance token.kind
    have guards : (Config.advance true token.kind configs).any (·.guard.isSome) = false :=
      any_eq_false.mpr fun config member => by simp [next config member]
    rw [glance,glance]
    cases Config.settled? true token.kind configs with
    | some found =>
      left
      exact (allowed?_free (free.filter _) one).trans (allowed?_free (free.filter _) two).symm
    | none =>
      simp only [guards,Bool.false_and,Bool.false_eq_true,if_false]
      split
      · exact .inl (free.finished? one two)
      · split
        · left
          exact (allowed?_free next one).trans (allowed?_free next two).symm
        · split
          · exact .inr ⟨rfl,rfl⟩
          · split
            · exact .inl rfl
            · exact ih next (looked + 1)

-- Ways that differ only in those that do not take the next token are told apart no later than after it.
theorem glance_alike {left : List Config} (free : Free right) {token : Token} (going : token.kind ≠ .eof)
    (same : left.filter (·.kinds.contains token.kind) = right.filter (·.kinds.contains token.kind)) {option : Nat}
    (unfinished : Config.finished? one left ≠ some option) (rest : List Token)
    (found : (glance one first left 0 (token :: rest)).option = some option) :
    (glance two second right 0 (token :: rest)).option = some option ∨
      ((first ()).option = some option ∧ (glance two second right 0 (token :: rest)).option = (second ()).option) := by
  have settled : Config.settled? true token.kind left = Config.settled? true token.kind right := by
    simp [Config.settled?,same]
  have advanced : Config.advance true token.kind left = Config.advance true token.kind right := by
    rw [Config.advance_open,Config.advance_open,if_neg going,if_neg going,same]
  have next := free.advance token.kind
  have guards : (Config.advance true token.kind right).any (·.guard.isSome) = false :=
    any_eq_false.mpr fun config member => by simp [next config member]
  rw [glance] at found ⊢
  rw [settled,advanced,same] at found
  cases chosen : Config.settled? true token.kind right with
  | some other =>
    simp only [chosen,allowed?_free (free.filter _)] at found ⊢
    exact .inl found
  | none =>
    simp only [chosen,guards,Bool.false_and,Bool.false_eq_true,if_false,allowed?_free next] at found ⊢
    split at found
    · exact absurd found unfinished
    · rename_i filled
      rw [if_neg filled]
      split at found
      · rename_i sole
        rw [if_pos sole]
        exact .inl found
      · rename_i several
        rw [if_neg several]
        split at found
        · rename_i conflict
          rw [if_pos conflict]
          exact .inr ⟨found,rfl⟩
        · rename_i apart
          rw [if_neg apart]
          split at found
          · cases found
          · rename_i more
            rw [if_neg more]
            have agree : _ ∨ _ := @glance_same one two first second _ next rest 1
            rcases agree with agree | ⟨fallback,other⟩
            · exact .inl (agree ▸ found)
            · exact .inr ⟨fallback ▸ found,other⟩

end Glance

section Start

variable {config : Config}
variable {base rule : Rule} {round : Reach} {kind : Kind}

theorem outward_free {marked : Option Rule} (member : config ∈ Rule.outward marked rule) : config.guard = none := by
  obtain ⟨⟨outer,mark⟩,_,inside⟩ := mem_flatMap.mp member
  dsimp only at inside
  split at inside
  · cases mem_singleton.mp inside
    rfl
  · obtain ⟨_,_,entered⟩ := mem_flatMap.mp inside
    exact Config.guard_enter entered

theorem start_exit (member : config ∈ (make rule true [round,.nothing]).start)
    (past : config.option ≠ 1) : config.guard = none := by
  have kept : ∀ config ∈ (make rule true [round,.nothing]).start, config.option ≠ 1 → config.guard = none := by
    rw [start_eq]
    refine Config.gather_keeps (fun _ _ _ left _ => left) fun config member past => ?_
    obtain ⟨⟨reach,option⟩,listed,inside⟩ := mem_flatMap.mp member
    have options : (reach,option) = (round,1) ∨ (reach,option) = (.nothing,2) := by simpa using listed
    rcases mem_append.mp inside with entered | beyond
    · rcases options with same | same
      · cases same
        refine absurd ?_ past
        rcases mem_append.mp entered with own | called
        · obtain ⟨_,_,rfl⟩ := mem_map.mp own
          rfl
        · obtain ⟨_,_,_,rfl⟩ := Config.mem_descendAll called
          rfl
      · cases same
        cases entered
    · split at beyond
      · obtain ⟨_,outside,rfl⟩ := mem_map.mp beyond
        have free := outward_free outside
        exact free
      · cases beyond
  exact kept config member past

theorem startOpen_free (level : Nat) : Free ((make rule true [round,.nothing]).startOpen level) := by
  intro config member
  rcases mem_append.mp member with repeated | exit
  · obtain ⟨_,_,rfl⟩ := mem_map.mp repeated
    rfl
  · obtain ⟨started,past⟩ := mem_filter.mp exit
    rw [and_eq_true,bne_iff_ne] at past
    exact start_exit started past.1

-- The ways that take another round, as far as the level allows.
def rounds (rule : Rule) (round : Reach) (level : Nat) : List Config :=
  ((make rule true [round,.nothing]).start.filter fun config => config.option == 1 && config.allows level).map
    ({ · with guard := none })

variable (located : round.Located rule)

include located

theorem both_located : ∀ reach ∈ [round,.nothing], reach.Located rule :=
  forall_mem_cons.mpr ⟨located,forall_mem_singleton.mpr (Reach.located_blank true none)⟩

theorem any_round (genuine : config.Genuine) (taken : config.kinds.contains kind = true) (level : Nat) :
    (rounds rule round level).any (fun other => other.label == config.label && other.pending == config.pending) =
      ((rounds rule round level).filter (·.kinds.contains kind)).any
        fun other => other.label == config.label && other.pending == config.pending := by
  rw [Bool.eq_iff_iff,List.any_eq_true,List.any_eq_true]
  refine ⟨fun ⟨other,member,same⟩ => ⟨other,List.mem_filter.mpr ⟨member,?_⟩,same⟩,
    fun ⟨other,member,same⟩ => ⟨other,(List.mem_filter.mp member).1,same⟩⟩
  obtain ⟨origin,chosen,rfl⟩ := List.mem_map.mp member
  have also : origin.Genuine := start_genuine (both_located located) true origin (List.mem_filter.mp chosen).1
  rw [Bool.and_eq_true,beq_iff_eq] at same
  change origin.kinds.contains kind = true
  rwa [also,same.1,← genuine]

variable (calls : round.calls = []) (ends : round.ends = false)

include calls ends

theorem rounds_taking
    (allowed : ∀ head ∈ round.heads, head.kinds.contains kind = true → head.level.all (level ≤ ·) = true) :
    (rounds rule round level).filter (·.kinds.contains kind) =
      ((make rule true [round,.nothing]).start.filter fun config =>
        config.kinds.contains kind && config.option == 1).map ({ · with guard := none }) := by
  rw [rounds,filter_map,filter_filter]
  refine congrArg _ (filter_congr fun config member => ?_)
  change (config.kinds.contains kind && (config.option == 1 && config.allows level)) = _
  cases taken : config.kinds.contains kind with
  | false => rfl
  | true =>
    by_cases first : config.option = 1
    · obtain ⟨head,own,label,guard⟩ := start_round calls ends member first
      have kinds : config.kinds = head.kinds := by
        rw [start_genuine (both_located located) true config member,label,(located.of_head own).2.2]
      rw [Config.allows,guard,allowed head own (kinds ▸ taken),Bool.and_true]
    · simp [first]

-- The ways that take the token are the same for any two levels that allow every round which takes it.
theorem startOpen_taking (allowed : ∀ head ∈ round.heads, head.kinds.contains kind = true →
      head.level.all (one ≤ ·) = true ∧ head.level.all (two ≤ ·) = true) :
    ((make rule true [round,.nothing]).startOpen one).filter (·.kinds.contains kind) =
      ((make rule true [round,.nothing]).startOpen two).filter (·.kinds.contains kind) := by
  have same : (rounds rule round one).filter (·.kinds.contains kind) =
      (rounds rule round two).filter (·.kinds.contains kind) := by
    rw [rounds_taking located calls ends fun head own taken => (allowed head own taken).1,
      rounds_taking located calls ends fun head own taken => (allowed head own taken).2]
  have opened (level : Nat) : (make rule true [round,.nothing]).startOpen level = rounds rule round level ++
      (make rule true [round,.nothing]).start.filter fun config => config.option != 1 && (config.lifted ||
        !(rounds rule round level).any fun other => other.label == config.label && other.pending == config.pending) := rfl
  rw [opened,opened,filter_append,filter_append,same,filter_filter,filter_filter]
  refine congrArg _ (filter_congr fun config member => ?_)
  cases taken : config.kinds.contains kind with
  | false => rfl
  | true =>
    have genuine := start_genuine (both_located located) true config member
    rw [any_round located genuine taken,any_round located genuine taken,same]

theorem unfinished (level : Nat) :
    Config.finished? level ((make rule true [round,.nothing]).startOpen level) ≠ some 1 := by
  intro finished
  obtain ⟨config,member,done,first⟩ := Config.mem_of_finished? finished
  have proper : ∀ reach ∈ [round,.nothing], reach.Proper := by
    refine forall_mem_cons.mpr ⟨fun head inside => ?_,forall_mem_singleton.mpr fun head inside => by cases inside⟩
    rw [Reach.allHeads_eq,calls] at inside
    exact (located.of_head (by simpa [Reach.headsOfCalls] using inside)).2.1.proper
  obtain ⟨reach,_,found,spent | ⟨inside,going,_⟩⟩ := startOpen_grounded proper rule true level config member
  · rw [first] at found
    cases Option.some.inj found
    simp [ends] at spent
  · simp [inside,going] at done

end Start

section Seam

variable {base rule : Rule} {round : Reach} {site : Label} {sites : List Label} {outer inner count : Nat} {token : Token}
  {rest : List Token}

theorem round_under (located : round.Located rule) (calls : round.calls = []) (ends : round.ends = false)
    (rounds : ∀ head ∈ round.heads, head.label.isRound = true) (closes : site.isClosing = true) (own : site.rule = rule)
    (allowed : ∀ head ∈ round.heads, head.kinds.contains token.kind = true →
      head.level.all (outer ≤ ·) = true ∧ head.level.all (inner ≤ ·) = true)
    (reads : round.Reads outer sites (((token :: rest).map (·.kind)).take count)) :
    round.Reads inner (site :: sites) (((token :: rest).map (·.kind)).take count) := by
  cases count with
  | zero =>
    cases reads with
    | done finishes => exact absurd finishes.ends (by simp [ends])
  | succ count =>
    rw [map_cons,take_succ_cons] at reads ⊢
    cases reads with
    | take meets taken reads =>
      cases meets with
      | own member _ =>
        refine .take (.own member (allowed _ member taken).2) taken (reads.alike (.unfold sites (rounds _ member) closes ?_))
        exact own.trans (located.of_head member).1.symm
      | call member _ =>
        rw [calls] at member
        cases member
      | up spent _ => simp [ends] at spent

-- A rule was called with the level `inner` at the end of a round of an outer one, which goes on with another round.
-- If both levels allow every round that takes the token, the inner one was not left here.
theorem seam (located : round.Located rule) (calls : round.calls = []) (ends : round.ends = false)
    (rounds : ∀ head ∈ round.heads, head.label.isRound = true) (linked : Linked base rule sites)
    (closes : site.isClosing = true) (called : (site,inner) ∈ rule.callers)
    (splits : ∀ {level kinds}, site.after.Reads level sites kinds ↔
      round.Reads level sites kinds ∨ Reach.nothing.Reads level sites kinds)
    (raised : ∀ {kinds}, site.after.Reads 0 sites kinds → site.after.Reads outer sites kinds)
    (closed : Token.Closed (token :: rest)) (going : token.kind ≠ .eof)
    (allowed : ∀ head ∈ round.heads, head.kinds.contains token.kind = true →
      head.level.all (outer ≤ ·) = true ∧ head.level.all (inner ≤ ·) = true)
    (within : count ≤ (token :: rest).length)
    (reads : site.after.Reads outer sites (((token :: rest).map (·.kind)).take count))
    (goesOn : ((make rule true [round,.nothing]).forecast outer (.single sites) (token :: rest)).option = some 1) :
    ((make rule true [round,.nothing]).forecast inner (.single (site :: sites)) (token :: rest)).option ≠ some 2 := by
  intro leaves
  have same := startOpen_taking located calls ends allowed
  rcases glance_alike (startOpen_free inner) going same (unfinished located calls ends outer) rest goesOn with
    again | ⟨fallback,left⟩
  · cases leaves.symm.trans again
  -- both looked at the open calls: each took the option that can be read furthest
  rw [forecast,left] at leaves
  have own := (Rule.caller_facts called).1 closes
  have under : Linked base rule (site :: sites) := ⟨⟨inner,called⟩,own ▸ linked⟩
  have past : Viable inner [round,.nothing] (site :: sites) ((token :: rest).map (·.kind)) 2 count :=
    ⟨_,by omega,rfl,by simpa using within,(Reach.reads_nothing inner).mpr reads.lowered⟩
  obtain ⟨_,seen,first,viable,best⟩ := foresee_prime (both_located located) under true closed past 0
  cases Option.some.inj (seen.symm.trans leaves)
  have ahead {count : Nat} (bound : count ≤ ((token :: rest).map (·.kind)).length)
      (reads : site.after.Reads outer sites (((token :: rest).map (·.kind)).take count)) :
      ∃ option, Viable outer [round,.nothing] sites ((token :: rest).map (·.kind)) option count := by
    rcases splits.mp reads with more | spent
    · exact ⟨1,_,by omega,rfl,bound,more⟩
    · exact ⟨2,_,by omega,rfl,bound,spent⟩
  obtain ⟨_,filled⟩ := ahead (by simpa using within) reads
  obtain ⟨_,seen,second,further,longest⟩ := foresee_prime (both_located located) linked true closed filled 0
  cases Option.some.inj (seen.symm.trans fallback)
  -- what is read past the inner one the outer one reads too, and the round of the outer one the inner one reads too
  obtain ⟨_,_,same,bound,reads⟩ := viable
  cases Option.some.inj same
  obtain ⟨option,also⟩ := ahead bound (raised ((Reach.reads_nothing inner).mp reads))
  have one := longest option first also
  obtain ⟨_,counted,same,bound,reads⟩ := further
  cases Option.some.inj same
  have two := best 1 second ⟨round,counted,rfl,bound,
    round_under located calls ends rounds closes own allowed reads⟩
  omega

end Seam

end Decision

end SolReader
