import Mathlib.Data.List.SplitBy
import SolReader.Prediction.Forecast
import SolReader.Proofs.Prediction.Decision

namespace SolReader

open List (forall_mem_cons mem_append mem_cons_of_mem mem_cons_self mem_filter mem_flatMap mem_map)

variable {reaches : List Reach}

namespace Reach

variable {head : Head} {kind : Kind}

mutual

-- The heads of a reach, those inside the calls included.
def allHeads : Reach → List Head
  | .mk heads calls _ _ => heads ++ headsOfCalls calls

def headsOfCalls : List (Label × Reach) → List Head
  | [] => []
  | (_,reach) :: calls => reach.allHeads ++ headsOfCalls calls

end

theorem allHeads_eq (reach : Reach) : reach.allHeads = reach.heads ++ headsOfCalls reach.calls := by
  cases reach
  rfl

mutual

theorem kinds_of_head {reach : Reach} (member : head ∈ reach.allHeads)
    (takes : head.kinds.contains kind = true) : reach.kinds.contains kind = true := by
  cases reach with
  | mk heads calls ends level =>
    rw [contains_kinds,Bool.or_eq_true]
    rw [allHeads,mem_append] at member
    rcases member with own | called
    · exact .inl (List.any_eq_true.mpr ⟨head,own,takes⟩)
    · have found := kinds_of_called called takes
      rw [contains_kindsOfCalls] at found
      exact .inr found

theorem kinds_of_called {calls : List (Label × Reach)} (member : head ∈ headsOfCalls calls)
    (takes : head.kinds.contains kind = true) : (kindsOfCalls calls).contains kind = true := by
  cases calls with
  | nil => simp [headsOfCalls] at member
  | cons call rest =>
    obtain ⟨site,reach⟩ := call
    rw [headsOfCalls,mem_append] at member
    rw [kindsOfCalls,KindSet.contains_union,Bool.or_eq_true]
    exact member.imp (fun own => kinds_of_head own takes) fun later => kinds_of_called later takes

end

-- No head has the label of an end.
def Proper (reach : Reach) : Prop :=
  ∀ head ∈ reach.allHeads, head.label % Label.span ≠ Label.span - 1

end Reach

set_option maxRecDepth 100000 in
theorem Grammar.options_checked : (Grammar.places.all fun todo => (Todo.options todo).all fun option =>
    (Todo.reach option).allHeads.all fun head => head.label % Label.span != Label.span - 1) = true := by
  decide

theorem Grammar.options_proper (place : todo ∈ Grammar.places)
    (member : option ∈ Todo.options todo) : (Todo.reach option).Proper := by
  have checked := List.all_eq_true.mp (List.all_eq_true.mp Grammar.options_checked todo place) option member
  intro head inside
  simpa using List.all_eq_true.mp checked head inside

namespace Config

variable {isOpen : Bool} {configs : List Config} {Holds : Config → Prop} {option : Nat}

-- The ways into the called rules start at heads of the reach and keep the marks of the way they come from.
mutual

theorem mem_descend {pending : Stacks} (member : config ∈ descend way pending reach) :
    ∃ head ∈ reach.allHeads, ∃ under, config = way.atHead under head := by
  cases reach with
  | mk heads calls ends level =>
    rw [descend,mem_append] at member
    rw [Reach.allHeads]
    rcases member with own | called
    · obtain ⟨head,inside,rfl⟩ := mem_map.mp own
      exact ⟨head,List.mem_append_left _ inside,pending,rfl⟩
    · obtain ⟨head,inside,found⟩ := mem_descendAll called
      exact ⟨head,List.mem_append_right _ inside,found⟩

theorem mem_descendAll {pending : Stacks} (member : config ∈ descendAll way pending calls) :
    ∃ head ∈ Reach.headsOfCalls calls, ∃ under, config = way.atHead under head := by
  cases calls with
  | nil => simp [descendAll] at member
  | cons call rest =>
    obtain ⟨site,reach⟩ := call
    rw [descendAll,mem_append] at member
    rw [Reach.headsOfCalls]
    rcases member with own | later
    · obtain ⟨head,inside,found⟩ := mem_descend own
      exact ⟨head,List.mem_append_left _ inside,found⟩
    · obtain ⟨head,inside,found⟩ := mem_descendAll later
      exact ⟨head,List.mem_append_right _ inside,found⟩

end

theorem option_enter {way : Config} {pending : Stacks}
    (member : config ∈ way.enter reach pending) : config.option = way.option := by
  simp only [enter,mem_append,mem_map] at member
  rcases member with ⟨head,_,rfl⟩ | called
  · rfl
  · obtain ⟨head,_,under,rfl⟩ := mem_descendAll called
    rfl

theorem option_leave {pending : Stacks}
    (member : config ∈ leave isOpen way rule pending) : config.option = way.option := by
  induction pending generalizing rule with
  | nil => simp [leave] at member
  | bottom others ih =>
    rw [leave,mem_append] at member
    rcases member with here | later
    · cases isOpen with
      | true =>
        obtain ⟨outer,_,rfl⟩ := mem_map.mp (by simpa using here)
        rfl
      | false => simp_all
    · exact ih later
  | push site below others inner outer =>
    rw [leave,mem_append,mem_append] at member
    rcases member with (here | deeper) | later
    · exact option_enter here
    · split at deeper
      · exact inner deeper
      · cases deeper
    · exact outer later

theorem option_shift {way : Config} (member : config ∈ way.shift isOpen) : config.option = way.option := by
  simp only [shift,mem_append] at member
  rcases member with here | beyond
  · exact option_enter here
  · split at beyond
    · exact option_leave beyond
    · cases beyond

theorem mem_insert {way : Config} (member : config ∈ way.insert configs) : config = way ∨ config ∈ configs := by
  induction configs with
  | nil => exact .inl (List.mem_singleton.mp member)
  | cons next rest ih =>
    rw [insert] at member
    split at member
    · exact List.mem_cons.mp member
    · rcases List.mem_cons.mp member with rfl | later
      · exact .inr mem_cons_self
      · exact (ih later).imp_right (mem_cons_of_mem _)

theorem mem_ordered (member : config ∈ configs.foldr insert []) : config ∈ configs := by
  induction configs with
  | nil => cases member
  | cons first rest ih =>
    rcases mem_insert member with rfl | later
    · exact mem_cons_self
    · exact mem_cons_of_mem _ (ih later)

theorem joinNeighbours_keeps
    (joins : ∀ left right, left.sameWay right → Holds left → Holds right → Holds (left.join isOpen right))
    (all : ∀ config ∈ configs, Holds config) : ∀ config ∈ joinNeighbours isOpen configs, Holds config := by
  rw [joinNeighbours]
  induction configs with
  | nil => simp
  | cons first rest ih =>
    have tail := ih fun config member => all config (mem_cons_of_mem _ member)
    have head := all first (mem_cons_self ..)
    rw [List.foldr_cons]
    split
    · rename_i next others joined
      rw [joined] at tail
      have second := tail next (mem_cons_self ..)
      have others := fun config member => tail config (mem_cons_of_mem _ member)
      split
      · rename_i same
        exact forall_mem_cons.mpr ⟨joins first next same head second,others⟩
      · exact forall_mem_cons.mpr ⟨head,forall_mem_cons.mpr ⟨second,others⟩⟩
    · exact forall_mem_cons.mpr ⟨head,by simp⟩

-- Gathering only joins ways that are the same, so it keeps what joining keeps.
theorem gather_keeps
    (joins : ∀ left right, left.sameWay right → Holds left → Holds right → Holds (left.join isOpen right))
    (all : ∀ config ∈ configs, Holds config) : ∀ config ∈ gather isOpen configs, Holds config :=
  joinNeighbours_keeps joins fun config member => all config (mem_ordered member)

theorem gather_option {Holds : Nat → Prop}
    (all : ∀ config ∈ configs, Holds config.option) : ∀ config ∈ gather isOpen configs, Holds config.option :=
  gather_keeps (fun _ _ _ left _ => left) all

theorem mem_of_soleOption? (sole : soleOption? configs = some option) : ∃ config ∈ configs, config.option = option := by
  cases configs with
  | nil => simp [soleOption?] at sole
  | cons first rest =>
    rw [soleOption?] at sole
    split at sole
    · exact ⟨first,mem_cons_self ..,Option.some.inj sole⟩
    · cases sole

theorem mem_of_leastOption? (least : leastOption? configs = some option) :
    ∃ config ∈ configs, config.option = option :=
  mem_map.mp (List.min?_mem least)

theorem mem_of_groups (grouped : group ∈ groups configs) (member : config ∈ group) : config ∈ configs := by
  have whole : (groups configs).flatten = configs := List.flatten_splitBy ..
  rw [← whole]
  exact List.mem_flatten.mpr ⟨group,grouped,member⟩

theorem mem_of_prevailing? (prevails : prevailing? configs = some option) :
    ∃ config ∈ configs, config.option = option := by
  obtain ⟨config,member,same⟩ := mem_of_soleOption? prevails
  obtain ⟨group,grouped,inside⟩ := mem_flatMap.mp member
  exact ⟨config,mem_of_groups grouped ((mem_filter.mp inside).1),same⟩

theorem mem_of_finished? (finished : finished? level configs = some option) :
    ∃ config ∈ configs, (config.outside = true ∨ config.isFinal = true) ∧ config.option = option := by
  have done : ∃ config ∈ configs.filter fun config => config.outside || (config.isFinal && config.pending.hasEmpty),
      config.option = option := by
    simp only [finished?,Option.orElse_eq_orElse,Option.orElse_eq_or,Option.or_eq_some_iff] at finished
    rcases finished with allowed | ⟨_,other⟩
    · obtain ⟨config,member,same⟩ := mem_of_leastOption? allowed
      exact ⟨config,(mem_filter.mp member).1,same⟩
    · obtain ⟨config,member,same⟩ := mem_of_leastOption? other
      exact ⟨config,(mem_filter.mp member).1,same⟩
  obtain ⟨config,member,same⟩ := done
  obtain ⟨listed,ended⟩ := mem_filter.mp member
  refine ⟨config,listed,?_,same⟩
  simp only [Bool.or_eq_true,Bool.and_eq_true] at ended
  exact ended.imp_right And.left

end Config

section Grounded

variable (reaches : List Reach)

-- The option is one of those given, and the kind can start it unless it can be left out.
def Decision.Fitting (kind : Kind) (option : Nat) : Prop :=
  ∃ reach, 1 ≤ option ∧ reaches[option - 1]? = some reach ∧
    (reach.ends = true ∨ reach.kinds.contains kind = true)

-- A way belongs to one of the options, and unless the option can be left out the way stands at one of its heads.
def Config.Grounded (config : Config) : Prop :=
  ∃ reach, 1 ≤ config.option ∧ reaches[config.option - 1]? = some reach ∧
    (reach.ends = true ∨
      config.outside = false ∧ config.isFinal = false ∧
        ∀ kind, config.kinds.contains kind = true → reach.kinds.contains kind = true)

namespace Config

variable {reaches}

theorem Grounded.fitting {config : Config} (grounded : config.Grounded reaches)
    (past : config.isFinal = true ∨ config.outside = true ∨ config.kinds.contains kind = true) :
    Decision.Fitting reaches kind config.option := by
  obtain ⟨reach,counted,found,ends | ⟨inside,unfinished,takes⟩⟩ := grounded
  · exact ⟨reach,counted,found,.inl ends⟩
  · refine ⟨reach,counted,found,.inr ?_⟩
    rcases past with final | outside | taken
    · simp [unfinished] at final
    · simp [inside] at outside
    · exact takes kind taken

theorem Grounded.join {left : Config} (same : left.sameWay right)
    (one : left.Grounded reaches) (two : right.Grounded reaches) : (left.join isOpen right).Grounded reaches := by
  simp only [sameWay,Bool.and_eq_true,beq_iff_eq] at same
  obtain ⟨reach,counted,found,ends | ⟨inside,unfinished,takes⟩⟩ := one
  · exact ⟨reach,counted,found,.inl ends⟩
  · obtain ⟨other,_,again,ends | ⟨alsoInside,_,_⟩⟩ := two
    · rw [← same.1.2,found] at again
      cases Option.some.inj again
      exact ⟨reach,counted,found,.inl ends⟩
    · refine ⟨reach,counted,found,.inr ⟨?_,unfinished,takes⟩⟩
      simp [Config.join,inside,alsoInside]

theorem grounded_atHead {option : Nat} (counted : 1 ≤ option)
    (found : reaches[option - 1]? = some reach) (proper : reach.Proper) (member : head ∈ reach.allHeads)
    (pending : Stacks) (guard : Option Nat) :
    ({ (⟨0,∅,option,none,pending,false,false⟩ : Config).atHead pending head with guard } : Config).Grounded reaches := by
  refine ⟨reach,counted,found,.inr ⟨rfl,?_,fun kind takes => Reach.kinds_of_head member takes⟩⟩
  simpa [isFinal,atHead] using proper head member

theorem grounded_optionHeads {option : Nat} (counted : 1 ≤ option)
    (found : reaches[option - 1]? = some reach) (proper : reach.Proper) {pending : Stacks}
    (member : config ∈ Decision.optionHeads option reach pending) : config.Grounded reaches := by
  simp only [Decision.optionHeads,mem_append,mem_map] at member
  rcases member with ⟨head,own,rfl⟩ | called
  · exact grounded_atHead counted found proper (by rw [Reach.allHeads_eq]; exact List.mem_append_left _ own) ..
  · obtain ⟨head,inside,under,rfl⟩ := mem_descendAll called
    exact grounded_atHead counted found proper (by rw [Reach.allHeads_eq]; exact List.mem_append_right _ inside) ..

end Config

namespace Decision

variable {reaches}

theorem mem_zipIdx_one (member : (reach,option) ∈ reaches.zipIdx 1) :
    1 ≤ option ∧ reaches[option - 1]? = some reach := by
  obtain ⟨counted,found⟩ := List.mem_zipIdx_iff_le_and_getElem?_sub.mp member
  exact ⟨counted,found⟩

theorem openStart_grounded (proper : ∀ reach ∈ reaches, reach.Proper) (rule : Rule) (isRecursive : Bool) :
    ∀ config ∈ openStart rule isRecursive reaches, config.Grounded reaches := by
  refine Config.gather_keeps (fun _ _ same one two => one.join same two) fun config member => ?_
  obtain ⟨⟨reach,option⟩,listed,inside⟩ := mem_flatMap.mp member
  obtain ⟨counted,found⟩ := mem_zipIdx_one listed
  rcases mem_append.mp inside with head | beyond
  · exact Config.grounded_optionHeads counted found (proper reach (List.mem_of_getElem? found)) head
  · split at beyond
    · rename_i ends
      obtain ⟨outer,_,rfl⟩ := mem_map.mp beyond
      exact ⟨reach,counted,found,.inl ends⟩
    · cases beyond

theorem mem_startOpen {decision : Decision}
    (member : config ∈ decision.startOpen level) : ∃ origin ∈ decision.start, ∃ guard, config = { origin with guard } := by
  rw [startOpen] at member
  dsimp only at member
  split at member
  · rcases mem_append.mp member with round | exit
    · obtain ⟨origin,listed,rfl⟩ := mem_map.mp round
      exact ⟨origin,(mem_filter.mp listed).1,none,rfl⟩
    · exact ⟨config,(mem_filter.mp exit).1,config.guard,rfl⟩
  · exact ⟨config,member,config.guard,rfl⟩

theorem startOpen_grounded (proper : ∀ reach ∈ reaches, reach.Proper) (rule : Rule) (isRecursive : Bool) (level : Nat) :
    ∀ config ∈ (make rule isRecursive reaches).startOpen level, config.Grounded reaches := by
  intro config member
  obtain ⟨origin,listed,guard,rfl⟩ := mem_startOpen member
  exact openStart_grounded proper rule isRecursive origin listed

theorem startClosed_grounded (proper : ∀ reach ∈ reaches, reach.Proper) (rule : Rule) (isRecursive : Bool) (level : Nat)
    (pending : Stacks) :
    ∀ config ∈ (make rule isRecursive reaches).startClosed level pending, config.Grounded reaches := by
  refine Config.gather_keeps (fun _ _ same one two => one.join same two) fun config member => ?_
  obtain ⟨⟨reach,option⟩,listed,inside⟩ := mem_flatMap.mp member
  obtain ⟨counted,found⟩ := mem_zipIdx_one listed
  rcases mem_append.mp inside with head | beyond
  · obtain ⟨origin,allowed,rfl⟩ := mem_map.mp head
    have grounded : origin.Grounded reaches :=
      Config.grounded_optionHeads counted found (proper reach (List.mem_of_getElem? found))
        (mem_filter.mp allowed).1
    exact grounded
  · split at beyond
    · rename_i ends
      have same := Config.option_leave beyond
      exact ⟨reach,same ▸ counted,same ▸ found,.inl ends⟩
    · cases beyond

end Decision

end Grounded

section Following

variable {Good : Nat → Prop}

-- Every way that gets past the next token, or is past the end of the rule already, has a good option.
def Config.Ready (Good : Nat → Prop) (configs : List Config) (ahead : List Token) : Prop :=
  ∀ config ∈ configs,
    (config.isFinal = true ∨ config.outside = true ∨ ∃ token ∈ ahead.head?, config.kinds.contains token.kind = true) →
      Good config.option

namespace Config

variable {configs : List Config} {option : Nat} {token : Token} {rest : List Token} {isOpen : Bool}

theorem Ready.of_all (all : ∀ config ∈ configs, Good config.option) (ahead : List Token) : Ready Good configs ahead :=
  fun config member _ => all config member

theorem Ready.finished (ready : Ready Good configs ahead)
    (finished : finished? level configs = some option) : Good option := by
  obtain ⟨config,member,ended,rfl⟩ := mem_of_finished? finished
  exact ready config member (ended.elim (fun outside => .inr (.inl outside)) .inl)

theorem Ready.taking (ready : Ready Good configs (token :: rest)) :
    ∀ config ∈ configs.filter (·.kinds.contains token.kind), Good config.option := by
  intro config member
  obtain ⟨listed,takes⟩ := mem_filter.mp member
  exact ready config listed (.inr (.inr ⟨token,rfl,takes⟩))

theorem Ready.settled (ready : Ready Good configs (token :: rest))
    (settled : settled? isOpen token.kind configs = some option) : Good option := by
  rw [settled?] at settled
  split at settled
  · cases settled
  · obtain ⟨config,member,rfl⟩ := mem_of_soleOption? settled
    exact ready.taking config member

theorem Ready.advance (ready : Ready Good configs (token :: rest)) :
    ∀ config ∈ advance isOpen token.kind configs, Good config.option := by
  have moved : ∀ config ∈ gather isOpen ((configs.filter (·.kinds.contains token.kind)).flatMap (shift isOpen)),
      Good config.option := by
    refine gather_option fun config member => ?_
    obtain ⟨origin,listed,inside⟩ := mem_flatMap.mp member
    rw [option_shift inside]
    exact ready.taking origin listed
  have ended : ∀ config ∈ configs.filter isFinal, Good config.option := by
    intro config member
    obtain ⟨listed,final⟩ := mem_filter.mp member
    exact ready config listed (.inl final)
  have kept : ∀ config ∈ (if token.kind = .eof then
        (gather isOpen ((configs.filter (·.kinds.contains token.kind)).flatMap (shift isOpen))).filter isFinal
      else gather isOpen ((configs.filter (·.kinds.contains token.kind)).flatMap (shift isOpen))),
      Good config.option := by
    intro config member
    split at member
    · exact moved config (mem_filter.mp member).1
    · exact moved config member
  unfold Config.advance
  dsimp only
  generalize (if token.kind = .eof then
      (gather isOpen ((configs.filter (·.kinds.contains token.kind)).flatMap (shift isOpen))).filter isFinal
    else gather isOpen ((configs.filter (·.kinds.contains token.kind)).flatMap (shift isOpen))) = onward at kept ⊢
  have both := List.forall_mem_append.mpr ⟨kept,ended⟩
  split
  · split
    · exact gather_option both
    · exact kept
  · split
    · exact kept
    · exact gather_option both

end Config

namespace Decision

variable {level looked option : Nat} {configs : List Config} {ahead : List Token}

-- The step is `Ready.advance`; the ways left after it all have good options, so the rest of the text does not matter.
theorem foresee_good (ready : Config.Ready Good configs ahead)
    (seen : (foresee level configs looked ahead).option = some option) : Good option := by
  induction ahead generalizing configs looked with
  | nil => exact ready.finished seen
  | cons token rest ih =>
    rw [foresee] at seen
    have all : ∀ config ∈ Config.advance false token.kind configs, Good config.option := ready.advance
    cases settled : Config.settled? false token.kind configs with
    | some found =>
      simp only [settled,Option.some.injEq] at seen
      exact seen ▸ ready.settled settled
    | none =>
      simp only [settled] at seen
      split at seen
      · exact ready.finished seen
      · split at seen
        · rename_i agreed found
          simp only [Option.orElse_eq_orElse,Option.orElse_eq_or,Option.or_eq_some_iff] at found
          rw [← Option.some.inj seen]
          rcases found with sole | ⟨_,prevails⟩
          · obtain ⟨config,member,same⟩ := Config.mem_of_soleOption? sole
            exact same ▸ all config member
          · obtain ⟨config,member,same⟩ := Config.mem_of_prevailing? prevails
            exact same ▸ all config member
        · split at seen
          · cases seen
          · exact ih (Config.Ready.of_all all rest) seen

theorem allowed_good (all : ∀ config ∈ configs, Good config.option)
    (allowed : allowed? level configs = some option) : Good option := by
  obtain ⟨config,member,rfl⟩ := Config.mem_of_soleOption? allowed
  exact all config (mem_filter.mp member).1

theorem glance_good {closed : Unit → Forecast} (turned : ∀ option, (closed ()).option = some option → Good option)
    (ready : Config.Ready Good configs ahead)
    (seen : (glance level closed configs looked ahead).option = some option) : Good option := by
  induction ahead generalizing configs looked with
  | nil => exact ready.finished seen
  | cons token rest ih =>
    rw [glance] at seen
    have all : ∀ config ∈ Config.advance true token.kind configs, Good config.option := ready.advance
    cases settled : Config.settled? true token.kind configs with
    | some found =>
      simp only [settled] at seen
      exact allowed_good ready.taking seen
    | none =>
      simp only [settled] at seen
      split at seen
      · exact ready.finished seen
      · split at seen
        · exact allowed_good all seen
        · split at seen
          · split at seen
            · exact allowed_good all seen
            · exact turned option seen
          · split at seen
            · cases seen
            · exact ih (Config.Ready.of_all all rest) seen

end Decision

end Following

theorem Config.ready_of_grounded
    (grounded : ∀ config ∈ configs, config.Grounded reaches) (token : Token) (rest : List Token) :
    Config.Ready (Decision.Fitting reaches token.kind) configs (token :: rest) := by
  intro config member past
  refine (grounded config member).fitting (past.imp_right (·.imp_right ?_))
  rintro ⟨first,isHead,takes⟩
  cases Option.mem_some.mp isHead
  exact takes

theorem Decision.forecast_fits (proper : ∀ reach ∈ reaches, reach.Proper) {rule : Rule} {isRecursive : Bool}
    (seen : ((make rule isRecursive reaches).forecast level pending (token :: rest)).option = some option) :
    Decision.Fitting reaches token.kind option :=
  glance_good
    (fun _ => foresee_good (Config.ready_of_grounded (startClosed_grounded proper rule isRecursive level pending) token rest))
    (Config.ready_of_grounded (startOpen_grounded proper rule isRecursive level) token rest) seen

end SolReader
