import Mathlib.Data.Nat.Find
import SolReader.Proofs.Prediction.Ways
import SolReader.Proofs.Token.Spelling

namespace SolReader

open List

namespace Config

-- The way reads these kinds and is then at the end of everything.
inductive Reads (config : Config) : List Kind → Prop where
  | ended (final : config.isFinal = true) : Reads config []
  | take {sites : List Label} {kind : Kind} {kinds : List Kind} (has : config.pending.Has sites)
      (taken : config.kinds.contains kind = true) (reads : config.label.after.Reads 0 sites kinds) :
      Reads config (kind :: kinds)

-- The way has ended, or it stands at a token under stacks that fit.
inductive Fits (base : Rule) (config : Config) : Prop where
  | ended (same : config = config.spent base)
  | going (marked : config.label.Marked) (kinds : config.kinds = config.label.kinds)
      (linked : ∀ sites, config.pending.Has sites → Linked base config.label.rule sites)

section Fits

variable {kinds : List Kind} {left right : Config}
variable {base : Rule} {config : Config}

theorem Fits.ended_iff (fits : config.Fits base) : config.isFinal = true ↔ config = config.spent base := by
  constructor
  · intro final
    cases fits with
    | ended same => exact same
    | going marked _ _ => exact absurd (by simpa [isFinal] using final) marked.proper
  · intro same
    rw [same]
    exact isFinal_spent config base

theorem Fits.shift {next : Config} (fits : config.Fits base) (going : config.isFinal = false)
    (member : next ∈ config.shift false) : next.Fits base := by
  cases fits with
  | ended same => exact absurd (isFinal_spent config base) (by rw [← same]; simp [going])
  | going _ _ linked =>
    cases comes_of_onward linked member with
    | @going head same marked kinds meets =>
      rw [same]
      refine .going marked kinds.symm fun under has => ?_
      obtain ⟨sites,inside,found⟩ := meets under has
      exact (found.linked config.label.after_located (linked sites inside)).2.2
    | ended same _ _ => exact same ▸ .ended rfl

theorem Fits.shift_reads (fits : config.Fits base) (taken : config.kinds.contains kind = true)
    : (∃ next ∈ config.shift false, next.Reads kinds) ↔ config.Reads (kind :: kinds) := by
  cases fits with
  | ended same =>
    rw [same] at taken
    simp [spent] at taken
  | going marked same linked =>
    constructor
    · rintro ⟨next,member,reads⟩
      cases comes_of_onward linked member with
      | @going head same marked kinds meets =>
        rw [same] at reads
        cases reads with
        | ended final => exact absurd (by simpa [isFinal,atHead] using final) marked.proper
        | take has taken' reads =>
          obtain ⟨sites,inside,found⟩ := meets _ has
          exact .take inside taken (.take found taken' reads)
      | ended same has finishes =>
        rw [same] at reads
        cases reads with
        | ended _ => exact .take has taken (.done finishes)
        | take _ impossible _ => simp [spent] at impossible
    · intro reads
      cases reads with
      | @take sites _ _ has _ reads =>
        cases reads with
        | done finishes =>
          exact ⟨_,onward_over (linked sites has) has finishes config,.ended (isFinal_spent config base)⟩
        | take meets taken' reads =>
          obtain ⟨pending',under',held,found,transfer⟩ := onward_found (linked sites has) has meets config
          exact ⟨_,found,.take held taken' (transfer _ reads)⟩

theorem Fits.label_final (fits : config.Fits base) : config.isFinal = true ↔ config.label = .final base := by
  rw [fits.ended_iff]
  constructor
  · intro same
    rw [same]
    rfl
  · intro same
    refine fits.ended_iff.mp ?_
    have final := isFinal_spent config base
    rwa [isFinal,spent,← same] at final

theorem Fits.same_kinds {other : Config} (fits : config.Fits base) (also : other.Fits base)
    (label : config.label = other.label) : config.kinds = other.kinds := by
  cases fits with
  | ended same =>
    have final := also.label_final.mpr (label ▸ same ▸ rfl)
    rw [same,also.ended_iff.mp final]
    rfl
  | going marked kinds _ =>
    cases also with
    | ended same =>
      rw [same] at label
      have final : config.isFinal = true := by
        rw [isFinal,label]
        exact isFinal_spent other base
      exact absurd (by simpa [isFinal] using final) marked.proper
    | going _ kinds' _ => rw [kinds,kinds',label]

theorem Fits.join (same : left.sameWay right) (one : left.Fits base) (two : right.Fits base) :
    (left.join false right).Fits base := by
  simp only [sameWay,Bool.and_eq_true,beq_iff_eq] at same
  cases one with
  | ended spent =>
    have also := two.ended_iff.mp (two.label_final.mpr (same.1.1 ▸ spent ▸ rfl))
    refine .ended ?_
    rw [spent,also]
    simp [Config.join,Config.spent]
  | going marked kinds linked =>
    refine .going marked kinds fun sites has => ?_
    rcases (Stacks.has_union ..).mp has with inLeft | inRight
    · exact linked sites inLeft
    · cases two with
      | ended spent =>
        have final := isFinal_spent right base
        rw [isFinal,← spent,← same.1.1] at final
        exact absurd (by simpa using final) marked.proper
      | going _ _ linked' =>
        have found := linked' sites inRight
        rwa [← same.1.1] at found

theorem reads_join (same : left.sameWay right) (one : left.Fits base) (two : right.Fits base)
    : (left.join false right).Reads kinds ↔ left.Reads kinds ∨ right.Reads kinds := by
  have label : left.label = right.label := by
    simp only [sameWay,Bool.and_eq_true,beq_iff_eq] at same
    exact same.1.1
  constructor
  · intro reads
    cases reads with
    | ended final => exact .inl (.ended final)
    | take has taken reads =>
      rcases (Stacks.has_union ..).mp has with inLeft | inRight
      · exact .inl (.take inLeft taken reads)
      · refine .inr (.take inRight ?_ ?_)
        · rwa [← one.same_kinds two label]
        · rwa [← label]
  · rintro (reads | reads)
    · cases reads with
      | ended final => exact .ended final
      | take has taken reads => exact .take ((Stacks.has_union ..).mpr (.inl has)) taken reads
    · cases reads with
      | ended final => exact .ended (by rwa [isFinal,← label] at final)
      | take has taken reads =>
        refine .take ((Stacks.has_union ..).mpr (.inr has)) ?_ ?_
        · exact (one.same_kinds two label).symm ▸ taken
        · exact label.symm ▸ reads

end Fits

-- Some way of the option reads the kinds.
def Serves (configs : List Config) (option : Nat) (kinds : List Kind) : Prop :=
  ∃ config ∈ configs, config.option = option ∧ config.Reads kinds

section Serves

variable {option : Nat} {kinds : List Kind}
variable {base : Rule} {configs : List Config} (fits : ∀ config ∈ configs, config.Fits base)

include fits

theorem gather_fits : ∀ config ∈ gather false configs, config.Fits base :=
  gather_keeps (fun _ _ same one two => one.join same two) fits

theorem gather_serves : Serves (gather false configs) option kinds ↔ Serves configs option kinds := by
  constructor
  · rintro ⟨config,member,rfl,reads⟩
    -- each gathered way reads only what one of the ways it was joined from reads
    have kept : ∀ config ∈ gather false configs, config.Fits base ∧
        ∀ kinds, config.Reads kinds → Serves configs config.option kinds := by
      refine gather_keeps (fun left right same one two => ⟨one.1.join same two.1,fun kinds reads => ?_⟩)
        fun config member => ⟨fits config member,fun kinds reads => ⟨config,member,rfl,reads⟩⟩
      have options : left.option = right.option := by
        simp only [sameWay,Bool.and_eq_true,beq_iff_eq] at same
        exact same.1.2
      rcases (reads_join same one.1 two.1).mp reads with inLeft | inRight
      · exact one.2 kinds inLeft
      · exact options ▸ two.2 kinds inRight
    exact (kept config member).2 kinds reads
  · rintro ⟨config,member,same,reads⟩
    have joins (left right : Config) (same : left.sameWay right = true) (one : left.Fits base) (two : right.Fits base)
        (either : left.option = option ∧ left.Reads kinds ∨ right.option = option ∧ right.Reads kinds) :
        (left.join false right).option = option ∧ (left.join false right).Reads kinds := by
      have options : left.option = right.option := by
        simp only [sameWay,Bool.and_eq_true,beq_iff_eq] at same
        exact same.1.2
      rw [reads_join same one two]
      rcases either with ⟨same,reads⟩ | ⟨same,reads⟩
      · exact ⟨same,.inl reads⟩
      · exact ⟨options.trans same,.inr reads⟩
    exact gather_finds (fun _ _ same one two => one.join same two) joins fits member ⟨same,reads⟩

theorem moved_fits (kind : Kind) :
    ∀ config ∈ (configs.filter (·.kinds.contains kind)).flatMap (shift false), config.Fits base := by
  intro next member
  obtain ⟨config,listed,inside⟩ := mem_flatMap.mp member
  obtain ⟨listed,taken⟩ := mem_filter.mp listed
  have going : config.isFinal = false := by
    cases final : config.isFinal with
    | false => rfl
    | true =>
      rw [(fits config listed).ended_iff.mp final] at taken
      simp [spent] at taken
  exact (fits config listed).shift going inside

theorem moved_serves :
    Serves (gather false ((configs.filter (·.kinds.contains kind)).flatMap (shift false))) option kinds ↔
      Serves configs option (kind :: kinds) := by
  rw [gather_serves (moved_fits fits kind)]
  constructor
  · rintro ⟨next,member,rfl,reads⟩
    obtain ⟨config,listed,inside⟩ := mem_flatMap.mp member
    obtain ⟨listed,taken⟩ := mem_filter.mp listed
    exact ⟨config,listed,(option_shift inside).symm,
      ((fits config listed).shift_reads taken).mp ⟨next,inside,reads⟩⟩
  · rintro ⟨config,listed,rfl,reads⟩
    have taken : config.kinds.contains kind = true := by
      cases reads with
      | take _ taken _ => exact taken
    obtain ⟨next,inside,reads⟩ := ((fits config listed).shift_reads taken).mpr reads
    exact ⟨next,mem_flatMap.mpr ⟨config,mem_filter.mpr ⟨listed,taken⟩,inside⟩,option_shift inside,reads⟩

end Serves

-- Some way of the option reads just so many of the kinds ahead and is then at the end of everything.
def Lasts (configs : List Config) (ahead : List Kind) (option count : Nat) : Prop :=
  count ≤ ahead.length ∧ Serves configs option (ahead.take count)

-- No option can be read further, and none before this one can be read as far.
def Best (configs : List Config) (ahead : List Kind) (option : Nat) : Prop :=
  ∃ count, Lasts configs ahead option count ∧
    ∀ option' count', Lasts configs ahead option' count' → count' < count ∨ (count' = count ∧ option ≤ option')

theorem exists_best {option count : Nat}
    (lasts : Lasts configs ahead option count) : ∃ option, Best configs ahead option := by
  classical
  let Reached := fun count => ∃ option, Lasts configs ahead option count
  have bounded (count : Nat) (reached : Reached count) : count ≤ ahead.length := reached.choose_spec.1
  have reached : Reached count := ⟨option,lasts⟩
  have greatest := Nat.findGreatest_spec (bounded count reached) reached
  refine ⟨Nat.find greatest,_,Nat.find_spec greatest,fun option' count' also => ?_⟩
  have also' : Reached count' := ⟨option',also⟩
  have before := Nat.le_findGreatest (bounded count' also') also'
  rcases Nat.lt_or_eq_of_le before with fewer | same
  · exact .inl fewer
  · exact .inr ⟨same,Nat.find_min' greatest (same ▸ also)⟩

theorem reads_nil_iff {config : Config} : config.Reads [] ↔ config.isFinal = true := by
  constructor
  · intro reads
    cases reads with
    | ended final => exact final
  · exact .ended

section Advance

variable {option count : Nat}
variable {base : Rule} {configs : List Config} (fits : ∀ config ∈ configs, config.Fits base)
  {kind : Kind} {rest : List Kind} (last : kind = .eof → rest = [])

-- The ways that took the token; at the end of the text only those that end with it.
def taken (kind : Kind) (configs : List Config) : List Config :=
  let moved := gather false ((configs.filter (·.kinds.contains kind)).flatMap (shift false))
  if kind = .eof then moved.filter isFinal else moved

theorem advance_closed (kind : Kind) (configs : List Config) : advance false kind configs =
    if (taken kind configs).any isFinal then taken kind configs
    else gather false (taken kind configs ++ configs.filter isFinal) := rfl

theorem advance_eof (configs : List Config) : ∀ config ∈ advance false .eof configs, config.isFinal = true := by
  have taken : ∀ config ∈ taken .eof configs, config.isFinal = true := fun config member => (mem_filter.mp member).2
  rw [advance_closed]
  split
  · exact taken
  · refine gather_keeps (fun _ _ _ left _ => left) (forall_mem_append.mpr ⟨taken,fun config member => ?_⟩)
    exact (mem_filter.mp member).2

include fits

theorem taken_fits (kind : Kind) : ∀ config ∈ taken kind configs, config.Fits base := by
  intro config member
  have moved := gather_fits (moved_fits fits kind)
  rw [taken] at member
  split at member
  · exact moved config (mem_filter.mp member).1
  · exact moved config member

theorem kept_fits (kind : Kind) : ∀ config ∈ taken kind configs ++ configs.filter isFinal, config.Fits base :=
  forall_mem_append.mpr ⟨taken_fits fits kind,fun config member => fits config (mem_filter.mp member).1⟩

theorem advance_fits (kind : Kind) : ∀ config ∈ advance false kind configs, config.Fits base := by
  rw [advance_closed]
  split
  · exact taken_fits fits kind
  · exact gather_fits (kept_fits fits kind)

include last

theorem taken_lasts : Lasts (taken kind configs) rest option count ↔ Lasts configs (kind :: rest) option (count + 1) := by
  have bound : count + 1 ≤ (kind :: rest).length ↔ count ≤ rest.length := by simp
  rw [Lasts,Lasts,bound,take_succ_cons,← moved_serves fits]
  refine and_congr_right fun within => ?_
  rw [taken]
  split
  · rename_i ended
    rw [last ended,take_nil]
    constructor
    · rintro ⟨config,member,found⟩
      exact ⟨config,(mem_filter.mp member).1,found⟩
    · rintro ⟨config,member,same,reads⟩
      exact ⟨config,mem_filter.mpr ⟨member,reads_nil_iff.mp reads⟩,same,reads⟩
  · rfl

-- What the ways after the token tell about those before it.
theorem advance_lasts : Lasts (advance false kind configs) rest option count ↔
    if (taken kind configs).any isFinal = true ∨ count ≠ 0 then Lasts configs (kind :: rest) option (count + 1)
    else Lasts configs (kind :: rest) option 0 := by
  rw [advance_closed,← taken_lasts fits last]
  by_cases ends : (taken kind configs).any isFinal = true
  · rw [if_pos ends,if_pos (.inl ends)]
  · rw [if_neg ends]
    rw [Lasts,gather_serves (kept_fits fits kind)]
    cases count with
    | zero =>
      rw [if_neg (by simp [ends]),Lasts,take_zero,take_zero]
      refine and_congr (by simp) ⟨?_,?_⟩
      · rintro ⟨config,member,same,reads⟩
        rcases mem_append.mp member with moved | ended
        · exact absurd (any_eq_true.mpr ⟨config,moved,reads_nil_iff.mp reads⟩) ends
        · exact ⟨config,(mem_filter.mp ended).1,same,reads⟩
      · rintro ⟨config,member,same,reads⟩
        exact ⟨config,mem_append_right _ (mem_filter.mpr ⟨member,reads_nil_iff.mp reads⟩),same,reads⟩
    | succ count =>
      rw [if_pos (by simp)]
      refine and_congr_right fun within => ⟨?_,?_⟩
      · rintro ⟨config,member,same,reads⟩
        rcases mem_append.mp member with moved | ended
        · exact ⟨config,moved,same,reads⟩
        · obtain ⟨listed,final⟩ := mem_filter.mp ended
          have spent := (fits config listed).ended_iff.mp final
          cases rest with
          | nil => simp at within
          | cons next rest =>
            rw [take_succ_cons] at reads
            cases reads with
            | take _ impossible _ =>
              rw [spent] at impossible
              simp [Config.spent] at impossible
      · rintro ⟨config,member,found⟩
        exact ⟨config,mem_append_left _ member,found⟩

theorem Best.of_advance (best : Best (advance false kind configs) rest option) : Best configs (kind :: rest) option := by
  obtain ⟨count,lasts,least⟩ := best
  rw [advance_lasts fits last] at lasts
  have moved {option' count' : Nat} (further : (taken kind configs).any isFinal = true ∨ count' ≠ 0)
      (also : Lasts configs (kind :: rest) option' (count' + 1)) :
      count' < count ∨ (count' = count ∧ option ≤ option') :=
    least option' count' ((advance_lasts fits last).mpr (by rwa [if_pos further]))
  by_cases further : (taken kind configs).any isFinal = true ∨ count ≠ 0
  · rw [if_pos further] at lasts
    refine ⟨count + 1,lasts,fun option' count' also => ?_⟩
    cases count' with
    | zero => exact .inl (Nat.succ_pos count)
    | succ count' =>
      by_cases same : (taken kind configs).any isFinal = true ∨ count' ≠ 0
      · have compared := moved same also
        omega
      · -- the other option ends with this very token, which no way does
        rw [not_or,not_not] at same
        have more := further.resolve_left same.1
        omega
  · rw [if_neg further] at lasts
    rw [not_or,not_not] at further
    refine ⟨0,lasts,fun option' count' also => ?_⟩
    cases count' with
    | zero =>
      have compared := least option' 0 ((advance_lasts fits last).mpr (by simpa [further.1] using also))
      omega
    | succ count' =>
      cases count' with
      | zero =>
        obtain ⟨_,config,member,_,reads⟩ := (taken_lasts fits last).mpr also
        exact absurd (any_eq_true.mpr ⟨config,member,reads_nil_iff.mp reads⟩) further.1
      | succ count' =>
        have compared := moved (.inr (by omega)) also
        omega

theorem advance_lasts_of (lasts : Lasts configs (kind :: rest) option count) :
    ∃ option count, Lasts (advance false kind configs) rest option count := by
  cases count with
  | succ count =>
    by_cases further : (taken kind configs).any isFinal = true ∨ count ≠ 0
    · exact ⟨option,count,(advance_lasts fits last).mpr (by rwa [if_pos further])⟩
    · obtain ⟨_,config,member,_,reads⟩ := (taken_lasts fits last).mpr lasts
      rw [not_or,not_not] at further
      rw [further.2] at reads
      exact absurd (any_eq_true.mpr ⟨config,member,reads_nil_iff.mp reads⟩) further.1
  | zero =>
    by_cases ends : (taken kind configs).any isFinal = true
    · obtain ⟨config,member,final⟩ := any_eq_true.mp ends
      have moved : Lasts (taken kind configs) rest config.option 0 :=
        ⟨Nat.zero_le _,config,member,rfl,.ended final⟩
      rw [taken_lasts fits last] at moved
      exact ⟨config.option,0,(advance_lasts fits last).mpr (by rwa [if_pos (.inl ends)])⟩
    · exact ⟨option,0,(advance_lasts fits last).mpr (by simpa [ends] using lasts)⟩

end Advance

section Choice

variable {config : Config} {option' count : Nat}
variable {configs : List Config} {option : Nat}

theorem soleOption?_eq (sole : soleOption? configs = some option) : ∀ config ∈ configs, config.option = option := by
  cases configs with
  | nil => simp [soleOption?] at sole
  | cons first rest =>
    rw [soleOption?] at sole
    split at sole
    · rename_i all
      cases sole
      refine forall_mem_cons.mpr ⟨rfl,fun config member => ?_⟩
      simpa using all_eq_true.mp all config member
    · cases sole

theorem soleOption?_of (filled : configs ≠ []) (option : Nat) (all : ∀ config ∈ configs, config.option = option) :
    soleOption? configs = .some option := by
  cases configs with
  | nil => exact absurd rfl filled
  | cons first rest =>
    have head := all first mem_cons_self
    have same : rest.all (·.option == first.option) = true := all_eq_true.mpr fun config member => by
      rw [head]
      simpa using all config (mem_cons_of_mem _ member)
    rw [soleOption?,if_pos same,head]

theorem groups_label (grouped : group ∈ groups configs) (first : one ∈ group)
    (second : two ∈ group) : one.label = two.label := by
  have chain := isChain_of_mem_splitBy grouped
  have labels : (group.map (·.label)).IsChain (· = ·) := by
    rw [isChain_map]
    exact chain.imp fun _ _ same => by simpa using same
  have pairs := isChain_iff_pairwise.mp labels
  exact pairs.forall_of_forall (fun _ _ => rfl) (mem_map_of_mem first) (mem_map_of_mem second)

theorem exists_least (holds : Config → Prop) (member : config ∈ configs) (found : holds config) :
    ∃ least ∈ configs, holds least ∧ least.option ≤ config.option ∧
      ∀ other ∈ configs, holds other → least.option ≤ other.option := by
  classical
  have filled : ∃ option, ∃ config ∈ configs, holds config ∧ config.option = option := ⟨_,config,member,found,rfl⟩
  obtain ⟨least,listed,good,same⟩ := Nat.find_spec filled
  refine ⟨least,listed,good,?_,fun other listed' good' => ?_⟩
  · rw [same]
    exact Nat.find_min' filled ⟨config,member,found,rfl⟩
  · rw [same]
    exact Nat.find_min' filled ⟨other,listed',good',rfl⟩

-- The option that prevails has a way wherever another option has one, and comes before it.
theorem prevailing?_eq (prevails : prevailing? configs = some option) (member : config ∈ configs) :
    ∃ first ∈ configs, first.option = option ∧ option ≤ config.option ∧ first.label = config.label ∧
      first.pending = config.pending := by
  have whole : (groups configs).flatten = configs := flatten_splitBy ..
  rw [← whole] at member
  obtain ⟨group,grouped,inside⟩ := mem_flatten.mp member
  obtain ⟨least,listed,same,before,all⟩ := exists_least (·.pending = config.pending) inside rfl
  have first : least ∈ group.filter fun config =>
      group.all fun other => config.option ≤ other.option || other.pending != config.pending := by
    refine mem_filter.mpr ⟨listed,all_eq_true.mpr fun other member => ?_⟩
    by_cases also : other.pending = config.pending
    · simp [all other member also]
    · simp [same,also]
  have chosen := soleOption?_eq prevails least (mem_flatMap.mpr ⟨group,grouped,first⟩)
  exact ⟨least,mem_of_groups grouped listed,chosen,chosen ▸ before,groups_label grouped listed inside,same⟩

variable {base : Rule} {ahead : List Kind}

theorem best_of_sole (sole : soleOption? configs = some option)
    (lasts : Lasts configs ahead option' count) : Best configs ahead option := by
  obtain ⟨best,found⟩ := exists_best lasts
  have same : best = option := by
    obtain ⟨_,⟨_,config,member,rfl,_⟩,_⟩ := found
    exact soleOption?_eq sole config member
  exact same ▸ found

theorem best_of_prevailing (fits : ∀ config ∈ configs, config.Fits base) (prevails : prevailing? configs = some option)
    (lasts : Lasts configs ahead option' count) : Best configs ahead option := by
  obtain ⟨best,count,⟨within,config,member,rfl,reads⟩,least⟩ := exists_best lasts
  obtain ⟨first,listed,rfl,before,label,pending⟩ := prevailing?_eq prevails member
  have also : first.Reads (ahead.take count) := by
    have kinds := (fits first listed).same_kinds (fits config member) label
    generalize ahead.take count = word at reads ⊢
    cases reads with
    | ended final => exact .ended (by rwa [isFinal,label])
    | take has taken reads => exact .take (pending ▸ has) (kinds ▸ taken) (label ▸ reads)
  have same : first.option = config.option := by
    have compared := least first.option count ⟨within,first,listed,rfl,also⟩
    omega
  exact ⟨count,⟨within,first,listed,rfl,also⟩,same ▸ least⟩

theorem prevailing?_final (filled : configs ≠ []) (fits : ∀ config ∈ configs, config = config.spent base) :
    (prevailing? configs).isSome = true := by
  have label (config : Config) (member : config ∈ configs) : config.label = .final base := by
    rw [fits config member]
    rfl
  have pending (config : Config) (member : config ∈ configs) : config.pending = .empty := by
    rw [fits config member]
    rfl
  have single : groups configs = [configs] := by
    refine splitBy_of_isChain filled (List.Pairwise.isChain ?_)
    exact pairwise_of_forall_mem_list fun one first two second => by simp [label one first,label two second]
  obtain ⟨config,member⟩ := exists_mem_of_ne_nil configs filled
  obtain ⟨least,listed,_,_,all⟩ := exists_least (fun _ => True) member trivial
  rw [prevailing?,single,flatMap_singleton,soleOption?_of ?_ least.option]
  · rfl
  · intro first member
    obtain ⟨inside,before⟩ := mem_filter.mp member
    have compared := all_eq_true.mp before least listed
    have after := all first inside trivial
    simp only [pending first inside,pending least listed,bne_self_eq_false,Bool.or_false,decide_eq_true_eq] at compared
    omega
  · refine ne_nil_of_mem (mem_filter.mpr ⟨listed,all_eq_true.mpr fun other member => ?_⟩)
    simp [all other member trivial]

theorem best_of_settled (settled : settled? false kind configs = some option)
    (lasts : Lasts configs (kind :: ahead) option' count) : Best configs (kind :: ahead) option := by
  obtain ⟨best,found⟩ := exists_best lasts
  have same : best = option := by
    obtain ⟨count,⟨_,config,member,rfl,reads⟩,_⟩ := found
    rw [settled?] at settled
    split at settled
    · cases settled
    · rename_i going
      have final : config.isFinal = false := by
        cases final : config.isFinal with
        | false => rfl
        | true => exact absurd (by simp [any_eq_true.mpr ⟨config,member,final⟩]) going
      cases count with
      | zero => simp [reads_nil_iff.mp reads] at final
      | succ count =>
        rw [take_succ_cons] at reads
        cases reads with
        | take _ taken _ => exact soleOption?_eq settled config (mem_filter.mpr ⟨member,taken⟩)
  exact same ▸ found

end Choice

end Config

theorem Token.closed_last (closed : Token.Closed (token :: rest)) (ended : token.kind = .eof) : rest = [] := by
  cases rest with
  | nil => rfl
  | cons next rest => exact absurd ended closed.1

namespace Decision

open Config (Best Lasts)

variable {base : Rule} {ahead : List Token} {option count : Nat}

-- The induction is on the tokens ahead; what is best after a token is best before it.
theorem foresee_best (level : Nat) (fits : ∀ config ∈ configs, config.Fits base)
    (closed : Token.Closed ahead) (lasts : Lasts configs (ahead.map (·.kind)) option count) (looked : Nat) :
    ∃ option, (foresee level configs looked ahead).option = some option ∧ Best configs (ahead.map (·.kind)) option := by
  induction ahead generalizing configs option count looked with
  | nil => exact closed.elim
  | cons token rest ih =>
    rw [List.map_cons] at lasts ⊢
    rw [foresee]
    have last (ended : token.kind = .eof) : rest.map (·.kind) = [] := by rw [Token.closed_last closed ended]; rfl
    cases settled : Config.settled? false token.kind configs with
    | some found => exact ⟨found,rfl,Config.best_of_settled settled lasts⟩
    | none =>
      have next := Config.advance_fits fits token.kind
      have step {option : Nat} (best : Best (Config.advance false token.kind configs) (rest.map (·.kind)) option) :=
        best.of_advance fits last
      obtain ⟨option,count,lasts⟩ := Config.advance_lasts_of fits last lasts
      have filled : Config.advance false token.kind configs ≠ [] := by
        obtain ⟨_,config,member,_⟩ := lasts
        exact List.ne_nil_of_mem member
      simp only [List.isEmpty_iff,filled,if_false]
      cases sole : Config.soleOption? (Config.advance false token.kind configs) with
      | some found => exact ⟨found,rfl,step (Config.best_of_sole sole lasts)⟩
      | none =>
        cases prevails : Config.prevailing? (Config.advance false token.kind configs) with
        | some found => exact ⟨found,rfl,step (Config.best_of_prevailing next prevails lasts)⟩
        | none =>
          cases rest with
          | nil =>
            have ended : token.kind = .eof := closed
            have spent := Config.prevailing?_final filled fun config member =>
              (next config member).ended_iff.mp (Config.advance_eof configs config (ended ▸ member))
            simp [prevails] at spent
          | cons second rest =>
            obtain ⟨found,seen,best⟩ := ih next closed.2 lasts (looked + 1)
            exact ⟨found,by simpa using seen,step best⟩

-- The option can be read for so many tokens, up to the end of everything.
def Viable (level : Nat) (reaches : List Reach) (sites : List Label) (ahead : List Kind) (option count : Nat) : Prop :=
  ∃ reach, 1 ≤ option ∧ reaches[option - 1]? = some reach ∧ count ≤ ahead.length ∧
    reach.Reads level sites (ahead.take count)

section Start

variable {config : Config}
variable {base rule : Rule} {level option : Nat} {reach : Reach} {sites : List Label}

-- The ways of one option under the open calls.
def optionWays (rule : Rule) (level : Nat) (pending : Stacks) (option : Nat) (reach : Reach) : List Config :=
  ((optionHeads option reach pending).filter (·.allows level)).map ({ · with guard := none }) ++
    (if reach.ends then (⟨0,∅,option,none,pending,false,false⟩ : Config).leave false rule pending else [])

theorem startClosed_eq (isRecursive : Bool) (reaches : List Reach) (pending : Stacks) :
    (make rule isRecursive reaches).startClosed level pending =
      Config.gather false ((reaches.zipIdx 1).flatMap fun (reach,option) => optionWays rule level pending option reach) :=
  rfl

theorem optionWays_option {pending : Stacks} (member : config ∈ optionWays rule level pending option reach) :
    config.option = option := by
  rcases mem_append.mp member with head | beyond
  · obtain ⟨origin,allowed,rfl⟩ := mem_map.mp head
    have inside := (mem_filter.mp allowed).1
    rcases mem_append.mp inside with own | called
    · obtain ⟨_,_,rfl⟩ := mem_map.mp own
      rfl
    · obtain ⟨_,_,_,rfl⟩ := Config.mem_descendAll called
      rfl
  · split at beyond
    · exact Config.option_leave beyond
    · cases beyond

variable (located : reach.Located rule) (linked : Linked base rule sites)

include located linked

theorem optionWays_comes (member : config ∈ optionWays rule level (.single sites) option reach) :
    (∃ head, config.label = head.label ∧ config.kinds = head.kinds ∧ head.label.Marked ∧ head.label.kinds = head.kinds ∧
      ∀ under, config.pending.Has under → reach.Meets level sites head under) ∨
    (config = config.spent base ∧ reach.Finishes sites) := by
  rcases mem_append.mp member with entered | beyond
  · obtain ⟨origin,allowed,rfl⟩ := mem_map.mp entered
    obtain ⟨inside,within⟩ := mem_filter.mp allowed
    left
    rcases mem_append.mp inside with own | called
    · obtain ⟨head,listed,rfl⟩ := mem_map.mp own
      obtain ⟨_,marked,kinds⟩ := located.of_head listed
      refine ⟨head,rfl,rfl,marked,kinds,fun under has => ?_⟩
      cases Stacks.has_single.mp has
      exact .own listed within
    · obtain ⟨head,same,marked,kinds,site,inner,listed,enters⟩ :=
        Config.enters_of_mem_descendAll located.of_call called
      refine ⟨head,by rw [same]; rfl,by rw [same]; rfl,marked,kinds,fun under has => ?_⟩
      obtain ⟨_,below,found⟩ := enters under has
      cases Stacks.has_single.mp below
      exact .call listed found
  · split at beyond
    · rename_i ends
      have fitting (other : List Label) (has : (Stacks.single sites).Has other) : Linked base rule other := by
        rwa [Stacks.has_single.mp has]
      -- seen from a place with nothing before the end, all that comes is beyond it
      have comes : Config.Comes base _ .nothing (.single sites) config := Config.comes_of_leave rfl fitting beyond
      cases comes with
      | @going head same marked kinds meets =>
        refine .inl ⟨head,by rw [same]; rfl,by rw [same]; rfl,marked,kinds,fun under has => ?_⟩
        obtain ⟨_,inside,found⟩ := meets under has
        cases Stacks.has_single.mp inside
        cases found with
        | own impossible _ => cases impossible
        | call impossible _ => cases impossible
        | up _ found => exact .up ends found
      | ended same has finishes =>
        refine .inr ⟨by rw [same]; rfl,?_⟩
        cases Stacks.has_single.mp has
        cases finishes with
        | bottom _ => exact .bottom ends
        | up _ finishes => exact .up ends finishes
    · cases beyond

theorem optionWays_fits (member : config ∈ optionWays rule level (.single sites) option reach) : config.Fits base := by
  rcases optionWays_comes located linked member with ⟨head,label,kinds,marked,known,meets⟩ | ⟨spent,_⟩
  · refine .going (label ▸ marked) (by rw [kinds,label,known]) fun under has => ?_
    rw [label]
    exact ((meets under has).linked located linked).2.2
  · exact .ended spent

theorem optionWays_reads {kinds : List Kind} :
    (∃ config ∈ optionWays rule level (.single sites) option reach, config.Reads kinds) ↔
      reach.Reads level sites kinds := by
  constructor
  · rintro ⟨config,member,reads⟩
    rcases optionWays_comes located linked member with ⟨head,label,same,marked,known,meets⟩ | ⟨spent,finishes⟩
    · cases reads with
      | ended final => exact absurd (by simpa [Config.isFinal,label] using final) marked.proper
      | take has taken reads => exact .take (meets _ has) (same ▸ taken) (label ▸ reads)
    · rw [spent] at reads
      cases reads with
      | ended _ => exact .done finishes
      | take _ impossible _ => simp [Config.spent] at impossible
  · intro reads
    have has : (Stacks.single sites).Has sites := Stacks.has_single.mpr rfl
    let way : Config := ⟨0,∅,option,none,.single sites,false,false⟩
    have beyond {config : Config} (ends : reach.ends = true) (left : config ∈ way.leave false rule (.single sites)) :
        config ∈ optionWays rule level (.single sites) option reach :=
      mem_append_right _ (by rwa [if_pos ends])
    have entered {config : Config} (found : config ∈ optionHeads option reach (.single sites))
        (within : config.allows level = true) :
        { config with guard := none } ∈ optionWays rule level (.single sites) option reach :=
      mem_append_left _ (mem_map.mpr ⟨config,mem_filter.mpr ⟨found,within⟩,rfl⟩)
    cases reads with
    | done finishes =>
      exact ⟨_,beyond finishes.ends (Config.leave_over linked has finishes way),.ended (Config.isFinal_spent way base)⟩
    | @take _ _ _ _ head _ _ meets taken reads =>
      cases meets with
      | own member within =>
        exact ⟨_,entered (mem_append_left _ (mem_map.mpr ⟨head,member,rfl⟩)) within,.take has taken reads⟩
      | call member enters =>
        obtain ⟨pending',inside,found⟩ := Config.mem_descendAll_of_call Stacks.has_under member enters has way
        exact ⟨_,entered (mem_append_right _ found) rfl,.take inside taken reads⟩
      | @up _ _ _ _ site _ ends meets =>
        obtain ⟨below,inside,all⟩ := Config.leave_has has false way rule
        obtain ⟨pending',under',held,found,transfer⟩ := Config.onward_found linked.2 inside meets way
        exact ⟨_,beyond ends (all _ found),.take held taken (transfer _ reads)⟩

end Start

section Options

variable {base rule : Rule} {level : Nat} {reaches : List Reach} {sites : List Label}
  (located : ∀ reach ∈ reaches, reach.Located rule) (linked : Linked base rule sites)

include located linked

theorem options_fits : ∀ config ∈ (reaches.zipIdx 1).flatMap (fun (reach,option) =>
    optionWays rule level (.single sites) option reach), config.Fits base := by
  intro config member
  obtain ⟨⟨reach,option⟩,listed,inside⟩ := mem_flatMap.mp member
  exact optionWays_fits (located reach (mem_of_getElem? (mem_zipIdx_one listed).2)) linked inside

theorem startClosed_fits (isRecursive : Bool) :
    ∀ config ∈ (make rule isRecursive reaches).startClosed level (.single sites), config.Fits base := by
  rw [startClosed_eq]
  exact Config.gather_fits (options_fits located linked)

theorem startClosed_lasts (isRecursive : Bool) {ahead : List Kind} {option count : Nat} :
    Lasts ((make rule isRecursive reaches).startClosed level (.single sites)) ahead option count ↔
      Viable level reaches sites ahead option count := by
  rw [Lasts,startClosed_eq,Config.gather_serves (options_fits located linked)]
  constructor
  · rintro ⟨within,config,member,rfl,reads⟩
    obtain ⟨⟨reach,option⟩,listed,inside⟩ := mem_flatMap.mp member
    obtain ⟨counted,found⟩ := mem_zipIdx_one listed
    have same := optionWays_option inside
    have here := located reach (mem_of_getElem? found)
    exact ⟨reach,same ▸ counted,same ▸ found,within,(optionWays_reads here linked).mp ⟨config,inside,reads⟩⟩
  · rintro ⟨reach,counted,found,within,reads⟩
    have here := located reach (mem_of_getElem? found)
    obtain ⟨config,inside,reads⟩ := (optionWays_reads here linked).mpr reads
    have listed : (reach,option) ∈ reaches.zipIdx 1 :=
      mem_zipIdx_iff_le_and_getElem?_sub.mpr ⟨counted,found⟩
    exact ⟨within,config,mem_flatMap.mpr ⟨_,listed,inside⟩,optionWays_option inside,reads⟩

end Options

-- No option can be read further, and none before this one can be read as far.
def Prime (level : Nat) (reaches : List Reach) (sites : List Label) (ahead : List Kind) (option : Nat) : Prop :=
  ∃ count, Viable level reaches sites ahead option count ∧ ∀ option' count',
    Viable level reaches sites ahead option' count' → count' < count ∨ (count' = count ∧ option ≤ option')

theorem foresee_prime {rule : Rule}
    (located : ∀ reach ∈ reaches, reach.Located rule) (linked : Linked base rule sites) (isRecursive : Bool)
    (closed : Token.Closed ahead)
    (viable : Viable level reaches sites (ahead.map (·.kind)) option count) (looked : Nat) :
    ∃ option, (foresee level ((make rule isRecursive reaches).startClosed level (.single sites)) looked ahead).option =
        some option ∧ Prime level reaches sites (ahead.map (·.kind)) option := by
  have lasts {option count : Nat} : Lasts ((make rule isRecursive reaches).startClosed level (.single sites))
      (ahead.map (·.kind)) option count ↔ Viable level reaches sites (ahead.map (·.kind)) option count :=
    startClosed_lasts located linked isRecursive
  obtain ⟨found,seen,best⟩ :=
    foresee_best level (startClosed_fits located linked isRecursive) closed (lasts.mpr viable) looked
  refine ⟨found,seen,?_⟩
  obtain ⟨count,longest,least⟩ := best
  exact ⟨count,lasts.mp longest,fun option' count' also => least option' count' (lasts.mpr also)⟩

end Decision

end SolReader
