import SolReader.Proofs.Grammar.Leading

namespace SolReader

namespace Reach

variable {reach : Reach} {sites : List Label} {level : Nat}

-- Going into the rules that are called first, a head is met under some calls.
inductive Enters : Reach → List Label → Head → List Label → Prop where
  | own {reach : Reach} {sites : List Label} {head : Head} (member : head ∈ reach.heads) : Enters reach sites head sites
  | call {reach inner : Reach} {sites under : List Label} {site : Label} {head : Head} (member : (site,inner) ∈ reach.calls)
      (enters : Enters inner (site :: sites) head under) : Enters reach sites head under

-- A head that can be met next, in the rule itself as far as the level allows, in a rule that it calls, or after its end.
inductive Meets : Nat → Reach → List Label → Head → List Label → Prop where
  | own {level : Nat} {reach : Reach} {sites : List Label} {head : Head} (member : head ∈ reach.heads)
      (within : head.level.all (level ≤ ·) = true) : Meets level reach sites head sites
  | call {level : Nat} {reach inner : Reach} {sites under : List Label} {site : Label} {head : Head}
      (member : (site,inner) ∈ reach.calls) (enters : inner.Enters (site :: sites) head under) :
      Meets level reach sites head under
  | up {level : Nat} {reach : Reach} {sites under : List Label} {site : Label} {head : Head} (ends : reach.ends = true)
      (meets : Meets 0 site.after sites head under) : Meets level reach (site :: sites) head under

-- The rule and all that called it can end here.
inductive Finishes : Reach → List Label → Prop where
  | bottom {reach : Reach} (ends : reach.ends = true) : Finishes reach []
  | up {reach : Reach} {site : Label} {sites : List Label} (ends : reach.ends = true)
      (finishes : Finishes site.after sites) : Finishes reach (site :: sites)

inductive Reads : Nat → Reach → List Label → List Kind → Prop where
  | done {level : Nat} {reach : Reach} {sites : List Label} (finishes : reach.Finishes sites) : Reads level reach sites []
  | take {level : Nat} {reach : Reach} {sites under : List Label} {head : Head} {kind : Kind} {kinds : List Kind}
      (meets : reach.Meets level sites head under) (taken : head.kinds.contains kind = true)
      (reads : Reads 0 head.label.after under kinds) : Reads level reach sites (kind :: kinds)

theorem Finishes.ends (finishes : reach.Finishes sites) : reach.ends = true := by
  cases finishes with
  | bottom ends => exact ends
  | up ends _ => exact ends

theorem Meets.lowered {head : Head} (meets : reach.Meets level sites head under) : reach.Meets 0 sites head under := by
  cases meets with
  | own member _ => exact .own member (by cases head.level <;> simp)
  | call member enters => exact .call member enters
  | up ends meets => exact .up ends meets

theorem Reads.lowered {kinds : List Kind} (reads : reach.Reads level sites kinds) : reach.Reads 0 sites kinds := by
  cases reads with
  | done finishes => exact .done finishes
  | take meets taken reads => exact .take meets.lowered taken reads

end Reach

-- The heads with which a new round of a rule that begins with itself starts.
def Rule.rounds (rule : Rule) : List Head :=
  match rule.form with
  | .seq _ (.loop _ entry back body) =>
    if (body.reach fun _ => .never).isLeveled then (Todo.reach [.loop .again entry back body]).heads else []
  | _ => []

namespace Label

-- The label lies in a round of a rule that begins with itself.
def isRound (label : Label) : Bool :=
  match label.rule.form with
  | .seq _ (.loop _ _ _ body) =>
    (body.reach fun _ => .never).isLeveled && ((body.places []).filterMap Todo.mark?).contains label
  | _ => false

end Label

namespace Todo

-- The first form is a call that completes a round of its own rule.
def isClosing (todo : Todo) : Bool :=
  ((Label.closingCall? todo).map Prod.snd).getD false

-- Behind a token or a call either no round can start, or just that can happen, or the rule ends; the labels of a round
-- lead to each other and then to the next round.
def isSteady (todo : Todo) (label : Label) : Bool :=
  let after := Todo.reach todo.tail
  (!after.isLeveled || (after.heads == label.rule.rounds && after.calls.isEmpty && after.ends)) &&
    (!todo.isClosing || after.isLeveled) &&
    (!label.isRound ||
      (after.heads.all (·.label.isRound) && after.calls.all (·.1.isRound) && (!after.ends || after.isLeveled)))

end Todo

namespace Label

set_option maxRecDepth 100000 in
theorem steady_checked : (Grammar.places.all fun todo => todo.mark?.all todo.isSteady) = true := by
  decide

set_option maxRecDepth 100000 in
theorem rounds_checked : ∀ rule : Rule, (
    rule.rounds.all fun head => head.label.isRound && head.level.isSome) = true := by
  decide

end Label

theorem Rule.mem_rounds {rule : Rule} (member : head ∈ rule.rounds) :
    head.label.isRound = true ∧ head.level.isSome = true := by
  have checked := List.all_eq_true.mp (Label.rounds_checked rule) head member
  simpa using checked

namespace Label

variable {label : Label}

-- What is known about the place behind a label.
structure Steady (label : Label) : Prop where
  looping : label.after.isLeveled = true →
    label.after.heads = label.rule.rounds ∧ label.after.calls = [] ∧ label.after.ends = true
  closing : label.isClosing = true → label.after.isLeveled = true
  heads : label.isRound = true → ∀ head ∈ label.after.heads, head.label.isRound = true
  calls : label.isRound = true → ∀ call ∈ label.after.calls, call.1.isRound = true
  ends : label.isRound = true → label.after.ends = true → label.after.isLeveled = true

theorem steady (label : Label) : label.Steady := by
  by_cases marked : label.Marked
  case neg =>
    have nothing := after_unmarked marked
    refine ⟨fun leveled => ?_,fun closes => ?_,fun _ head member => ?_,fun _ call member => ?_,fun _ ends => ?_⟩
    · rw [nothing] at leveled
      cases leveled
    · rw [isClosing_unmarked marked] at closes
      cases closes
    · rw [nothing] at member
      cases member
    · rw [nothing] at member
      cases member
    · rw [nothing] at ends
      cases ends
  obtain ⟨todo,sited,first⟩ := marked
  have place := sited.place_of_mark first
  have listed : todo ∈ Grammar.places := List.mem_flatMap.mpr ⟨label.rule,Rule.mem_all label.rule,place⟩
  have checked := List.all_eq_true.mp steady_checked todo listed
  rw [first,Option.all_some,Todo.isSteady,← after_eq place first] at checked
  simp only [Bool.and_eq_true,Bool.or_eq_true,Bool.not_eq_true',beq_iff_eq,List.isEmpty_iff,List.all_eq_true]
    at checked
  obtain ⟨⟨looping,closing⟩,round⟩ := checked
  refine ⟨fun leveled => ?_,fun closes => ?_,fun inside => ?_,fun inside => ?_,fun inside ends => ?_⟩
  · obtain ⟨⟨heads,calls⟩,ends⟩ := looping.resolve_left (by simp [leveled])
    exact ⟨heads,calls,ends⟩
  · exact closing.resolve_left (by rw [Todo.isClosing,← isClosing_eq place first]; simp [closes])
  · exact (round.resolve_left (by simp [inside])).1.1
  · exact (round.resolve_left (by simp [inside])).1.2
  · exact (round.resolve_left (by simp [inside])).2.resolve_left (by simp [ends])

-- Two stacks under a label that differ in calls which complete a round, each of them under a label that lies in a round
-- of the same rule.
inductive Alike : Label → List Label → List Label → Prop where
  | refl {label : Label} (sites : List Label) : Alike label sites sites
  | fold {label site : Label} (sites : List Label) (round : label.isRound = true) (closes : site.isClosing = true)
      (same : site.rule = label.rule) : Alike label (site :: sites) sites
  | unfold {label site : Label} (sites : List Label) (round : label.isRound = true) (closes : site.isClosing = true)
      (same : site.rule = label.rule) : Alike label sites (site :: sites)
  | under {label site : Label} {one two : List Label} (alike : Alike site one two) :
      Alike label (site :: one) (site :: two)

end Label

namespace Reach

variable {label site : Label}

section Alike

variable {site : Label} {sites under : List Label} {head : Head}
variable {label : Label} {one two : List Label}

theorem Enters.alike {reach : Reach}
    (enters : reach.Enters sites head under) (stack : sites = site :: one) (alike : site.Alike one two) :
    ∃ under', reach.Enters (site :: two) head under' ∧ head.label.Alike under under' := by
  induction enters generalizing site one two with
  | own member =>
    subst stack
    exact ⟨_,.own member,.under alike⟩
  | call member _ ih =>
    subst stack
    obtain ⟨under',enters,also⟩ := ih rfl (.under alike)
    exact ⟨under',.call member enters,also⟩

theorem same_loop (round : label.isRound = true) (ends : label.after.ends = true)
    (closes : site.isClosing = true) (same : site.rule = label.rule) :
    site.after.heads = label.after.heads ∧ site.after.calls = label.after.calls ∧ site.after.ends = true := by
  obtain ⟨heads,calls,_⟩ := label.steady.looping (label.steady.ends round ends)
  obtain ⟨heads',calls',ends'⟩ := site.steady.looping (site.steady.closing closes)
  exact ⟨by rw [heads,heads',same],by rw [calls,calls'],ends'⟩

theorem Meets.moved {one two : Reach} {level : Nat}
    (meets : one.Meets level sites head under) (heads : one.heads = two.heads) (calls : one.calls = two.calls)
    (ends : two.ends = true) : two.Meets level sites head under := by
  cases meets with
  | own member within => exact .own (heads ▸ member) within
  | call member enters => exact .call (calls ▸ member) enters
  | up _ meets => exact .up ends meets

theorem round_head (round : label.isRound = true) (member : head ∈ label.after.heads) :
    head.label.isRound = true ∧ head.label.rule = label.rule :=
  ⟨label.steady.heads round head member,(label.after_located.of_head member).1⟩

theorem round_call {inner : Reach} (round : label.isRound = true)
    (member : (site,inner) ∈ label.after.calls) : site.isRound = true ∧ site.rule = label.rule := by
  obtain ⟨_,_,_,_,own,_⟩ := label.after_located.of_call member
  exact ⟨label.steady.calls round _ member,own⟩

theorem Meets.alike (alike : label.Alike one two) (meets : label.after.Meets 0 one head under) :
    ∃ under', label.after.Meets 0 two head under' ∧ head.label.Alike under under' := by
  induction alike generalizing head under with
  | refl sites => exact ⟨under,meets,.refl under⟩
  | @fold label site sites round closes same =>
    cases meets with
    | own member within =>
      obtain ⟨inside,own⟩ := round_head round member
      exact ⟨sites,.own member within,.fold sites inside closes (same.trans own.symm)⟩
    | call member enters =>
      obtain ⟨inside,own⟩ := round_call round member
      obtain ⟨under',enters,also⟩ := enters.alike rfl (.fold sites inside closes (same.trans own.symm))
      exact ⟨under',.call member enters,also⟩
    | up ends meets =>
      obtain ⟨heads,calls,_⟩ := same_loop round ends closes same
      exact ⟨under,meets.moved heads calls ends,.refl under⟩
  | @unfold label site sites round closes same =>
    cases meets with
    | own member within =>
      obtain ⟨inside,own⟩ := round_head round member
      exact ⟨site :: sites,.own member within,.unfold sites inside closes (same.trans own.symm)⟩
    | call member enters =>
      obtain ⟨inside,own⟩ := round_call round member
      obtain ⟨under',enters,also⟩ := enters.alike rfl (.unfold _ inside closes (same.trans own.symm))
      exact ⟨under',.call member enters,also⟩
    | up ends meets =>
      obtain ⟨_,_,spent⟩ := same_loop round ends closes same
      exact ⟨under,.up ends (.up spent meets),.refl under⟩
  | @under label site one two alike ih =>
    cases meets with
    | own member within => exact ⟨_,.own member within,.under alike⟩
    | call member enters =>
      obtain ⟨under',enters,also⟩ := enters.alike rfl (.under alike)
      exact ⟨under',.call member enters,also⟩
    | up ends meets =>
      obtain ⟨under',meets,also⟩ := ih meets
      exact ⟨under',.up ends meets,also⟩

theorem Finishes.alike (alike : label.Alike one two) (finishes : label.after.Finishes one) :
    label.after.Finishes two := by
  induction alike with
  | refl sites => exact finishes
  | fold sites round closes same =>
    cases finishes with
    | up ends finishes =>
      cases finishes with
      | bottom _ => exact .bottom ends
      | up _ finishes => exact .up ends finishes
  | unfold sites round closes same =>
    obtain ⟨_,_,spent⟩ := same_loop round finishes.ends closes same
    have ends := finishes.ends
    cases finishes with
    | bottom _ => exact .up ends (.bottom spent)
    | up _ finishes => exact .up ends (.up spent finishes)
  | under _ ih =>
    cases finishes with
    | up ends finishes => exact .up ends (ih finishes)

theorem Reads.alike {kinds : List Kind} (alike : label.Alike one two) (reads : label.after.Reads 0 one kinds) :
    label.after.Reads 0 two kinds := by
  induction kinds generalizing label one two with
  | nil =>
    cases reads with
    | done finishes => exact .done (finishes.alike alike)
  | cons kind kinds ih =>
    cases reads with
    | take meets taken reads =>
      obtain ⟨under',meets,also⟩ := meets.alike alike
      exact .take meets taken (ih also reads)

end Alike

-- A head that starts a round of a rule is also met behind a call of that rule by itself that completes a round.
theorem round_again {head : Head} (member : head ∈ label.after.heads)
    (leveled : head.level.isSome = true) (closes : site.isClosing = true) (same : site.rule = label.rule) :
    head ∈ site.after.heads ∧ label.after.ends = true ∧ ∀ sites, head.label.Alike (site :: sites) sites := by
  have isLeveled : label.after.isLeveled = true := List.any_eq_true.mpr ⟨head,member,leveled⟩
  obtain ⟨heads,_,ends⟩ := label.steady.looping isLeveled
  obtain ⟨heads',_,_⟩ := site.steady.looping (site.steady.closing closes)
  refine ⟨by rw [heads',same,← heads]; exact member,ends,fun sites => .fold sites ?_ closes (same.trans ?_)⟩
  · exact (Rule.mem_rounds (heads ▸ member)).1
  · exact (label.after_located.of_head member).1.symm

-- Under a call that completes a round the level asked for does not matter: a round that it forbids is a round of the
-- caller.
theorem Reads.raised {kinds : List Kind}
    (reads : label.after.Reads 0 (site :: sites) kinds) (closes : site.isClosing = true) (same : site.rule = label.rule)
    (level : Nat) : label.after.Reads level (site :: sites) kinds := by
  cases reads with
  | done finishes => exact .done finishes
  | @take _ _ _ _ head _ _ meets taken reads =>
    cases meets with
    | own member _ =>
      cases leveled : head.level with
      | none => exact .take (.own member (by rw [leveled]; rfl)) taken reads
      | some bound =>
        obtain ⟨again,ends,alike⟩ := round_again member (by rw [leveled]; rfl) closes same
        exact .take (.up ends (.own again (by rw [leveled]; simp))) taken (reads.alike (alike sites))
    | call member enters => exact .take (.call member enters) taken reads
    | up ends meets => exact .take (.up ends meets) taken reads

end Reach

end SolReader
