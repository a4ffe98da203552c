import SolReader.Proofs.Prediction.Reading

namespace SolReader

namespace Todo

-- A `wrap` is followed by a token, loops have no empty rounds, and no level is passed on behind a part that can be empty.
@[simp] def isRegular : Todo → Bool
  | .seq first second :: _ =>
    let one := first.reach Rule.reach
    let two := second.reach Rule.reach
    !(one.ends && two.ends) || one.level.isNone || two.level.isNone
  | .choice _ options :: _ => options.all fun option =>
    !(option.reach Rule.reach).ends || (option.reach Rule.reach).level.isNone
  | .optional _ body :: _ => !(body.reach Rule.reach).ends || (body.reach Rule.reach).level.isNone
  | .loop _ _ _ body :: _ => !(body.reach Rule.reach).ends
  | .wrap _ _ :: rest =>
    let after := Todo.reach rest
    after.calls.isEmpty && !after.ends && !after.isLeveled
  | .call _ rule _ :: rest => !rule.reach.isLeveled && (!rule.reach.ends || !(Todo.reach rest).isLeveled)
  | _ => true

set_option maxRecDepth 100000 in
theorem regular_checked : ∀ rule : Rule, (rule.spots.all isRegular) = true := by
  decide

theorem Sited.regular (sited : Sited rule (form :: rest)) : isRegular (form :: rest) = true :=
  List.all_eq_true.mp (regular_checked rule) _ sited.mem

end Todo

namespace Reach

variable {one two : Reach}

section Fields

variable (heads : List Head) (calls : List (Label × Reach)) (ends : Bool) (level : Option Nat)

@[simp] theorem heads_mk : (Reach.mk heads calls ends level).heads = heads := rfl

@[simp] theorem calls_mk : (Reach.mk heads calls ends level).calls = calls := rfl

@[simp] theorem ends_mk : (Reach.mk heads calls ends level).ends = ends := rfl

@[simp] theorem level_mk : (Reach.mk heads calls ends level).level = level := rfl

end Fields

section Parts

variable {level : Nat} {reach first second : Reach} {sites under : List Label} {head : Head}

theorem meets_iff : reach.Meets level sites head under ↔
    (head ∈ reach.heads ∧ head.level.all (level ≤ ·) = true ∧ under = sites) ∨
      (∃ call ∈ reach.calls, call.2.Enters (call.1 :: sites) head under) ∨
      (reach.ends = true ∧ Reach.nothing.Meets 0 sites head under) := by
  constructor
  · intro meets
    cases meets with
    | own member within => exact .inl ⟨member,within,rfl⟩
    | call member enters => exact .inr (.inl ⟨_,member,enters⟩)
    | up ends meets => exact .inr (.inr ⟨ends,.up rfl meets⟩)
  · rintro (⟨member,within,rfl⟩ | ⟨_,member,enters⟩ | ⟨ends,meets⟩)
    · exact .own member within
    · exact .call member enters
    · cases meets with
      | own impossible _ => cases impossible
      | call impossible _ => cases impossible
      | up _ meets => exact .up ends meets

theorem finishes_iff : reach.Finishes sites ↔ reach.ends = true ∧ Reach.nothing.Finishes sites := by
  constructor
  · intro finishes
    cases finishes with
    | bottom ends => exact ⟨ends,.bottom rfl⟩
    | up ends finishes => exact ⟨ends,.up rfl finishes⟩
  · rintro ⟨ends,finishes⟩
    cases finishes with
    | bottom _ => exact .bottom ends
    | up _ finishes => exact .up ends finishes

theorem mem_heads_andThen : head ∈ (first.andThen second).heads ↔ head ∈ first.heads ∨
    (first.ends = true ∧ ∃ later ∈ second.heads, { later with level := later.level <|> first.level } = head) := by
  rw [andThen]
  split
  · rename_i ends
    simp only [heads_mk,List.mem_append,List.mem_map,ends,true_and]
  · rename_i going
    simp [going]

theorem mem_calls_andThen :
    call ∈ (first.andThen second).calls ↔ call ∈ first.calls ∨ (first.ends = true ∧ call ∈ second.calls) := by
  rw [andThen]
  split
  · rename_i ends
    simp only [calls_mk,List.mem_append,ends,true_and]
  · rename_i going
    simp [going]

theorem ends_andThen : (first.andThen second).ends = (first.ends && second.ends) := by
  rw [andThen]
  split
  · rename_i ends
    simp [ends]
  · rename_i going
    simp [going]

-- What is met in the first part, and what is met in the second if the first can be empty and passes on no level.
theorem meets_andThen (free : first.ends = true → first.level = none) :
    (first.andThen second).Meets level sites head under ↔
      (head ∈ first.heads ∧ head.level.all (level ≤ ·) = true ∧ under = sites) ∨
        (∃ call ∈ first.calls, call.2.Enters (call.1 :: sites) head under) ∨
        (first.ends = true ∧ second.Meets level sites head under) := by
  have same (later : Head) (ends : first.ends = true) : { later with level := later.level <|> first.level } = later := by
    rw [free ends]
    cases later with
    | mk label kinds level => cases level <;> rfl
  have behind : second.Meets level sites head under ↔ _ := meets_iff
  rw [meets_iff,behind]
  simp only [mem_heads_andThen,mem_calls_andThen,ends_andThen,Bool.and_eq_true]
  constructor
  · rintro (⟨member | ⟨ends,later,member,rfl⟩,within,rfl⟩ | ⟨call,member | ⟨ends,member⟩,enters⟩ | ⟨⟨one,two⟩,meets⟩)
    · exact .inl ⟨member,within,rfl⟩
    · rw [same later ends] at within ⊢
      exact .inr (.inr ⟨ends,.inl ⟨member,within,rfl⟩⟩)
    · exact .inr (.inl ⟨call,member,enters⟩)
    · exact .inr (.inr ⟨ends,.inr (.inl ⟨call,member,enters⟩)⟩)
    · exact .inr (.inr ⟨one,.inr (.inr ⟨two,meets⟩)⟩)
  · rintro (⟨member,within,rfl⟩ | ⟨call,member,enters⟩ | ⟨ends,⟨member,within,rfl⟩ | ⟨call,member,enters⟩ | ⟨two,meets⟩⟩)
    · exact .inl ⟨.inl member,within,rfl⟩
    · exact .inr (.inl ⟨call,.inl member,enters⟩)
    · exact .inl ⟨.inr ⟨ends,head,member,same head ends⟩,within,rfl⟩
    · exact .inr (.inl ⟨call,.inr ⟨ends,member⟩,enters⟩)
    · exact .inr (.inr ⟨⟨ends,two⟩,meets⟩)

end Parts

theorem nothing_andThen (reach : Reach) : Reach.nothing.andThen reach = reach := by
  cases reach with
  | mk heads calls ends level =>
    have same : heads.map (fun head => { head with level := head.level <|> none }) = heads := by
      refine (List.map_congr_left fun head _ => ?_).trans (List.map_id heads)
      cases head with
      | mk label kinds level => cases level <;> rfl
    simp only [andThen,nothing,ends_mk,heads_mk,calls_mk,level_mk,if_true,same,List.nil_append]
    cases level <;> rfl

theorem andThen_assoc (three : Reach)
    (free : one.ends = true → two.ends = true → one.level = none ∨ two.level = none) :
    (one.andThen two).andThen three = one.andThen (two.andThen three) := by
  cases first : one.ends with
  | false => simp [andThen,first]
  | true =>
    cases second : two.ends with
    | false => simp [andThen,first,second]
    | true =>
      have levels (level : Option Nat) : (level <|> (one.level <|> two.level)) = ((level <|> two.level) <|> one.level) := by
        rcases free first second with absent | absent <;> rw [absent] <;> cases level <;> simp
      simp only [andThen,first,second,if_true,ends_mk,heads_mk,calls_mk,level_mk,List.map_append,List.map_map,
        List.append_assoc,Function.comp_def,levels]
      cases one.level <;> rfl

theorem Reads.of_meets {level : Nat} {kinds : List Kind}
    (reads : one.Reads level sites kinds) (finishes : one.Finishes sites → two.Finishes others)
    (meets : ∀ head under, one.Meets level sites head under → ∃ same, two.Meets bound others same under ∧
      same.label = head.label ∧ same.kinds = head.kinds) : two.Reads bound others kinds := by
  cases reads with
  | done spent => exact .done (finishes spent)
  | take met taken reads =>
    obtain ⟨same,found,label,kinds⟩ := meets _ _ met
    exact .take found (kinds ▸ taken) (label ▸ reads)

end Reach

namespace Reach

variable {parts : List Reach}

-- The reach is made up of those of several alternatives.
structure Joins (reach : Reach) (parts : List Reach) : Prop where
  heads : ∀ head, head ∈ reach.heads ↔ ∃ part ∈ parts, head ∈ part.heads
  calls : ∀ call, call ∈ reach.calls ↔ ∃ part ∈ parts, call ∈ part.calls
  ends : reach.ends = true ↔ ∃ part ∈ parts, part.ends = true
  level : reach.level = none

theorem never_joins : Joins .never [] := ⟨by simp [never],by simp [never],by simp [never],rfl⟩

theorem Joins.orElse {front : Reach} (joins : front.Joins parts) (part : Reach) :
    (part.orElse front).Joins (part :: parts) :=
  ⟨by simp [Reach.orElse,joins.heads],by simp [Reach.orElse,joins.calls],by simp [Reach.orElse,joins.ends],rfl⟩

theorem anyReach_joins (ofRule : Rule → Reach) (forms : List (Form Label)) :
    (Form.anyReach ofRule forms).Joins (forms.map (·.reach ofRule)) := by
  induction forms with
  | nil => exact never_joins
  | cons form forms ih => exact ih.orElse (form.reach ofRule)

theorem optional_joins (body : Reach) : (body.orElse .nothing).Joins [body,.nothing] :=
  ⟨by simp [Reach.orElse,nothing],by simp [Reach.orElse,nothing],by simp [Reach.orElse,nothing],rfl⟩

theorem Joins.reads_andThen {reach : Reach} (joins : reach.Joins parts)
    (free : ∀ part ∈ parts, part.ends = true → part.level = none) {level : Nat} {kinds : List Kind} :
    (reach.andThen second).Reads level sites kinds ↔ ∃ part ∈ parts, (part.andThen second).Reads level sites kinds := by
  have meets {head : Head} {under : List Label} : (reach.andThen second).Meets level sites head under ↔
      ∃ part ∈ parts, (part.andThen second).Meets level sites head under := by
    rw [meets_andThen fun _ => joins.level]
    simp only [joins.heads,joins.calls,joins.ends]
    constructor
    · rintro (⟨⟨part,member,own⟩,rest⟩ | ⟨call,⟨part,member,own⟩,enters⟩ | ⟨⟨part,member,ends⟩,later⟩)
      · exact ⟨part,member,(meets_andThen (free part member)).mpr (.inl ⟨own,rest⟩)⟩
      · exact ⟨part,member,(meets_andThen (free part member)).mpr (.inr (.inl ⟨call,own,enters⟩))⟩
      · exact ⟨part,member,(meets_andThen (free part member)).mpr (.inr (.inr ⟨ends,later⟩))⟩
    · rintro ⟨part,member,found⟩
      rcases (meets_andThen (free part member)).mp found with ⟨own,rest⟩ | ⟨call,own,enters⟩ | ⟨ends,later⟩
      · exact .inl ⟨⟨part,member,own⟩,rest⟩
      · exact .inr (.inl ⟨call,⟨part,member,own⟩,enters⟩)
      · exact .inr (.inr ⟨⟨part,member,ends⟩,later⟩)
  have finishes : (reach.andThen second).Finishes sites ↔ ∃ part ∈ parts, (part.andThen second).Finishes sites := by
    have spent (part : Reach) : (part.andThen second).Finishes sites ↔
        (part.ends = true ∧ second.ends = true) ∧ nothing.Finishes sites := by
      rw [finishes_iff,ends_andThen,Bool.and_eq_true]
    rw [spent,joins.ends]
    constructor
    · rintro ⟨⟨⟨part,member,one⟩,two⟩,rest⟩
      exact ⟨part,member,(spent part).mpr ⟨⟨one,two⟩,rest⟩⟩
    · rintro ⟨part,member,finishes⟩
      obtain ⟨⟨one,two⟩,rest⟩ := (spent part).mp finishes
      exact ⟨⟨⟨part,member,one⟩,two⟩,rest⟩
  constructor
  · intro reads
    cases reads with
    | done spent =>
      obtain ⟨part,member,spent⟩ := finishes.mp spent
      exact ⟨part,member,.done spent⟩
    | take met taken reads =>
      obtain ⟨part,member,met⟩ := meets.mp met
      exact ⟨part,member,.take met taken reads⟩
  · rintro ⟨part,member,reads⟩
    cases reads with
    | done spent => exact .done (finishes.mpr ⟨part,member,spent⟩)
    | take met taken reads => exact .take (meets.mpr ⟨part,member,met⟩) taken reads

end Reach

theorem Reach.reads_nothing {kinds : List Kind} (level : Nat) :
    Reach.nothing.Reads level (site :: sites) kinds ↔ site.after.Reads 0 sites kinds := by
  constructor
  · intro reads
    cases reads with
    | done finishes =>
      cases finishes with
      | up _ finishes => exact .done finishes
    | take meets taken reads =>
      cases meets with
      | own impossible _ => cases impossible
      | call impossible _ => cases impossible
      | up _ meets => exact .take meets taken reads
  · intro reads
    cases reads with
    | done finishes => exact .done (.up rfl finishes)
    | take meets taken reads => exact .take (.up rfl meets) taken reads

namespace Todo

variable {label entry back : Label} {bound : Nat} {body : Form Label} {rounds : Rounds}
variable {rule : Rule} {level : Nat} {sites : List Label} {kinds : List Kind} {rest : Todo}

theorem reach_skip (rest : Todo) : Todo.reach (.skip :: rest) = Todo.reach rest := by
  rw [reach_cons,Form.reach,Reach.nothing_andThen]

theorem reach_seq (sited : Sited rule (.seq first second :: rest)) :
    Todo.reach (.seq first second :: rest) = Todo.reach (first :: second :: rest) := by
  have regular := sited.regular
  simp only [isRegular,Bool.or_eq_true,Bool.not_eq_true',Bool.and_eq_false_iff,Option.isNone_iff_eq_none] at regular
  rw [reach_cons,reach_cons,reach_cons,Form.reach_seq,Reach.andThen_assoc]
  intro one two
  rcases regular with (absent | absent) | absent
  · rcases absent with open' | open'
    · rw [one] at open'
      cases open'
    · rw [two] at open'
      cases open'
  · exact .inl absent
  · exact .inr absent

theorem reads_head {form : Form Label} {intake : KindSet} (same : form.reach Rule.reach = .head label intake)
    (after : label.after = Todo.reach rest) : (Todo.reach (form :: rest)).Reads level sites kinds ↔
      ∃ kind others, kinds = kind :: others ∧ intake.contains kind = true ∧ (Todo.reach rest).Reads 0 sites others := by
  have whole : Todo.reach (form :: rest) = .head label intake := by
    rw [reach_cons,same]
    rfl
  rw [whole]
  constructor
  · intro reads
    cases reads with
    | done finishes => exact absurd finishes.ends (by simp [Reach.head])
    | take meets taken reads =>
      cases meets with
      | own member _ =>
        cases List.mem_singleton.mp member
        exact ⟨_,_,rfl,taken,after ▸ reads⟩
      | call impossible _ => cases impossible
      | up ends _ => cases ends
  · rintro ⟨kind,others,rfl,taken,reads⟩
    exact .take (.own (List.mem_singleton_self _) rfl) taken (after.symm ▸ reads)

theorem unleveled {reach : Reach} (unleveled : reach.isLeveled = false) (member : head ∈ reach.heads) :
    head.level = none := by
  have free := List.any_eq_false.mp unleveled head member
  simpa using free

-- A call comes first: what is read is read in the rule that is called, which is left to the place behind the call.
theorem reads_call (sited : Sited rule (.call site callee bound :: rest))
    (level asked : Nat) : (Todo.reach (.call site callee bound :: rest)).Reads level sites kinds ↔
      callee.reach.Reads asked (site :: sites) kinds := by
  have regular := sited.regular
  simp only [isRegular,Bool.and_eq_true,Bool.or_eq_true,Bool.not_eq_true'] at regular
  obtain ⟨steady,behind⟩ := regular
  have after : site.after = Todo.reach rest := Label.after_eq (sited.place rfl) rfl
  have whole : Todo.reach (.call site callee bound :: rest) = (callee.reach.within site).andThen site.after := by
    rw [reach_cons,Form.reach,after]
  have meets {head : Head} {under : List Label} :
      (Todo.reach (.call site callee bound :: rest)).Meets level sites head under ↔
        callee.reach.Meets asked (site :: sites) head under := by
    rw [whole,Reach.meets_andThen fun _ => rfl]
    simp only [Reach.within,Reach.heads_mk,Reach.calls_mk,Reach.ends_mk,List.not_mem_nil,false_and,false_or,
      List.mem_singleton,exists_eq_left]
    constructor
    · rintro (enters | ⟨ends,meets⟩)
      · cases enters with
        | own member => exact .own member (by simp [unleveled steady member])
        | call member enters => exact .call member enters
      · exact .up ends meets.lowered
    · intro meets
      cases meets with
      | own member _ => exact .inl (.own member)
      | call member enters => exact .inl (.call member enters)
      | up ends meets =>
        refine .inr ⟨ends,?_⟩
        have plain := behind.resolve_left (by simp [ends])
        cases meets with
        | own member _ => exact .own member (by simp [unleveled (after ▸ plain) member])
        | call member enters => exact .call member enters
        | up spent meets => exact .up spent meets
  have finishes : (Todo.reach (.call site callee bound :: rest)).Finishes sites ↔ callee.reach.Finishes (site :: sites) := by
    rw [whole,Reach.finishes_iff,Reach.ends_andThen,Bool.and_eq_true]
    constructor
    · rintro ⟨⟨one,two⟩,spent⟩
      exact .up one (Reach.finishes_iff.mpr ⟨two,spent⟩)
    · intro spent
      cases spent with
      | up ends spent => exact ⟨⟨ends,spent.ends⟩,(Reach.finishes_iff.mp spent).2⟩
  constructor
  · exact fun reads => reads.of_meets finishes.mp fun head _ met => ⟨head,meets.mp met,rfl,rfl⟩
  · exact fun reads => reads.of_meets finishes.mpr fun head _ met => ⟨head,meets.mpr met,rfl,rfl⟩

theorem reads_wrap (sited : Sited rule (.wrap label bound :: rest)) :
    (Todo.reach (.wrap label bound :: rest)).Reads level sites kinds ↔
      level ≤ bound ∧ (Todo.reach rest).Reads level sites kinds := by
  have regular := sited.regular
  simp only [isRegular,Bool.and_eq_true,Bool.not_eq_true',List.isEmpty_iff] at regular
  obtain ⟨⟨calls,going⟩,plain⟩ := regular
  have whole : Todo.reach (.wrap label bound :: rest) = (Reach.wrapping bound).andThen (Todo.reach rest) := by
    rw [reach_cons,Form.reach]
  have ends : ((Reach.wrapping bound).andThen (Todo.reach rest)).ends = false := by
    rw [Reach.ends_andThen,going,Bool.and_false]
  rw [whole]
  constructor
  · intro reads
    cases reads with
    | done finishes => exact absurd finishes.ends (by simp [ends])
    | take meets taken reads =>
      cases meets with
      | own member within =>
        rcases Reach.mem_heads_andThen.mp member with impossible | ⟨_,later,listed,rfl⟩
        · cases impossible
        · rw [unleveled plain listed] at within
          exact ⟨by simpa [Reach.wrapping] using within,
            .take (.own listed (by simp [unleveled plain listed])) taken reads⟩
      | call member _ =>
        rcases Reach.mem_calls_andThen.mp member with impossible | ⟨_,listed⟩
        · cases impossible
        · rw [calls] at listed
          cases listed
      | up spent _ => exact absurd spent (by simp [ends])
  · rintro ⟨within,reads⟩
    cases reads with
    | done finishes => exact absurd finishes.ends (by simp [going])
    | @take _ _ _ _ head _ _ meets taken reads =>
      cases meets with
      | own member _ =>
        have found : { head with level := head.level <|> some bound } ∈
            ((Reach.wrapping bound).andThen (Todo.reach rest)).heads :=
          Reach.mem_heads_andThen.mpr (.inr ⟨rfl,head,member,rfl⟩)
        exact .take (.own found (by simpa [unleveled plain member] using within)) taken reads
      | call member _ =>
        rw [calls] at member
        cases member
      | up spent _ => exact absurd spent (by simp [going])

theorem reads_choice {options : List (Form Label)} (sited : Sited rule (.choice label options :: rest)) :
    (Todo.reach (.choice label options :: rest)).Reads level sites kinds ↔
      ∃ option ∈ options, (Todo.reach (option :: rest)).Reads level sites kinds := by
  have regular := sited.regular
  simp only [isRegular,List.all_eq_true,Bool.or_eq_true,Bool.not_eq_true',Option.isNone_iff_eq_none] at regular
  rw [reach_cons,Form.reach,(Reach.anyReach_joins Rule.reach options).reads_andThen]
  · simp only [List.mem_map,reach_cons]
    constructor
    · rintro ⟨_,⟨option,member,rfl⟩,reads⟩
      exact ⟨option,member,reads⟩
    · rintro ⟨option,member,reads⟩
      exact ⟨_,⟨option,member,rfl⟩,reads⟩
  · intro part member ends
    obtain ⟨option,listed,rfl⟩ := List.mem_map.mp member
    exact (regular option listed).resolve_left (by simp [ends])

theorem reads_optional (sited : Sited rule (.optional label body :: rest)) :
    (Todo.reach (.optional label body :: rest)).Reads level sites kinds ↔
      (Todo.reach (body :: rest)).Reads level sites kinds ∨ (Todo.reach rest).Reads level sites kinds := by
  have regular := sited.regular
  simp only [isRegular,Bool.or_eq_true,Bool.not_eq_true',Option.isNone_iff_eq_none] at regular
  rw [reach_cons,Form.reach,(Reach.optional_joins _).reads_andThen]
  · simp [reach_cons,Reach.nothing_andThen]
  · intro part member ends
    rcases List.mem_cons.mp member with rfl | later
    · exact regular.resolve_left (by simp [ends])
    · cases List.mem_singleton.mp later
      rfl

theorem reach_round (sited : Sited rule (.loop rounds entry back body :: rest)) (others : Todo) :
    (body.reach Rule.reach).ends = false ∧ Todo.reach (body :: others) = body.reach Rule.reach := by
  have going : (body.reach Rule.reach).ends = false := by simpa [isRegular] using sited.regular
  exact ⟨going,by rw [reach_cons,Reach.andThen,if_neg (by simp [going])]⟩

theorem reads_loop (sited : Sited rule (.loop rounds entry back body :: rest)) (repeats : rounds ≠ .atLeastOne) :
    (Todo.reach (.loop rounds entry back body :: rest)).Reads level sites kinds ↔
      (Todo.reach (body :: .loop .again entry back body :: rest)).Reads level sites kinds ∨
        (Todo.reach rest).Reads level sites kinds := by
  obtain ⟨going,same⟩ := reach_round sited rest
  have whole : (Form.loop rounds entry back body).reach Rule.reach = (body.reach Rule.reach).orElse .nothing := by
    rw [Form.reach]
    exact repeats
  rw [(reach_round sited (.loop .again entry back body :: rest)).2,reach_cons,whole,
    (Reach.optional_joins _).reads_andThen]
  · simp [← reach_cons,same,Reach.nothing_andThen]
  · intro part member ends
    rcases List.mem_cons.mp member with rfl | later
    · simp [going] at ends
    · cases List.mem_singleton.mp later
      rfl

theorem reach_first (sited : Sited rule (.loop .atLeastOne entry back body :: rest)) :
    Todo.reach (.loop .atLeastOne entry back body :: rest) =
      Todo.reach (body :: .loop .again entry back body :: rest) := by
  rw [(reach_round sited _).2,← (reach_round sited rest).2,reach_cons,reach_cons,Form.reach]

theorem Opens.reads (opens : Opens kind before after) (sited : Sited rule before)
    (reads : (Todo.reach after).Reads level sites kinds) : (Todo.reach before).Reads level sites kinds := by
  cases opens with
  | skip => rwa [reach_skip]
  | seq => rwa [reach_seq sited]
  | choice member _ => exact (reads_choice sited).mpr ⟨_,member,reads⟩
  | enter _ => exact (reads_optional sited).mpr (.inl reads)
  | pass _ => exact (reads_optional sited).mpr (.inr reads)
  | first => rwa [reach_first sited]
  | round repeats _ => exact (reads_loop sited repeats).mpr (.inl reads)
  | stop repeats _ => exact (reads_loop sited repeats).mpr (.inr reads)

end Todo

end SolReader
