import SolReader.Prediction.Reach
import SolReader.Proofs.KindSet

namespace SolReader

namespace Reach

variable {left right : Reach} {first second : Next}

attribute [grind =] kinds kindsOfCalls

theorem contains_foldl_heads (heads : List Head) (set : KindSet) (kind : Kind) :
    (heads.foldl (fun set head => set ∪ head.kinds) set).contains kind =
      (set.contains kind || heads.any (·.kinds.contains kind)) := by
  induction heads generalizing set with
  | nil => simp
  | cons head rest ih => simp [ih,Bool.or_assoc]

theorem contains_kindsOfCalls (calls : List (Label × Reach)) (kind : Kind) :
    (kindsOfCalls calls).contains kind = calls.any (·.2.kinds.contains kind) := by
  induction calls with
  | nil => simp [kindsOfCalls]
  | cons call rest ih => simp [kindsOfCalls,ih]

theorem contains_kinds (reach : Reach) (kind : Kind) :
    reach.kinds.contains kind =
      (reach.heads.any (·.kinds.contains kind) || reach.calls.any (·.2.kinds.contains kind)) := by
  cases reach with
  | mk heads calls ends level =>
    rw [kinds,contains_foldl_heads,contains_kindsOfCalls,Bool.or_comm]
    rfl

-- The reach names the same kinds and the same end as the set of what can come next.
structure Agrees (reach : Reach) (next : Next) : Prop where
  ends : reach.ends = next.ends
  kinds : ∀ kind, reach.kinds.contains kind = next.kinds.contains kind

theorem nothing_agrees : Agrees .nothing .nothing := by
  refine ⟨rfl,fun kind => ?_⟩
  rw [contains_kinds]
  simp [nothing,heads,calls,Next.nothing]

theorem never_agrees : Agrees .never .never := by
  refine ⟨rfl,fun kind => ?_⟩
  rw [contains_kinds]
  simp [never,heads,calls,Next.never]

theorem head_agrees (label : Label) (kinds : KindSet) : Agrees (.head label kinds) ⟨kinds,false⟩ := by
  refine ⟨rfl,fun kind => ?_⟩
  rw [contains_kinds]
  simp [head,heads,calls]

theorem wrapping_agrees (level : Nat) : Agrees (.wrapping level) .nothing := by
  refine ⟨rfl,fun kind => ?_⟩
  rw [contains_kinds]
  simp [wrapping,heads,calls,Next.nothing]

theorem within_agrees (agrees : Agrees reach next) (site : Label) : Agrees (reach.within site) next := by
  refine ⟨agrees.ends,fun kind => ?_⟩
  rw [contains_kinds,← agrees.kinds kind]
  simp [within,heads,calls]

theorem orElse_agrees (one : Agrees left first)
    (two : Agrees right second) : Agrees (left.orElse right) (first.orElse second) := by
  refine ⟨?_,fun kind => ?_⟩
  · change (left.ends || right.ends) = (first.ends || second.ends)
    rw [one.ends,two.ends]
  · change (left.orElse right).kinds.contains kind = (first.kinds ∪ second.kinds).contains kind
    rw [KindSet.contains_union,← one.kinds kind,← two.kinds kind,contains_kinds,contains_kinds left,
      contains_kinds right]
    simp only [orElse,heads,calls,List.any_append]
    ac_rfl

theorem andThen_agrees (one : Agrees left first)
    (two : Agrees right second) : Agrees (left.andThen right) (first.andThen second) := by
  cases ended : left.ends with
  | false =>
    have also : first.ends = false := one.ends ▸ ended
    simpa [andThen,Next.andThen,ended,also] using one
  | true =>
    have also : first.ends = true := one.ends ▸ ended
    refine ⟨?_,fun kind => ?_⟩
    · rw [andThen,if_pos ended,Next.andThen,if_pos also]
      exact two.ends
    · simp only [Next.andThen,also,if_true,KindSet.contains_union]
      rw [← one.kinds kind,← two.kinds kind,contains_kinds,contains_kinds left,contains_kinds right]
      simp only [andThen,ended,if_true,heads,calls,List.any_append,List.any_map,Function.comp_def]
      ac_rfl

end Reach

open Reach (Agrees)

-- The two tables are filled by separate recursions over the rules and compared entry by entry.
set_option maxRecDepth 100000 in
theorem Rule.tables_agree :
    ∀ rule : Rule, (rule.reach.ends == rule.next.ends && rule.reach.kinds == rule.next.kinds) = true := by
  decide

theorem Rule.reach_agrees (rule : Rule) : Agrees rule.reach rule.next := by
  have checked := Rule.tables_agree rule
  simp only [Bool.and_eq_true,beq_iff_eq] at checked
  exact ⟨checked.1,fun kind => by rw [checked.2]⟩

namespace Form

theorem next_seq {α : Type} (ofRule : Rule → Next) (first second : Form α) :
    (Form.seq first second).next ofRule = (first.next ofRule).andThen (second.next ofRule) := by
  simp only [next,Next.andThen]
  split <;> rfl

theorem reach_seq (ofRule : Rule → Reach) (first second : Form Label) :
    (Form.seq first second).reach ofRule = (first.reach ofRule).andThen (second.reach ofRule) := by
  simp only [reach,Reach.andThen]
  split <;> simp_all

mutual

theorem reach_agrees : (form : Form Label) → Agrees (form.reach Rule.reach) (form.next Rule.next)
  | .token label kind => by
    rw [reach,next]
    exact Reach.head_agrees label _
  | .oneOf label kinds => by
    rw [reach,next]
    exact Reach.head_agrees label kinds
  | .call label rule _ => by
    rw [reach,next]
    exact Reach.within_agrees (Rule.reach_agrees rule) label
  | .wrap _ level => by
    rw [reach,next]
    exact Reach.wrapping_agrees level
  | .skip => by
    rw [reach,next]
    exact Reach.nothing_agrees
  | .seq first second => by
    rw [reach_seq,next_seq]
    exact Reach.andThen_agrees (reach_agrees first) (reach_agrees second)
  | .choice _ options => by
    rw [reach,next]
    exact anyReach_agrees options
  | .optional _ body => by
    rw [reach,next]
    exact Reach.orElse_agrees (reach_agrees body) Reach.nothing_agrees
  | .loop .atLeastOne _ _ body => by
    rw [reach,next]
    exact reach_agrees body
  | .loop .many _ _ body => by
    rw [reach,next]
    · exact Reach.orElse_agrees (reach_agrees body) Reach.nothing_agrees
    all_goals exact fun same => nomatch same
  | .loop .again _ _ body => by
    rw [reach,next]
    · exact Reach.orElse_agrees (reach_agrees body) Reach.nothing_agrees
    all_goals exact fun same => nomatch same

theorem anyReach_agrees : (forms : List (Form Label)) → Agrees (anyReach Rule.reach forms) (anyNext Rule.next forms)
  | [] => by
    rw [anyReach,anyNext]
    exact Reach.never_agrees
  | form :: forms => by
    rw [anyReach,anyNext]
    exact Reach.orElse_agrees (reach_agrees form) (anyReach_agrees forms)

end

end Form

namespace Todo

@[simp] theorem next_nil : Todo.next [] = .nothing := rfl

@[simp] theorem next_cons (form : Form Label) (rest : Todo) :
    Todo.next (form :: rest) = (form.next Rule.next).andThen (Todo.next rest) := rfl

theorem reach_cons (form : Form Label) (rest : Todo) :
    Todo.reach (form :: rest) = (form.reach Rule.reach).andThen (Todo.reach rest) := by
  simp only [Todo.reach,Reach.andThen]
  split <;> simp_all

theorem reach_agrees (todo : Todo) : Agrees (Todo.reach todo) (Todo.next todo) := by
  induction todo with
  | nil => exact Reach.nothing_agrees
  | cons form rest ih =>
    rw [reach_cons,next_cons]
    exact Reach.andThen_agrees (Form.reach_agrees form) ih

end Todo

end SolReader
