import SolReader.Proofs.Grammar.Place

namespace SolReader

open List Bool

namespace Next

variable (first second : Next) (kind : Kind)

theorem ends_andThen : (first.andThen second).ends = (first.ends && second.ends) := by
  rw [andThen]
  cases ends : first.ends <;> simp [ends]

theorem contains_andThen : (first.andThen second).kinds.contains kind =
    (first.kinds.contains kind || (first.ends && second.kinds.contains kind)) := by
  rw [andThen]
  cases first.ends <;> simp

theorem ends_orElse : (first.orElse second).ends = (first.ends || second.ends) := rfl

theorem contains_orElse : (first.orElse second).kinds.contains kind =
    (first.kinds.contains kind || second.kinds.contains kind) :=
  KindSet.contains_union ..

end Next

namespace Form

mutual

-- Before a token is taken no rule that can be empty is entered and no round that can be empty.
def sureFront : Form Label → Bool
  | .call _ rule _ => !rule.next.ends
  | .seq first second => first.sureFront && (!(first.next Rule.next).ends || second.sureFront)
  | .choice _ options => allSureFront options
  | .optional _ body => body.sureFront
  | .loop rounds _ _ body => rounds != .again && !(body.next Rule.next).ends && body.sureFront
  | _ => true

def allSureFront : List (Form Label) → Bool
  | [] => true
  | form :: forms => form.sureFront && allSureFront forms

end

section Options

variable {option : Form Label} {options : List (Form Label)} (member : option ∈ options)

include member

theorem sureFront_of_mem (sure : allSureFront options = true) : option.sureFront = true := by
  induction options with
  | nil => cases member
  | cons first others ih =>
    rw [allSureFront,and_eq_true] at sure
    rcases mem_cons.mp member with rfl | later
    · exact sure.1
    · exact ih later sure.2

theorem ends_of_mem (ends : (option.next Rule.next).ends = true) : (anyNext Rule.next options).ends = true := by
  induction options with
  | nil => cases member
  | cons first others ih =>
    rw [anyNext,Next.ends_orElse,or_eq_true]
    rcases mem_cons.mp member with rfl | later
    · exact .inl ends
    · exact .inr (ih later)

end Options

end Form

namespace Todo

def sureFront : Todo → Bool
  | [] => true
  | form :: rest => form.sureFront && (!(form.next Rule.next).ends || sureFront rest)

structure Awaits (kind : Kind) (todo : Todo) : Prop where
  starts : (Todo.next todo).kinds.contains kind = true
  needed : (Todo.next todo).ends = false
  sure : todo.sureFront = true

section Awaits

variable {form : Form Label} {rounds : Rounds}
variable {kind : Kind} {rest : Todo}

theorem awaits_cons : Awaits kind (form :: rest) ↔
    ((form.next Rule.next).kinds.contains kind || ((form.next Rule.next).ends && (Todo.next rest).kinds.contains kind)) =
        true ∧ ((form.next Rule.next).ends && (Todo.next rest).ends) = false ∧
      (form.sureFront && (!(form.next Rule.next).ends || sureFront rest)) = true := by
  rw [← Next.contains_andThen,← Next.ends_andThen,← next_cons]
  exact ⟨fun awaits => ⟨awaits.starts,awaits.needed,awaits.sure⟩,fun ⟨starts,needed,sure⟩ => ⟨starts,needed,sure⟩⟩

theorem not_awaits_nil : ¬ Awaits kind [] := fun awaits => by
  have needed := awaits.needed
  cases needed

theorem ends_cons (form : Form Label) :
    (Todo.next (form :: rest)).ends = ((form.next Rule.next).ends && (Todo.next rest).ends) :=
  Next.ends_andThen ..

theorem next_append (needed : (Todo.next front).ends = false) (suffix : Todo) :
    Todo.next (front ++ suffix) = Todo.next front := by
  induction front with
  | nil => cases needed
  | cons form front ih =>
    rw [ends_cons] at needed
    rw [cons_append,next_cons,next_cons]
    cases ends : (form.next Rule.next).ends with
    | false => simp only [Next.andThen,ends,false_eq_true,if_false]
    | true =>
      rw [ends,Bool.true_and] at needed
      rw [ih needed]

theorem ends_loop (repeats : rounds ≠ .atLeastOne) (entry back : Label) (body : Form Label) :
    ((Form.loop rounds entry back body).next Rule.next).ends = true := by
  cases rounds with
  | many => exact or_true _
  | atLeastOne => exact absurd rfl repeats
  | again => exact or_true _

theorem contains_orNothing (first : Next) : (first.orElse .nothing).kinds.contains kind = first.kinds.contains kind := by
  rw [Next.contains_orElse,show Next.nothing.kinds.contains kind = false from KindSet.contains_empty kind,Bool.or_false]

theorem contains_loop (entry back : Label) (body : Form Label) :
    ((Form.loop rounds entry back body).next Rule.next).kinds.contains kind =
      (body.next Rule.next).kinds.contains kind := by
  cases rounds with
  | many => exact contains_orNothing _
  | atLeastOne => rw [Form.next]
  | again => exact contains_orNothing _

theorem not_starts (absent : (Todo.next (form :: rest)).kinds.contains kind = false) :
    (form.next Rule.next).kinds.contains kind = false := by
  rw [next_cons,Next.contains_andThen,or_eq_false_iff] at absent
  exact absent.1

section Moves

variable {before after : Todo} {form body : Form Label}
variable {suffix : Todo}

theorem Fits.starts (fits : Fits kind (front ++ suffix)) (needed : (Todo.next front).ends = false) :
    (Todo.next front).kinds.contains kind = true := by
  rw [Fits,next_append needed,needed] at fits
  exact fits.resolve_left false_ne_true

theorem Awaits.narrowed (awaits : Awaits kind before) (fits : Fits kind (after ++ suffix))
    (ends : (Todo.next after).ends = true → (Todo.next before).ends = true)
    (sure : before.sureFront = true → after.sureFront = true) : Awaits kind after := by
  have needed : (Todo.next after).ends = false :=
    eq_false_iff.mpr fun left => eq_false_iff.mp awaits.needed (ends left)
  exact ⟨fits.starts needed,needed,sure awaits.sure⟩

theorem Awaits.passed (awaits : Awaits kind (form :: rest)) (free : (form.next Rule.next).ends = true)
    (passed : Fits kind (rest ++ suffix) ∨ (form.next Rule.next).kinds.contains kind = false) : Awaits kind rest := by
  rw [awaits_cons,free] at awaits
  simp only [Bool.true_and,Bool.not_true,Bool.false_or,Bool.or_eq_true,Bool.and_eq_true] at awaits
  obtain ⟨starts,needed,_,sure⟩ := awaits
  rcases passed with fits | absent
  · exact ⟨fits.starts needed,needed,sure⟩
  · rw [absent] at starts
    exact ⟨starts.resolve_left Bool.false_ne_true,needed,sure⟩

theorem sureFront_part {part : Form Label} (sure : sureFront (form :: rest) = true)
    (front : form.sureFront = true → part.sureFront = true)
    (ends : (part.next Rule.next).ends = true → (form.next Rule.next).ends = true) : sureFront (part :: rest) = true := by
  rw [sureFront] at sure ⊢
  grind

theorem awaits_round (filled : (body.next Rule.next).ends = false) (sure : body.sureFront = true)
    (fits : Fits kind (body :: suffix)) (rest : Todo) : Awaits kind (body :: rest) := by
  have needed : (Todo.next [body]).ends = false := by rw [ends_cons,filled,Bool.false_and]
  have starts := Fits.starts (show Fits kind ([body] ++ suffix) from fits) needed
  rw [next_cons,Next.contains_andThen,filled,Bool.false_and,Bool.or_false] at starts
  rw [awaits_cons,starts,filled,sure]
  exact ⟨rfl,rfl,rfl⟩

theorem sureFront_loop (sure : sureFront (.loop rounds entry back body :: rest) = true) :
    rounds ≠ .again ∧ (body.next Rule.next).ends = false ∧ body.sureFront = true := by
  rw [sureFront,Form.sureFront] at sure
  simp only [and_eq_true,not_eq_true',bne_iff_ne] at sure
  exact ⟨sure.1.1.1,sure.1.1.2,sure.1.2⟩

theorem Awaits.opened (awaits : Awaits kind before) (opens : Opens kind (before ++ suffix) after) :
    ∃ front, after = front ++ suffix ∧ Awaits kind front := by
  cases before with
  | nil => exact absurd awaits not_awaits_nil
  | cons form rest =>
    cases opens with
    | skip => exact ⟨rest,rfl,awaits.passed rfl (.inr (KindSet.contains_empty kind) : Fits kind (rest ++ []) ∨ _)⟩
    | @seq first second =>
      refine ⟨first :: second :: rest,rfl,?_⟩
      rw [awaits_cons,Form.next_seq,Next.contains_andThen,Next.ends_andThen,Form.sureFront] at awaits
      rw [awaits_cons,next_cons,Next.contains_andThen,Next.ends_andThen,sureFront]
      grind
    | @choice _ _ option _ member fits =>
      refine ⟨option :: rest,rfl,awaits.narrowed fits (fun ends => ?_) fun sure => ?_⟩
      · rw [ends_cons,and_eq_true] at ends ⊢
        exact ⟨Form.ends_of_mem member ends.1,ends.2⟩
      · exact sureFront_part sure (Form.sureFront_of_mem member) (Form.ends_of_mem member)
    | @enter _ body _ fits =>
      refine ⟨body :: rest,rfl,awaits.narrowed fits (fun ends => ?_) fun sure => ?_⟩
      · rw [ends_cons,and_eq_true] at ends ⊢
        exact ⟨or_true _,ends.2⟩
      · exact sureFront_part sure id fun _ => or_true _
    | pass free =>
      refine ⟨rest,rfl,awaits.passed (or_true _) (free.imp_right fun absent => ?_)⟩
      exact (contains_orNothing _).trans (not_starts absent)
    | @first entry back body =>
      obtain ⟨_,filled,sure⟩ := sureFront_loop awaits.sure
      refine ⟨body :: .loop .again entry back body :: rest,rfl,awaits_round filled sure (.inr ?_ : Fits kind [body]) _⟩
      have starts := awaits.starts
      rw [next_cons,Next.contains_andThen,contains_loop,Form.next,filled] at starts
      rw [next_cons,Next.contains_andThen,filled]
      simpa using starts
    | @round _ entry back body _ repeats fits =>
      obtain ⟨_,filled,sure⟩ := sureFront_loop awaits.sure
      exact ⟨body :: .loop .again entry back body :: rest,rfl,awaits_round filled sure fits _⟩
    | stop repeats free =>
      refine ⟨rest,rfl,awaits.passed (ends_loop repeats ..) (free.imp_right fun absent => ?_)⟩
      rw [contains_loop]
      exact not_starts absent

theorem Awaits.wrapped {label : Label} {level : Nat} (awaits : Awaits kind (.wrap label level :: rest)) :
    Awaits kind rest :=
  awaits.passed rfl (.inr (KindSet.contains_empty kind) : Fits kind (rest ++ []) ∨ _)

end Moves

end Awaits

end Todo

namespace Grammar

theorem rules_checked :
    ∀ rule : Rule, (Todo.next [rule.form] == rule.next && Todo.sureFront [rule.form]) = true := by
  decide

set_option maxRecDepth 100000 in
theorem rounds_checked : (Grammar.places.all fun
    | .loop _ _ _ body :: _ => !(body.next Rule.next).ends && body.sureFront
    | _ => true) = true := by
  decide

end Grammar

namespace Todo

variable {rule : Rule} {rounds : Rounds} {entry back : Label} {body : Form Label}
variable {kind : Kind} {rest : Todo}

theorem Awaits.called {label : Label} {level : Nat} (awaits : Awaits kind (.call label rule level :: rest)) :
    Awaits kind [rule.form] := by
  have checked := Grammar.rules_checked rule
  rw [and_eq_true,beq_iff_eq] at checked
  rw [awaits_cons,Form.next,Form.sureFront] at awaits
  obtain ⟨starts,needed,sure⟩ := awaits
  have filled : rule.next.ends = false := by grind
  refine ⟨?_,?_,checked.2⟩
  · rw [checked.1]
    simpa [filled] using starts
  · rw [checked.1]
    exact filled

theorem Sited.filled (sited : Sited rule (.loop rounds entry back body :: rest)) :
    (body.next Rule.next).ends = false ∧ body.sureFront = true := by
  have named : (Form.loop rounds entry back body).label?.isSome := by cases rounds <;> rfl
  have checked := all_eq_true.mp Grammar.rounds_checked _ (Grammar.mem_places sited.mem named)
  simpa using checked

theorem Sited.awaits
    (sited : Sited rule (.loop rounds entry back body :: rest)) (fits : Fits kind (body :: suffix)) :
    Awaits kind [body] :=
  awaits_round sited.filled.1 sited.filled.2 fits []

end Todo

end SolReader
