import SolReader.Parse.Step
import SolReader.Proofs.Grammar.Descent

namespace SolReader

open List Bool

variable {rule : Rule}

namespace Todo

-- Some form of the list holds the kind.
def holds (kind : Kind) : Todo → Bool
  | [] => false
  | form :: rest => form.holds kind rest || holds kind rest

def effort (kind : Kind) : Todo → Nat
  | [] => 1
  | form :: rest => form.steps kind (Rule.cost kind) rest + if form.holds kind rest then 0 else effort kind rest

end Todo

namespace Form

section Loop

variable {rounds : Rounds} (repeats : rounds ≠ .atLeastOne) (entry back : Label) (body : Form Label) (rest : Todo)

include repeats

theorem shut_loop (ofRule : Rule → KindSet) : (Form.loop rounds entry back body).shut ofRule rest =
    Todo.kept (body.shut ofRule (.loop .again entry back body :: rest)) (body :: .loop .again entry back body :: rest)
      rest := by
  cases rounds with
  | many => rw [shut]; simp
  | atLeastOne => exact absurd rfl repeats
  | again => rw [shut]; simp

theorem steps_loop (kind : Kind) (ofRule : Rule → Nat) : (Form.loop rounds entry back body).steps kind ofRule rest =
    (if (Todo.fitting (body :: .loop .again entry back body :: rest)).contains kind
      then body.steps kind ofRule (.loop .again entry back body :: rest) else 0) + 1 := by
  cases rounds with
  | many => rw [steps]; simp
  | atLeastOne => exact absurd rfl repeats
  | again => rw [steps]; simp

end Loop

theorem steps_pos (kind : Kind) (ofRule : Rule → Nat) (rest : Todo) (form : Form Label) :
    1 ≤ form.steps kind ofRule rest := by
  match form with
  | .token _ _ | .oneOf _ _ | .wrap _ _ | .skip => rw [steps] <;> simp
  | .call _ _ _ | .seq _ _ | .choice _ _ | .optional _ _ => rw [steps]; omega
  | .loop .atLeastOne _ _ _ => rw [steps]; omega
  | .loop .many _ _ _ => rw [steps_loop (by decide)]; omega
  | .loop .again _ _ _ => rw [steps_loop (by decide)]; omega

section Options

variable {kind : Kind} {rest : Todo} {options : List (Form Label)} {option : Form Label}

theorem steps_le_mostSteps (member : option ∈ options) (fits : Todo.Fits kind (option :: rest)) (ofRule : Rule → Nat) :
    option.steps kind ofRule rest ≤ mostSteps kind ofRule rest options := by
  induction options with
  | nil => cases member
  | cons first others ih =>
    rw [mostSteps]
    rcases mem_cons.mp member with rfl | later
    · rw [if_pos (Todo.fits_iff.mp fits)]
      exact Nat.le_max_left ..
    · exact Nat.le_trans (ih later) (Nat.le_max_right ..)

theorem mem_anyLeak (member : option ∈ options) (fits : Todo.Fits kind (option :: rest))
    (open_ : option.holds kind rest = false) : (anyLeak Rule.shut rest options).contains kind = true := by
  induction options with
  | nil => cases member
  | cons first others ih =>
    rw [anyLeak,KindSet.contains_union,or_eq_true]
    rcases mem_cons.mp member with rfl | later
    · rw [holds] at open_
      exact .inl (by rw [KindSet.contains_minus,Todo.fits_iff.mp fits,open_]; rfl)
    · exact .inr (ih later)

theorem holds_option (member : option ∈ options) (fits : Todo.Fits kind (option :: rest))
    (held : (Form.choice label options).holds kind rest = true) : option.holds kind rest = true := by
  cases leaks : option.holds kind rest with
  | true => rfl
  | false =>
    rw [holds,shut,KindSet.contains_minus,mem_anyLeak member fits leaks,Bool.not_true,Bool.and_false] at held
    cases held

end Options

end Form

set_option maxRecDepth 100000 in
theorem Rule.shut_eof_checked : ∀ rule : Rule, (!rule.shut.contains .eof) = true := by
  decide

theorem Rule.shut_eof (rule : Rule) : rule.shut.contains .eof = false := by
  simpa using Rule.shut_eof_checked rule

namespace Form

-- The end of the text is never passed, so nothing holds it.
mutual

theorem holds_eof (rest : Todo) : (form : Form Label) → form.holds .eof rest = false
  | .token _ _ => by simp [holds,shut]
  | .oneOf _ _ => by simp [holds,shut]
  | .call _ rule _ => by
    rw [holds,shut]
    exact rule.shut_eof
  | .wrap _ _ => by simp [holds,shut]
  | .skip => by simp [holds,shut]
  | .seq first second => by
    have left := holds_eof (second :: rest) first
    have right := holds_eof rest second
    rw [holds] at left right
    rw [holds,shut,KindSet.contains_union,left,right]
    rfl
  | .choice _ options => by
    rw [holds,shut,KindSet.contains_minus,anyShut_eof rest options]
    rfl
  | .optional _ body => by
    rw [holds,shut]
    exact eq_false_iff.mpr fun kept => eq_false_iff.mp (holds_eof rest body) (Todo.held_of_kept kept)
  | .loop .atLeastOne entry back body => by
    rw [holds,shut]
    exact holds_eof (.loop .again entry back body :: rest) body
  | .loop .many entry back body => by
    rw [holds,shut_loop (by decide)]
    exact eq_false_iff.mpr fun kept => eq_false_iff.mp (holds_eof _ body) (Todo.held_of_kept kept)
  | .loop .again entry back body => by
    rw [holds,shut_loop (by decide)]
    exact eq_false_iff.mpr fun kept => eq_false_iff.mp (holds_eof _ body) (Todo.held_of_kept kept)

theorem anyShut_eof (rest : Todo) :
    (forms : List (Form Label)) → (anyShut Rule.shut rest forms).contains .eof = false
  | [] => KindSet.contains_empty .eof
  | form :: forms => by
    have first := holds_eof rest form
    rw [holds] at first
    rw [anyShut,KindSet.contains_union,first,anyShut_eof rest forms]
    rfl

end

end Form

set_option maxRecDepth 100000 in
theorem Grammar.loops_checked : (Grammar.places.all fun
    | .loop _ entry back body :: rest =>
      ((Todo.fitting (body :: .loop .again entry back body :: rest)).minus
        (body.shut Rule.shut (.loop .again entry back body :: rest))).isEmpty
    | _ => true) = true := by
  decide

theorem Todo.Sited.round_holds (sited : Todo.Sited rule (.loop rounds entry back body :: rest))
    (fits : Todo.Fits kind (body :: .loop .again entry back body :: rest)) :
    body.holds kind (.loop .again entry back body :: rest) = true := by
  have named : (Form.loop rounds entry back body).label?.isSome := by cases rounds <;> rfl
  have checked := all_eq_true.mp Grammar.loops_checked _ (Grammar.mem_places sited.mem named)
  exact KindSet.contains_of_minus checked (Todo.fits_iff.mp fits)

namespace Todo

theorem effort_pos (kind : Kind) (todo : Todo) : 1 ≤ effort kind todo := by
  cases todo with
  | nil => exact Nat.le_refl 1
  | cons form rest =>
    have positive := form.steps_pos kind (Rule.cost kind) rest
    rw [effort]
    omega

theorem Opens.effort_lt {after : Todo} (sited : Sited rule before) (opens : Opens kind before after) :
    effort kind after < effort kind before ∧ (holds kind before = true → holds kind after = true) := by
  cases opens with
  | skip =>
    have free : Form.skip.holds kind after = false := by simp [Form.holds,Form.shut]
    rw [effort,holds,free]
    refine ⟨?_,fun held => by simpa using held⟩
    rw [Form.steps] <;> simp
  | @seq first second rest =>
    have both : (Form.seq first second).holds kind rest =
        (first.holds kind (second :: rest) || second.holds kind rest) := by
      simp [Form.holds,Form.shut]
    simp only [effort,holds,both,Form.steps]
    refine ⟨?_,fun held => by simpa [Bool.or_assoc] using held⟩
    cases first.holds kind (second :: rest) <;> cases second.holds kind rest <;> simp
    omega
  | @choice label options option rest member fits =>
    have less := Form.steps_le_mostSteps member fits (Rule.cost kind)
    have keeps : (Form.choice label options).holds kind rest = true → option.holds kind rest = true :=
      Form.holds_option member fits
    simp only [effort,holds,Form.steps]
    cases held : (Form.choice label options).holds kind rest with
    | true => simp [keeps held]; omega
    | false =>
      refine ⟨?_,fun held => by simp only [Bool.false_or] at held; simp [held]⟩
      cases option.holds kind rest <;> simp <;> omega
  | @enter label body rest fits =>
    have keeps : (Form.optional label body).holds kind rest = true → body.holds kind rest = true := by
      rw [Form.holds,Form.shut]
      exact held_of_kept
    simp only [effort,holds,Form.steps,fits_iff.mp fits,if_true]
    cases held : (Form.optional label body).holds kind rest with
    | true => simp [keeps held]
    | false =>
      refine ⟨?_,fun held => by simp only [Bool.false_or] at held; simp [held]⟩
      cases body.holds kind rest <;> simp
      omega
  | @pass label body _ free =>
    have passed : (Form.optional label body).holds kind after = false := by
      rw [Form.holds,Form.shut]
      exact not_kept free
    rw [effort,holds,passed]
    refine ⟨?_,fun held => by simpa using held⟩
    rw [Form.steps]
    simp only [false_eq_true,if_false]
    omega
  | @first entry back body rest =>
    have same : (Form.loop .atLeastOne entry back body).holds kind rest =
        body.holds kind (.loop .again entry back body :: rest) := by
      rw [Form.holds,Form.shut,Form.holds]
    simp only [effort,holds,same,Form.steps]
    cases body.holds kind (.loop .again entry back body :: rest) with
    | true => simp
    | false =>
      refine ⟨?_,fun held => by simp only [Bool.false_or] at held ⊢; simp [held]⟩
      cases (Form.loop .again entry back body).holds kind rest <;> simp <;> omega
  | @round rounds entry back body rest repeats fits =>
    have held := sited.round_holds fits
    have loop := Form.steps_loop repeats entry back body rest kind (Rule.cost kind)
    simp only [effort,holds,held,loop,fits_iff.mp fits,if_true]
    refine ⟨by omega,fun _ => by simp⟩
  | @stop rounds entry back body _ repeats free =>
    have passed : (Form.loop rounds entry back body).holds kind after = false := by
      rw [Form.holds,Form.shut_loop repeats]
      exact not_kept free
    rw [effort,holds,passed,Form.steps_loop repeats]
    refine ⟨?_,fun held => by simpa using held⟩
    simp only [false_eq_true,if_false]
    omega

theorem holds_eof (todo : Todo) : holds .eof todo = false := by
  induction todo with
  | nil => rfl
  | cons form rest ih => rw [holds,form.holds_eof rest,ih,Bool.or_false]

theorem effort_form (kind : Kind) (rule : Rule) : effort kind [rule.form] ≤ rule.cost kind + 1 := by
  rw [effort,← Rule.cost_eq]
  split
  · exact Nat.le_add_right ..
  · exact Nat.le_refl _

end Todo

namespace Form

mutual

-- A bound on the steps that does not depend on the token.
def weight (ofRule : Rule → Nat) : Form Label → Nat
  | .call _ rule _ => ofRule rule + 2
  | .seq first second => first.weight ofRule + second.weight ofRule + 1
  | .choice _ options => mostWeight ofRule options + 1
  | .optional _ body => body.weight ofRule + 1
  | .loop rounds _ _ body => (if rounds = .atLeastOne then body.weight ofRule + 1 else 0) + body.weight ofRule + 1
  | _ => 1

def mostWeight (ofRule : Rule → Nat) : List (Form Label) → Nat
  | [] => 0
  | form :: forms => max (form.weight ofRule) (mostWeight ofRule forms)

end

section Bound

variable {kind : Kind} {ofRule bound : Rule → Nat}

mutual

theorem steps_le_weight (below : ∀ rule, ofRule rule ≤ bound rule) (rest : Todo) :
    (form : Form Label) → form.steps kind ofRule rest ≤ form.weight bound
  | .call _ rule _ => by
    have called := below rule
    rw [steps,weight]
    omega
  | .seq first second => by
    have left := steps_le_weight below (second :: rest) first
    have right := steps_le_weight below rest second
    rw [steps,weight]
    split <;> omega
  | .choice _ options => by
    have most := mostSteps_le_mostWeight below rest options
    rw [steps,weight]
    omega
  | .optional _ body => by
    have inside := steps_le_weight below rest body
    rw [steps,weight]
    split <;> omega
  | .loop .atLeastOne entry back body => by
    have inside := steps_le_weight below (.loop .again entry back body :: rest) body
    rw [steps,weight,if_pos rfl]
    split
    · omega
    · split <;> omega
  | .loop .many entry back body => by
    have inside := steps_le_weight below (.loop .again entry back body :: rest) body
    rw [steps_loop (by decide),weight]
    split <;> omega
  | .loop .again entry back body => by
    have inside := steps_le_weight below (.loop .again entry back body :: rest) body
    rw [steps_loop (by decide),weight]
    split <;> omega
  | .token _ _ => by rw [steps,weight] <;> simp
  | .oneOf _ _ => by rw [steps,weight] <;> simp
  | .wrap _ _ => by rw [steps,weight] <;> simp
  | .skip => by rw [steps,weight] <;> simp

theorem mostSteps_le_mostWeight (below : ∀ rule, ofRule rule ≤ bound rule) (rest : Todo) :
    (forms : List (Form Label)) → mostSteps kind ofRule rest forms ≤ mostWeight bound forms
  | [] => Nat.le_refl 0
  | form :: forms => by
    have first := steps_le_weight below rest form
    have others := mostSteps_le_mostWeight below rest forms
    rw [mostSteps,mostWeight]
    split <;> omega

end

end Bound

end Form

def Rule.weightWithin : (count : Nat) → Rule → Nat
  | 0, _ => 0
  | count + 1, rule => rule.form.weight (weightWithin count)

theorem Rule.costWithin_le_weight (kind : Kind) (count : Nat) (rule : Rule) :
    rule.costWithin kind count ≤ rule.weightWithin count := by
  induction count generalizing rule with
  | zero => exact Nat.le_refl 0
  | succ count ih => exact Form.steps_le_weight ih [] rule.form

namespace Todo

def weight (todo : Todo) : Nat :=
  todo.foldr (fun form sum => form.weight (Rule.weightWithin 10) + sum) 1

theorem effort_le_weight (kind : Kind) (todo : Todo) : effort kind todo ≤ weight todo := by
  induction todo with
  | nil => exact Nat.le_refl 1
  | cons form rest ih =>
    have first : form.steps kind (Rule.cost kind) rest ≤ form.weight (Rule.weightWithin 10) :=
      Form.steps_le_weight (Rule.costWithin_le_weight kind 10) rest form
    rw [effort,weight,foldr_cons]
    change _ ≤ form.weight (Rule.weightWithin 10) + weight rest
    split <;> omega

end Todo

set_option maxRecDepth 100000 in
theorem Grammar.weights_checked :
    ∀ rule : Rule, (rule.spots.all fun spot => Todo.weight spot ≤ Parse.limit) = true := by
  decide

theorem Todo.Sited.effort_le (sited : Todo.Sited rule todo) (kind : Kind) : Todo.effort kind todo ≤ Parse.limit := by
  cases todo with
  | nil => exact Nat.le_of_ble_eq_true rfl
  | cons form rest =>
    have checked := Grammar.weights_checked rule
    have light := all_eq_true.mp checked _ sited.mem
    exact Nat.le_trans (effort_le_weight kind _) (of_decide_eq_true light)

end SolReader
