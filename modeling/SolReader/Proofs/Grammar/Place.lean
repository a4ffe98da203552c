import SolReader.Prediction.Decision
import SolReader.Proofs.Grammar.Reach

namespace SolReader

open List

namespace Form

mutual

-- Every list of forms that can be left to do from the beginning of a form on.  Unlike `places` it has also those whose
-- first form carries no label.
def spots (rest : Todo) : Form Label → List Todo
  | .token label kind => [.token label kind :: rest]
  | .oneOf label kinds => [.oneOf label kinds :: rest]
  | .call label rule level => [.call label rule level :: rest]
  | .wrap label level => [.wrap label level :: rest]
  | .skip => [.skip :: rest]
  | .seq first second => (.seq first second :: rest) :: (first.spots (second :: rest) ++ second.spots rest)
  | .choice label options => (.choice label options :: rest) :: allSpots rest options
  | .optional label body => (.optional label body :: rest) :: body.spots rest
  | .loop rounds entry back body =>
    (.loop rounds entry back body :: rest) :: (.loop .again entry back body :: rest) ::
      body.spots (.loop .again entry back body :: rest)

def allSpots (rest : Todo) : List (Form Label) → List Todo
  | [] => []
  | form :: forms => form.spots rest ++ allSpots rest forms

end

theorem self_mem_spots (rest : Todo) (form : Form Label) : form :: rest ∈ form.spots rest := by
  cases form <;> simp [spots]

theorem mem_allSpots {options : List (Form Label)}
    (member : option ∈ options) (inside : spot ∈ option.spots rest) : spot ∈ allSpots rest options := by
  induction options with
  | nil => cases member
  | cons first others ih =>
    rw [allSpots,mem_append]
    rcases mem_cons.mp member with rfl | later
    · exact .inl inside
    · exact .inr (ih later)

-- A list whose first form has a label is a place of the labelled grammar.
mutual

theorem mem_places {form : Form Label} {left : Todo} (spot : spotted :: left ∈ form.spots rest)
    (named : spotted.label?.isSome) : spotted :: left ∈ form.places rest := by
  cases form with
  | token label kind => simpa [spots,places] using spot
  | oneOf label kinds => simpa [spots,places] using spot
  | call label rule level => simpa [spots,places] using spot
  | wrap label level => simpa [spots,places] using spot
  | skip =>
    simp only [spots,mem_singleton,List.cons.injEq] at spot
    simp [spot.1,label?] at named
  | seq first second =>
    simp only [spots,mem_cons,mem_append,List.cons.injEq] at spot
    rw [places,mem_append]
    rcases spot with ⟨rfl,_⟩ | left | right
    · simp [label?] at named
    · exact .inl (mem_places left named)
    · exact .inr (mem_places right named)
  | choice label options =>
    rw [spots,mem_cons] at spot
    rw [places,mem_cons]
    exact spot.imp_right fun inside => mem_allPlaces inside named
  | optional label body =>
    rw [spots,mem_cons] at spot
    rw [places,mem_cons]
    exact spot.imp_right fun inside => mem_places inside named
  | loop rounds entry back body =>
    rw [spots,mem_cons,mem_cons] at spot
    rw [places,mem_cons,mem_cons]
    exact spot.imp_right fun later => later.imp_right fun inside => mem_places inside named

theorem mem_allPlaces {left : Todo} (spot : spotted :: left ∈ allSpots rest forms) (named : spotted.label?.isSome) :
    spotted :: left ∈ allPlaces rest forms := by
  cases forms with
  | nil => simp [allSpots] at spot
  | cons form others =>
    rw [allSpots,mem_append] at spot
    rw [allPlaces,mem_append]
    exact spot.imp (fun inside => mem_places inside named) fun later => mem_allPlaces later named

end

end Form

def Rule.spots (rule : Rule) : List Todo :=
  rule.form.spots []

theorem Grammar.mem_places {rule : Rule} (spot : form :: rest ∈ rule.spots)
    (named : form.label?.isSome) : form :: rest ∈ Grammar.places :=
  mem_flatMap.mpr ⟨rule,Rule.mem_all rule,Form.mem_places spot named⟩

-- Everything that can be left to do in the rule after some steps is a spot of the rule.
def Todo.Sited (rule : Rule) : Todo → Prop
  | [] => True
  | form :: rest => (∀ spot ∈ form.spots rest, spot ∈ rule.spots) ∧ Todo.Sited rule rest

namespace Todo

theorem Sited.mem (sited : Sited rule (form :: rest)) : form :: rest ∈ rule.spots :=
  sited.1 _ (Form.self_mem_spots rest form)

theorem sited_start (rule : Rule) : Sited rule [rule.form] :=
  ⟨fun _ spot => spot,trivial⟩

-- The token can be taken by what is left to do, or all of that can be left out.
def Fits (kind : Kind) (todo : Todo) : Prop :=
  (Todo.next todo).ends = true ∨ (Todo.next todo).kinds.contains kind = true

-- The steps inside a rule that take no token.  `kind` is the kind of the current token: an option is entered only if
-- the token fits it, and a part is passed by only if the token fits what follows or cannot start the part.
inductive Opens (kind : Kind) : Todo → Todo → Prop where
  | skip {rest} : Opens kind (.skip :: rest) rest
  | seq {first second rest} : Opens kind (.seq first second :: rest) (first :: second :: rest)
  | choice {label options option rest} (member : option ∈ options) (fits : Fits kind (option :: rest)) :
      Opens kind (.choice label options :: rest) (option :: rest)
  | enter {label body rest} (fits : Fits kind (body :: rest)) :
      Opens kind (.optional label body :: rest) (body :: rest)
  | pass {label body rest} (free : Fits kind rest ∨ (Todo.next (body :: rest)).kinds.contains kind = false) :
      Opens kind (.optional label body :: rest) rest
  | first {entry back body rest} :
      Opens kind (.loop .atLeastOne entry back body :: rest) (body :: .loop .again entry back body :: rest)
  | round {rounds entry back body rest} (repeats : rounds ≠ .atLeastOne)
      (fits : Fits kind (body :: .loop .again entry back body :: rest)) :
      Opens kind (.loop rounds entry back body :: rest) (body :: .loop .again entry back body :: rest)
  | stop {rounds entry back body rest} (repeats : rounds ≠ .atLeastOne)
      (free : Fits kind rest ∨
        (Todo.next (body :: .loop .again entry back body :: rest)).kinds.contains kind = false) :
      Opens kind (.loop rounds entry back body :: rest) rest

theorem sited_loop (sited : Sited rule (.loop rounds entry back body :: rest)) :
    Sited rule (body :: .loop .again entry back body :: rest) := by
  obtain ⟨inside,after⟩ := sited
  rw [Form.spots] at inside
  refine ⟨fun spot member => inside spot (by simp [member]),fun spot member => inside spot ?_,after⟩
  rw [Form.spots] at member
  simp only [mem_cons] at member ⊢
  rcases member with same | same | member
  · exact .inr (.inl same)
  · exact .inr (.inl same)
  · exact .inr (.inr member)

theorem Sited.opened {rule : Rule} {kind : Kind} {before after : Todo} (sited : Sited rule before)
    (opens : Opens kind before after) : Sited rule after := by
  cases opens with
  | skip => exact sited.2
  | seq =>
    obtain ⟨inside,after⟩ := sited
    rw [Form.spots] at inside
    exact ⟨fun spot member => inside spot (by simp [member]),fun spot member => inside spot (by simp [member]),after⟩
  | choice member fits =>
    obtain ⟨inside,after⟩ := sited
    rw [Form.spots] at inside
    exact ⟨fun spot found => inside spot (mem_cons_of_mem _ (Form.mem_allSpots member found)),after⟩
  | enter fits =>
    obtain ⟨inside,after⟩ := sited
    rw [Form.spots] at inside
    exact ⟨fun spot member => inside spot (mem_cons_of_mem _ member),after⟩
  | pass free => exact sited.2
  | first => exact sited_loop sited
  | round repeats fits => exact sited_loop sited
  | stop repeats free => exact sited.2

end Todo

end SolReader
