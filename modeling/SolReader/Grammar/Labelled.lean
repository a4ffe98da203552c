import SolReader.Grammar.Body

namespace SolReader

-- Each rule has its own range of labels, so a label also tells its rule.
abbrev Label := Nat

namespace Label

def span : Nat := 256

def base (rule : Rule) : Label := span * rule.ctorIdx

def final (rule : Rule) : Label := base rule + span - 1

def ruleTable : Array Rule := Rule.all.toArray

def rule (label : Label) : Rule :=
  ruleTable.getD (label / span) .sourceUnit

end Label

-- What is still to do in a rule from some place on.
abbrev Todo := List (Form Label)

def Rule.formTable : Array (Form Label) :=
  (Rule.all.map fun rule => (rule.body.numbered (Label.base rule)).1).toArray

def Rule.form (rule : Rule) : Form Label :=
  formTable.getD rule.ctorIdx .skip

namespace Form

-- Where the parser stands when it is about to do this form; a form without a label does nothing by itself.
def label? : Form Label → Option Label
  | .token label _ | .oneOf label _ | .call label _ _ | .wrap label _ | .choice label _ | .optional label _ =>
    some label
  | .loop .again _ back _ => some back
  | .loop _ entry _ _ => some entry
  | .skip | .seq _ _ => none

mutual

def places (rest : Todo) : Form Label → List Todo
  | .skip => []
  | .seq first second => first.places (second :: rest) ++ second.places rest
  | .choice label options => (.choice label options :: rest) :: allPlaces rest options
  | .optional label body => (.optional label body :: rest) :: body.places rest
  | .loop rounds entry back body =>
    (.loop rounds entry back body :: rest) :: (.loop .again entry back body :: rest) ::
      body.places (.loop .again entry back body :: rest)
  | .token label kind => [.token label kind :: rest]
  | .oneOf label kinds => [.oneOf label kinds :: rest]
  | .call label rule level => [.call label rule level :: rest]
  | .wrap label level => [.wrap label level :: rest]

def allPlaces (rest : Todo) : List (Form Label) → List Todo
  | [] => []
  | form :: forms => form.places rest ++ allPlaces rest forms

end

end Form

def Grammar.places : List Todo :=
  Rule.all.flatMap fun rule => rule.form.places []

def Grammar.tabulate {α : Type} (default : α) (row? : Todo → Option (Label × α)) : Array (Array α) :=
  (Rule.all.map fun rule => (rule.form.places []).foldl
    (fun table todo => match row? todo with
      | some (label,entry) => table.setIfInBounds (label % Label.span) entry
      | none => table)
    (Array.replicate Label.span default)).toArray

def Grammar.entry {α : Type} (table : Array (Array α)) (label : Label) (default : α) : α :=
  (table.getD (label / Label.span) #[]).getD (label % Label.span) default

end SolReader
