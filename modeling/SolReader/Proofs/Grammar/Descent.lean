import SolReader.Proofs.Grammar.Place

namespace SolReader

open Bool

variable {kind : Kind} {held : KindSet} {entered rest : Todo}

namespace KindSet

def full : KindSet := .ofList Kind.all

@[simp] theorem contains_full (kind : Kind) : full.contains kind = true := by
  simp [full,Kind.mem_all kind]

def minus (left right : KindSet) : KindSet :=
  ⟨left.bits ^^^ (left.bits &&& right.bits)⟩

@[simp] theorem contains_minus (left right : KindSet) (kind : Kind) :
    (left.minus right).contains kind = (left.contains kind && !right.contains kind) := by
  simp only [contains,minus,Nat.testBit_xor,Nat.testBit_and]
  cases left.bits.testBit kind.ctorIdx <;> cases right.bits.testBit kind.ctorIdx <;> rfl

theorem contains_isEmpty {set : KindSet} (absent : set.isEmpty = true) (kind : Kind) : set.contains kind = false := by
  have bits : set.bits = 0 := by simpa [isEmpty] using absent
  rw [contains,bits,Nat.zero_testBit]

theorem contains_of_minus {left : KindSet} (absent : (left.minus right).isEmpty = true)
    (member : left.contains kind = true) : right.contains kind = true := by
  have outside := contains_isEmpty absent kind
  rw [contains_minus,member,Bool.true_and,Bool.not_eq_false'] at outside
  exact outside

end KindSet

-- The kinds that fit the list.
def Todo.fitting (todo : Todo) : KindSet :=
  if (Todo.next todo).ends then .full else (Todo.next todo).kinds

theorem Todo.fits_iff : Todo.Fits kind todo ↔ (Todo.fitting todo).contains kind = true := by
  rw [Todo.Fits,Todo.fitting]
  split
  · rename_i ends
    simp [ends]
  · rename_i more
    simp [more]

-- Of the kinds that `entered` holds, those at which the part is not passed by.
def Todo.kept (held : KindSet) (entered rest : Todo) : KindSet :=
  if (Todo.next rest).ends then ∅ else (held.inter (Todo.next entered).kinds).minus (Todo.next rest).kinds

theorem Todo.held_of_kept (kept : (Todo.kept held entered rest).contains kind = true) : held.contains kind = true := by
  rw [Todo.kept] at kept
  split at kept
  · simp at kept
  · simp only [KindSet.contains_minus,KindSet.contains_inter,and_eq_true] at kept
    exact kept.1.1

theorem Todo.not_kept (free : Todo.Fits kind rest ∨ (Todo.next entered).kinds.contains kind = false) :
    (Todo.kept held entered rest).contains kind = false := by
  rw [Todo.kept]
  split
  · exact KindSet.contains_empty kind
  · rename_i more
    simp only [KindSet.contains_minus,KindSet.contains_inter]
    rcases free with (ends | follows) | absent
    · exact absurd ends more
    · simp [follows]
    · simp [absent]

namespace Form

mutual

def shut (ofRule : Rule → KindSet) (rest : Todo) : Form Label → KindSet
  | .token _ kind => (KindSet.ofList [kind]).minus (.ofList [.eof])
  | .oneOf _ kinds => kinds.minus (.ofList [.eof])
  | .call _ rule _ => ofRule rule
  | .wrap _ _ | .skip => ∅
  | .seq first second => first.shut ofRule (second :: rest) ∪ second.shut ofRule rest
  | .choice _ options => (anyShut ofRule rest options).minus (anyLeak ofRule rest options)
  | .optional _ body => Todo.kept (body.shut ofRule rest) (body :: rest) rest
  | .loop .atLeastOne entry back body => body.shut ofRule (.loop .again entry back body :: rest)
  | .loop _ entry back body =>
    let round := Form.loop .again entry back body :: rest
    Todo.kept (body.shut ofRule round) (body :: round) rest

def anyShut (ofRule : Rule → KindSet) (rest : Todo) : List (Form Label) → KindSet
  | [] => ∅
  | form :: forms => form.shut ofRule rest ∪ anyShut ofRule rest forms

-- The kinds that fit some option without being held by it.
def anyLeak (ofRule : Rule → KindSet) (rest : Todo) : List (Form Label) → KindSet
  | [] => ∅
  | form :: forms => (Todo.fitting (form :: rest)).minus (form.shut ofRule rest) ∪ anyLeak ofRule rest forms

end

end Form

-- The kinds that a rule holds, found by looking some rules deep.
def Rule.shutWithin : (depth : Nat) → Rule → KindSet
  | 0, _ => ∅
  | depth + 1, rule => rule.form.shut (shutWithin depth) []

def Rule.shut (rule : Rule) : KindSet :=
  shutWithin 10 rule

set_option maxRecDepth 100000 in
theorem Rule.shut_checked :
    ∀ rule : Rule, ((rule.shut.minus (rule.form.shut Rule.shut [])).isEmpty) = true := by
  decide

theorem Rule.shut_form {rule : Rule} (held : rule.shut.contains kind = true) :
    (rule.form.shut Rule.shut []).contains kind = true :=
  KindSet.contains_of_minus (Rule.shut_checked rule) held

namespace Form

-- Whether the form holds the kind.
def holds (kind : Kind) (rest : Todo) (form : Form Label) : Bool :=
  (form.shut Rule.shut rest).contains kind

mutual

def steps (kind : Kind) (ofRule : Rule → Nat) (rest : Todo) : Form Label → Nat
  | .call _ rule _ => ofRule rule + 2
  | .seq first second =>
    first.steps kind ofRule (second :: rest)
      + (if first.holds kind (second :: rest) then 0 else second.steps kind ofRule rest) + 1
  | .choice _ options => mostSteps kind ofRule rest options + 1
  | .optional _ body => (if (Todo.fitting (body :: rest)).contains kind then body.steps kind ofRule rest else 0) + 1
  | .loop .atLeastOne entry back body =>
    let round := Form.loop .again entry back body :: rest
    let again := (if (Todo.fitting (body :: round)).contains kind then body.steps kind ofRule round else 0) + 1
    body.steps kind ofRule round + (if body.holds kind round then 0 else again) + 1
  | .loop _ entry back body =>
    let round := Form.loop .again entry back body :: rest
    (if (Todo.fitting (body :: round)).contains kind then body.steps kind ofRule round else 0) + 1
  | _ => 1

def mostSteps (kind : Kind) (ofRule : Rule → Nat) (rest : Todo) : List (Form Label) → Nat
  | [] => 0
  | form :: forms =>
    max (if (Todo.fitting (form :: rest)).contains kind then form.steps kind ofRule rest else 0)
      (mostSteps kind ofRule rest forms)

end

mutual

-- The kinds for which a call of a rule is met that has the kind in its set, before a token is taken.
def deep (ofRule : Rule → KindSet) (rest : Todo) : Form Label → KindSet
  | .call _ rule _ => ofRule rule
  | .seq first second =>
    first.deep ofRule (second :: rest) ∪ (second.deep ofRule rest).minus (first.shut Rule.shut (second :: rest))
  | .choice _ options => anyDeep ofRule rest options
  | .optional _ body => (body.deep ofRule rest).inter (Todo.fitting (body :: rest))
  | .loop .atLeastOne entry back body => body.deep ofRule (.loop .again entry back body :: rest)
  | .loop _ entry back body =>
    let round := Form.loop .again entry back body :: rest
    (body.deep ofRule round).inter (Todo.fitting (body :: round))
  | _ => ∅

def anyDeep (ofRule : Rule → KindSet) (rest : Todo) : List (Form Label) → KindSet
  | [] => ∅
  | form :: forms => (form.deep ofRule rest).inter (Todo.fitting (form :: rest)) ∪ anyDeep ofRule rest forms

end

section Steady

variable {kind : Kind} {ofRule : Rule → KindSet} {one two : Rule → Nat}

mutual

theorem steps_steady (agree : ∀ rule, (ofRule rule).contains kind = false → one rule = two rule) {rest : Todo} :
    (form : Form Label) → (form.deep ofRule rest).contains kind = false →
      form.steps kind one rest = form.steps kind two rest
  | .call label rule level, shallow => by
    rw [deep] at shallow
    rw [steps,steps,agree rule shallow]
  | .seq first second, shallow => by
    rw [deep,KindSet.contains_union,KindSet.contains_minus,or_eq_false_iff] at shallow
    rw [steps,steps,steps_steady agree first shallow.1]
    cases held : first.holds kind (second :: rest) with
    | true => rfl
    | false =>
      have later : (second.deep ofRule rest).contains kind = false := by
        have other := shallow.2
        rw [holds] at held
        rwa [held,Bool.not_false,Bool.and_true] at other
      rw [steps_steady agree second later]
  | .choice label options, shallow => by
    rw [deep] at shallow
    rw [steps,steps,mostSteps_steady agree options shallow]
  | .optional label body, shallow => by
    rw [deep,KindSet.contains_inter] at shallow
    rw [steps,steps]
    cases fits : (Todo.fitting (body :: rest)).contains kind with
    | false => rfl
    | true =>
      rw [fits,Bool.and_true] at shallow
      rw [steps_steady agree body shallow]
  | .loop .atLeastOne entry back body, shallow => by
    rw [deep] at shallow
    rw [steps,steps,steps_steady agree body shallow]
  | .loop .many entry back body, shallow => by
    rw [deep,KindSet.contains_inter] at shallow
    · rw [steps,steps]
      · cases fits : (Todo.fitting (body :: .loop .again entry back body :: rest)).contains kind with
        | false => rfl
        | true =>
          rw [fits,Bool.and_true] at shallow
          simp only [steps_steady agree body shallow]
      all_goals simp
    · simp
  | .loop .again entry back body, shallow => by
    rw [deep,KindSet.contains_inter] at shallow
    · rw [steps,steps]
      · cases fits : (Todo.fitting (body :: .loop .again entry back body :: rest)).contains kind with
        | false => rfl
        | true =>
          rw [fits,Bool.and_true] at shallow
          simp only [steps_steady agree body shallow]
      all_goals simp
    · simp
  | .token _ _, _ => by rw [steps,steps] <;> simp
  | .oneOf _ _, _ => by rw [steps,steps] <;> simp
  | .wrap _ _, _ => by rw [steps,steps] <;> simp
  | .skip, _ => by rw [steps,steps] <;> simp

theorem mostSteps_steady (agree : ∀ rule, (ofRule rule).contains kind = false → one rule = two rule) {rest : Todo} :
    (forms : List (Form Label)) → (anyDeep ofRule rest forms).contains kind = false →
      mostSteps kind one rest forms = mostSteps kind two rest forms
  | [], _ => rfl
  | form :: forms, shallow => by
    rw [anyDeep,KindSet.contains_union,KindSet.contains_inter,or_eq_false_iff] at shallow
    rw [mostSteps,mostSteps,mostSteps_steady agree forms shallow.2]
    cases fits : (Todo.fitting (form :: rest)).contains kind with
    | false => rfl
    | true =>
      have own := shallow.1
      rw [fits,Bool.and_true] at own
      rw [steps_steady agree form own]

end

end Steady

end Form

namespace Rule

-- The kinds for which a chain of so many calls is possible before a token is taken.
def deepWithin : (count : Nat) → Rule → KindSet
  | 0, _ => .full
  | count + 1, rule => rule.form.deep (deepWithin count) []

def costWithin (kind : Kind) : (count : Nat) → Rule → Nat
  | 0, _ => 0
  | count + 1, rule => rule.form.steps kind (costWithin kind count) []

theorem costWithin_steady {kind : Kind} {count : Nat} {rule : Rule}
    (shallow : (deepWithin count rule).contains kind = false) :
    costWithin kind count rule = costWithin kind (count + 1) rule := by
  induction count generalizing rule with
  | zero => simp [deepWithin] at shallow
  | succ count ih => exact Form.steps_steady (fun _ => ih) rule.form shallow

set_option maxRecDepth 100000 in
theorem deepWithin_empty : ∀ rule : Rule, ((deepWithin 10 rule).isEmpty) = true := by
  decide

-- How many steps a rule can take before a token is taken.
def cost (kind : Kind) : Rule → Nat :=
  costWithin kind 10

theorem cost_eq (kind : Kind) (rule : Rule) : rule.cost kind = rule.form.steps kind (cost kind) [] :=
  costWithin_steady (KindSet.contains_isEmpty (deepWithin_empty rule) kind)

end Rule

end SolReader
