import SolReader.Ast.Build

namespace SolReader

open List

-- The faults of asking something missing, or a whole list, for a part.
def Fault.isMissing : Fault → Bool
  | .noPart _ _ => true
  | _ => false

def Hinges {α : Type} (condition : Prop) : Except Fault α → Prop
  | .ok _ => condition
  | .error fault => fault.isMissing = true ∧ ¬ condition

namespace Hinges

variable {α β : Type} {condition other : Prop} {outcome : Except Fault α} {next : α → Except Fault β}

theorem result (hinges : Hinges condition outcome) (holds : condition) : ∃ value, outcome = .ok value := by
  cases outcome with
  | ok value => exact ⟨value,rfl⟩
  | error fault => exact absurd holds hinges.2

theorem fault (hinges : Hinges condition outcome) (fails : ¬ condition) :
    ∃ fault, outcome = .error fault ∧ fault.isMissing = true := by
  cases outcome with
  | ok value => exact absurd hinges fails
  | error fault => exact ⟨fault,rfl,hinges.1⟩

theorem fails_iff (hinges : Hinges condition outcome) : (∃ fault, outcome = .error fault) ↔ ¬ condition := by
  constructor
  · rintro ⟨fault,rfl⟩
    exact hinges.2
  · intro fails
    obtain ⟨fault,failed,_⟩ := hinges.fault fails
    exact ⟨fault,failed⟩

theorem missing (hinges : Hinges condition outcome) {fault : Fault} (failed : outcome = .error fault) :
    fault.isMissing = true := by
  subst failed
  exact hinges.1

theorem congr (hinges : Hinges condition outcome) (same : condition ↔ other) : Hinges other outcome :=
  propext same ▸ hinges

theorem sure (holds : condition) (value : α) : Hinges condition (.ok value : Except Fault α) :=
  holds

theorem bind (first : Hinges condition outcome) (second : ∀ value, outcome = .ok value → Hinges other (next value)) :
    Hinges (condition ∧ other) (outcome >>= next) := by
  cases outcome with
  | error fault => exact ⟨first.1,fun both => first.2 both.1⟩
  | ok value =>
    apply (second value rfl).congr
    exact ⟨fun holds => ⟨first,holds⟩,fun both => both.2⟩

theorem after (first : Hinges True outcome) (second : ∀ value, outcome = .ok value → Hinges other (next value)) :
    Hinges other (outcome >>= next) :=
  (bind first second).congr (by simp)

theorem before (first : Hinges condition outcome) (second : ∀ value, outcome = .ok value → Hinges True (next value)) :
    Hinges condition (outcome >>= next) :=
  (bind first second).congr (by simp)

theorem mapM {items : List α} {each : α → Except Fault β} {holds : α → Prop}
    (members : ∀ item ∈ items, Hinges (holds item) (each item)) :
    Hinges (∀ item ∈ items, holds item) (items.mapM each) := by
  induction items with
  | nil => simp [Hinges,pure,Except.pure]
  | cons item items ih =>
    rw [mapM_cons]
    have first := members item mem_cons_self
    have rest := ih fun item member => members item (mem_cons_of_mem _ member)
    apply (bind first fun value _ => rest.before fun values _ => sure trivial (value :: values)).congr
    exact forall_mem_cons.symm

theorem mapM_sure {items : List α} {each : α → Except Fault β} (members : ∀ item ∈ items, Hinges True (each item)) :
    Hinges True (items.mapM each) :=
  (mapM members).congr (by simp)

end Hinges

-- Every result of the computation has the property.
def Yields {α : Type} (holds : α → Prop) (outcome : Except Fault α) : Prop :=
  ∀ value, outcome = .ok value → holds value

namespace Yields

variable {α β : Type} {holds : α → Prop} {after : β → Prop} {outcome : Except Fault α}

theorem ok (good : holds value) : Yields holds (.ok value : Except Fault α) := by
  rintro _ ⟨⟩
  exact good

theorem error : Yields holds (.error fault : Except Fault α) := nofun

theorem any : Yields (fun _ => True) outcome := fun _ _ => trivial

theorem bind {next : α → Except Fault β} (first : Yields holds outcome)
    (second : ∀ value, holds value → Yields after (next value)) : Yields after (outcome >>= next) := by
  cases outcome with
  | error fault => exact error
  | ok value => exact second value (first value rfl)

theorem chain {next : α → Except Fault β} (second : ∀ value, outcome = .ok value → Yields after (next value)) :
    Yields after (outcome >>= next) := by
  cases outcome with
  | error fault => exact error
  | ok value => exact second value rfl

theorem imp {weaker : α → Prop} (yields : Yields holds outcome) (weaken : ∀ value, holds value → weaker value) :
    Yields weaker outcome :=
  fun value result => weaken value (yields value result)

theorem and {other : α → Prop} (yields : Yields holds outcome) (also : Yields other outcome) :
    Yields (fun value => holds value ∧ other value) outcome :=
  fun value result => ⟨yields value result,also value result⟩

theorem mapM {items : List α} {each : α → Except Fault β} (members : ∀ item ∈ items, Yields after (each item)) :
    Yields (fun values => ∀ value ∈ values, after value) (items.mapM each) := by
  induction items with
  | nil => exact ok (forall_mem_nil _)
  | cons item items ih =>
    obtain ⟨first,others⟩ := forall_mem_cons.mp members
    rw [mapM_cons]
    exact first.bind fun _ head => (ih others).bind fun _ tail => ok (forall_mem_cons.mpr ⟨head,tail⟩)

end Yields

namespace Phrase

variable {phrase : Phrase}

theorem count_eq (filled : phrase.parts ≠ []) : phrase.count = .ok phrase.parts.length := by
  simp [count,filled]

theorem expression_counted : phrase.count = .ok number → phrase.expression = match number with
      | 1 => Part.meaningAt phrase 0 | 2 => phrase.ofTwo | 3 => phrase.ofThree | 4 => phrase.ofFour
      | 5 => phrase.ofFive | _ => Part.listOf phrase.parts := by
  intro counted
  rw [expression,counted]
  rfl

-- The node of a case in assembly, when its value is known.
def caseNode (phrase : Phrase) (value : Value) : Meaning := do
  let block ← Part.meaningOf (phrase.first? .assemblyBlock)
  match value with
  | .null => phrase.node "AssemblyCase" [("block",block),("default",.bool true)]
  | value => phrase.node "AssemblyCase" [("block",block),("value",value)]

theorem child?_eq (filled : phrase.parts ≠ []) (index : Nat) : phrase.child? index = .ok phrase.parts[index]? := by
  rw [child?,count_eq filled]
  rfl

end Phrase

namespace Part

variable {phrase : Phrase} {index : Nat} {parts : List Part} {holds : Part → Prop}

theorem textOf_hinges {part? : Option Part} (present : part?.isSome = true) : Hinges True (textOf part?) := by
  cases part? with
  | none => cases present
  | some part => trivial

theorem textAt_hinges (within : index < phrase.parts.length) : Hinges True (textAt phrase index) := by
  have filled : phrase.parts ≠ [] := ne_nil_of_length_pos (by omega)
  rw [textAt,Phrase.child?_eq filled]
  exact textOf_hinges (by simp [within])

theorem meaningAt_eq (filled : phrase.parts ≠ []) (index : Nat) :
    meaningAt phrase index = meaningOf phrase.parts[index]? := by
  rw [meaningAt,Phrase.child?_eq filled]
  rfl

theorem textAt_eq {part : Part} (found : phrase.parts[index]? = some part) : textAt phrase index = .ok part.text := by
  have filled : phrase.parts ≠ [] := fun absent => by simp [absent] at found
  rw [textAt,Phrase.child?_eq filled,found]
  rfl

theorem meanings_hinges
    (each : ∀ part ∈ parts, Hinges (holds part) part.meaning) : Hinges (∀ part ∈ parts, holds part) (meanings parts) :=
  .mapM each

theorem listOf_hinges
    (each : ∀ part ∈ parts, Hinges (holds part) part.meaning) : Hinges (∀ part ∈ parts, holds part) (listOf parts) :=
  (meanings_hinges each).before fun values _ => .sure trivial (Value.list values)

end Part

end SolReader
