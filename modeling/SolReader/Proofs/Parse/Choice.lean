import SolReader.Proofs.Parse.Operation
import SolReader.Proofs.Prediction.Option

namespace SolReader

open List Bool

namespace Decision

variable {rule : Rule} {options : List Reach} {tests : List KindSet}

theorem mem_tokenTests
    (tested : tokenTests rule options = some tests) {index : Nat} {set : KindSet} (found : tests[index]? = some set) :
    ∃ reach, options[index]? = some reach ∧ ∀ kind,
      (set.contains kind = true → reach.ends = true ∨ reach.kinds.contains kind = true) ∧
      (reach.kinds.contains kind = true → set.contains kind = true) := by
  rw [tokenTests] at tested
  generalize kindsBeyond rule = outside at tested
  obtain ⟨beyond,leveled⟩ := outside
  dsimp only at tested
  split at tested
  · cases tested
    rw [List.getElem?_map,Option.map_eq_some_iff] at found
    obtain ⟨reach,listed,rfl⟩ := found
    refine ⟨reach,listed,fun kind => ?_⟩
    split
    · rename_i ends
      exact ⟨fun _ => .inl ends,fun taken => by rw [KindSet.contains_union,taken,Bool.true_or]⟩
    · exact ⟨.inr,id⟩
  · cases tested

theorem length_tokenTests (tested : tokenTests rule options = some tests) : tests.length = options.length := by
  rw [tokenTests] at tested
  generalize kindsBeyond rule = outside at tested
  obtain ⟨beyond,leveled⟩ := outside
  dsimp only at tested
  split at tested
  · cases tested
    exact length_map ..
  · cases tested

end Decision

namespace Todo

theorem fits_of_reach
    (fits : (Todo.reach todo).ends = true ∨ (Todo.reach todo).kinds.contains kind = true) : Fits kind todo := by
  have agrees := Todo.reach_agrees todo
  rwa [agrees.ends,agrees.kinds] at fits

end Todo

namespace Parse

theorem pick_looks (parse : Parse) (decision : Decision) (mayPass : Bool) :
    ∃ looked, (parse.pick decision mayPass).1 = { parse with looked } := by
  unfold pick
  dsimp only
  split
  · split
    · exact ⟨parse.looked,rfl⟩
    · exact ⟨parse.looked,rfl⟩
  · exact ⟨_,rfl⟩

-- The token fits the option, or the part is passed by and the token cannot start it.
def Chosen (kind : Kind) (mayPass : Bool) (options : List Todo) (index : Nat) : Prop :=
  ∃ option, options[index - 1]? = some option ∧
    (Todo.Fits kind option ∨ (mayPass = true ∧ index = 2 ∧
      ∀ first ∈ options.head?, (Todo.next first).kinds.contains kind = false))

theorem pick_fits {parse : Parse} {decision : Decision} {mayPass : Bool} {options : List Todo}
    (between : decision.Between options) (proper : ∀ option ∈ options, (Todo.reach option).Proper)
    (two : mayPass = true → options.length = 2) {index : Nat} (chosen : (parse.pick decision mayPass).2 = .ok index) :
    Chosen parse.input.current.kind mayPass options index := by
  rw [pick] at chosen
  obtain ⟨rule,isRecursive,made⟩ := between
  dsimp only at chosen
  cases tested : decision.tests with
  | none =>
    simp only [tested] at chosen
    split at chosen
    · rename_i option seen
      cases Except.ok.inj chosen
      have all : ∀ reach ∈ options.map Todo.reach, reach.Proper := by
        intro reach member
        obtain ⟨option,listed,rfl⟩ := mem_map.mp member
        exact proper option listed
      rw [made] at seen
      obtain ⟨reach,_,found,fits⟩ := Decision.forecast_fits all seen
      rw [List.getElem?_map,Option.map_eq_some_iff] at found
      obtain ⟨option,listed,rfl⟩ := found
      exact ⟨option,listed,.inl (Todo.fits_of_reach fits)⟩
    · cases chosen
  | some tests =>
    have sets : Decision.tokenTests rule (options.map Todo.reach) = some tests := by rwa [made] at tested
    have length := Decision.length_tokenTests sets
    rw [length_map] at length
    simp only [tested] at chosen
    split at chosen
    · rename_i position first
      obtain ⟨bound,contains,_⟩ := List.findIdx?_eq_some_iff_getElem.mp first
      obtain ⟨reach,found,facts⟩ := Decision.mem_tokenTests sets (List.getElem?_eq_getElem bound)
      rw [List.getElem?_map,Option.map_eq_some_iff] at found
      obtain ⟨option,listed,rfl⟩ := found
      -- With two options the position is the index less one, however it is counted.
      have index_eq : index - 1 = position := by
        have counted := Except.ok.inj chosen
        cases mayPass with
        | false => simp at counted; omega
        | true =>
          have count := two rfl
          simp at counted
          omega
      exact ⟨option,index_eq ▸ listed,.inl (Todo.fits_of_reach ((facts _).1 contains))⟩
    · rename_i lacking
      split at chosen
      · rename_i passes
        cases Except.ok.inj chosen
        match options, two passes with
        | [first,second], _ =>
          refine ⟨second,rfl,.inr ⟨passes,rfl,fun option isFirst => ?_⟩⟩
          cases Option.some.inj isFirst
          have inside : 0 < tests.length := by simp [length]
          obtain ⟨reach,found,facts⟩ := Decision.mem_tokenTests sets (List.getElem?_eq_getElem inside)
          cases Option.some.inj found
          have absent := List.findIdx?_eq_none_iff.mp lacking _ (getElem_mem inside)
          rw [← (Todo.reach_agrees first).kinds]
          exact eq_false_iff.mpr fun starts => absurd ((facts _).2 starts) (eq_false_iff.mp absent)
      · cases chosen

end Parse

end SolReader
