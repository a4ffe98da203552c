import Mathlib.Data.List.Chain
import Mathlib.Data.List.ReduceOption
import SolReader.Proofs.Ast.Commas

namespace SolReader.Commas

variable {α : Type} {isComma : α → Bool} {comma : α} {items : List α} {entries : List (Option α)}

section Joining

-- What is written for entries that each come after a comma.
def continued (comma : α) (entries : List (Option α)) : List α :=
  entries.flatMap fun entry => comma :: entry.toList

-- The entries with commas between them; nothing is written for an empty one.
def joined (comma : α) (entries : List (Option α)) : List α :=
  [comma].intercalate (entries.map Option.toList)

theorem joined_cons (entry : Option α) (entries : List (Option α)) :
    joined comma (entry :: entries) = entry.toList ++ continued comma entries := by
  induction entries generalizing entry with
  | nil => simp [joined,continued]
  | cons next rest ih =>
    have later : joined comma (next :: rest) = next.toList ++ continued comma rest := ih next
    unfold joined at later ⊢
    rw [List.map_cons,List.map_cons,List.intercalate_cons_cons,← List.map_cons,later]
    simp [continued]

theorem continued_cons (entry : Option α) (entries : List (Option α)) :
    continued comma (entry :: entries) = comma :: joined comma (entry :: entries) := by
  rw [joined_cons]
  rfl

-- The list with the one comma in the place of each of its commas.
def unified (isComma : α → Bool) (comma : α) (items : List α) : List α :=
  items.map fun item => if isComma item then comma else item

end Joining

section Cutting

variable {atSlot : Bool}

theorem Cut.length (cut : Cut isComma atSlot items entries) :
    entries.length = items.countP isComma + atSlot.toNat := by
  induction cut with
  | finish => rfl
  | empty => rfl
  | gap separates _ ih => simp [separates,ih]
  | fill plain _ ih => simp [plain,ih]
  | next separates _ ih => simp [separates,ih]

theorem Cut.elements (cut : Cut isComma atSlot items entries) :
    entries.reduceOption = items.filter fun item => !isComma item := by
  induction cut with
  | finish => rfl
  | empty => rfl
  | gap separates _ ih => simp [separates,ih]
  | fill plain _ ih => simp [plain,ih]
  | next separates _ ih => simp [separates,ih]

theorem Cut.exists_cons (cut : Cut isComma true items entries) : ∃ entry rest, entries = entry :: rest := by
  apply List.exists_cons_of_length_pos
  rw [cut.length]
  exact Nat.succ_pos _

-- While a slot is open its entry is still to be written; after an element a comma comes before the next one.
theorem Cut.restores (comma : α) (cut : Cut isComma atSlot items entries) :
    unified isComma comma items = if atSlot then joined comma entries else continued comma entries := by
  induction cut with
  | finish => rfl
  | empty => simp [unified,joined_cons,continued]
  | @gap item rest found separates others ih =>
    obtain ⟨entry,more,rfl⟩ := others.exists_cons
    have kept : unified isComma comma rest = joined comma (entry :: more) := ih
    calc unified isComma comma (item :: rest)
        = comma :: unified isComma comma rest := by simp [unified,separates]
      _ = continued comma (entry :: more) := by rw [kept,continued_cons]
      _ = joined comma (none :: entry :: more) := by simp [joined_cons]
  | @fill item rest found plain _ ih =>
    have kept : unified isComma comma rest = continued comma found := ih
    calc unified isComma comma (item :: rest)
        = item :: unified isComma comma rest := by simp [unified,plain]
      _ = joined comma (some item :: found) := by simp [kept,joined_cons]
  | @next item rest found separates others ih =>
    obtain ⟨entry,more,rfl⟩ := others.exists_cons
    have kept : unified isComma comma rest = joined comma (entry :: more) := ih
    calc unified isComma comma (item :: rest)
        = comma :: unified isComma comma rest := by simp [unified,separates]
      _ = continued comma (entry :: more) := by rw [kept,continued_cons]

theorem Cut.lone_gap (cut : Cut isComma true items [none]) : items = [] := by
  cases cut with
  | empty => rfl
  | gap _ others =>
    obtain ⟨_,_,impossible⟩ := others.exists_cons
    cases impossible

theorem cut_of_slots (sliced : slots isComma items = .ok entries) (filled : items ≠ []) :
    Cut isComma true items entries := by
  cases items with
  | nil => exact absurd rfl filled
  | cons item rest => exact cut_of_slotsFrom sliced

theorem slots_of_slotsFrom (sliced : slotsFrom isComma true items = .ok entries) (filled : items ≠ []) :
    slots isComma items = .ok entries := by
  cases items with
  | nil => exact absurd rfl filled
  | cons item rest => exact sliced

end Cutting

section Rejoining

theorem Cut.slotsFrom_eq (cut : Cut isComma atSlot items entries) : slotsFrom isComma atSlot items = .ok entries := by
  induction cut with
  | finish => rfl
  | empty => rfl
  | gap separates _ ih => simp [slotsFrom,separates,ih,bind,Except.bind,pure,Except.pure]
  | fill plain _ ih => simp [slotsFrom,plain,ih,bind,Except.bind,pure,Except.pure]
  | next separates _ ih => simp [slotsFrom,separates,ih]

-- The entries after a comma and the entries at an open slot are cut in turns.
theorem cut_joined (separates : isComma comma = true) (plain : ∀ item, some item ∈ entries → isComma item = false) :
    Cut isComma false (continued comma entries) entries ∧
      ∀ entry, (∀ item, entry = some item → isComma item = false) →
        Cut isComma true (joined comma (entry :: entries)) (entry :: entries) := by
  induction entries with
  | nil =>
    refine ⟨.finish,?_⟩
    intro entry apart
    cases entry with
    | none => exact .empty
    | some item => exact .fill (apart item rfl) .finish
  | cons next rest ih =>
    obtain ⟨_,opened⟩ := ih fun item member => plain item (List.mem_cons_of_mem _ member)
    have inner : Cut isComma true (joined comma (next :: rest)) (next :: rest) := by
      apply opened
      intro item same
      exact plain item (same ▸ List.mem_cons_self)
    have after : Cut isComma false (continued comma (next :: rest)) (next :: rest) := by
      rw [continued_cons]
      exact .next separates inner
    refine ⟨after,?_⟩
    intro entry apart
    rw [joined_cons]
    cases entry with
    | none =>
      rw [continued_cons]
      exact .gap separates inner
    | some item => exact .fill (apart item rfl) after

theorem joined_eq_nil : joined comma (entry :: entries) = [] ↔ entry = none ∧ entries = [] := by
  rw [joined_cons]
  cases entry <;> cases entries <;> simp [continued]

theorem slots_joined (separates : isComma comma = true) (plain : ∀ item, some item ∈ entries → isComma item = false)
    (nonempty : entries ≠ []) (filled : entries ≠ [none]) :
    joined comma entries ≠ [] ∧ slots isComma (joined comma entries) = .ok entries := by
  obtain ⟨entry,rest,rfl⟩ := List.exists_cons_of_ne_nil nonempty
  have written : joined comma (entry :: rest) ≠ [] := by
    intro nothing
    obtain ⟨rfl,rfl⟩ := joined_eq_nil.mp nothing
    exact filled rfl
  have cut := (cut_joined separates fun item member => plain item (List.mem_cons_of_mem _ member)).2 entry
    fun item same => plain item (same ▸ List.mem_cons_self)
  exact ⟨written,slots_of_slotsFrom cut.slotsFrom_eq written⟩

end Rejoining

section Crowding

variable {atSlot : Bool} {fault : Fault}

-- Of two neighbours one is a comma.
def Spaced (isComma : α → Bool) (items : List α) : Prop :=
  items.IsChain fun left right => isComma left = true ∨ isComma right = true

theorem Cut.spaced (cut : Cut isComma atSlot items entries) :
    Spaced isComma items ∧ (atSlot = false → ∀ first ∈ items.head?, isComma first = true) := by
  induction cut with
  | finish => exact ⟨.nil,by simp⟩
  | empty => exact ⟨.nil,by simp⟩
  | gap separates _ ih => exact ⟨List.isChain_cons.mpr ⟨fun _ _ => .inl separates,ih.1⟩,by simp⟩
  | fill _ _ ih => exact ⟨List.isChain_cons.mpr ⟨fun next at_head => .inr (ih.2 rfl next at_head),ih.1⟩,by simp⟩
  | next separates _ ih =>
    exact ⟨List.isChain_cons.mpr ⟨fun _ _ => .inl separates,ih.1⟩,by simpa using separates⟩

theorem slotted_of_spaced (spaced : Spaced isComma items)
    (comes : atSlot = false → ∀ first ∈ items.head?, isComma first = true) : Slotted isComma atSlot items := by
  induction items generalizing atSlot with
  | nil => exact .done
  | cons item rest ih =>
    obtain ⟨beside,others⟩ := List.isChain_cons.mp spaced
    by_cases separates : isComma item = true
    · exact .comma separates (ih others (by simp))
    · cases atSlot with
      | false => exact absurd (comes rfl item rfl) separates
      | true =>
        apply Slotted.element
        apply ih others
        intro _ next at_head
        exact (beside next at_head).resolve_left separates

theorem slotsFrom_fault (refused : slotsFrom isComma atSlot items = .error fault) : fault = .expectedComma := by
  induction items generalizing atSlot with
  | nil => cases atSlot <;> cases refused
  | cons item rest ih =>
    cases atSlot with
    | false =>
      by_cases separates : isComma item = true
      · exact ih (by simpa [slotsFrom,separates] using refused)
      · simpa [slotsFrom,separates,eq_comm] using refused
    | true =>
      by_cases separates : isComma item = true
      · cases later : slotsFrom isComma true rest with
        | ok found => simp [slotsFrom,separates,later,bind,Except.bind,pure,Except.pure] at refused
        | error other =>
          simp only [slotsFrom,separates,later,bind,Except.bind,if_true,Except.error.injEq] at refused
          exact ih (refused ▸ later)
      · cases later : slotsFrom isComma false rest with
        | ok found => simp [slotsFrom,separates,later,bind,Except.bind,pure,Except.pure] at refused
        | error other =>
          simp only [slotsFrom,separates,later,bind,Except.bind,Bool.false_eq_true,if_false,
            Except.error.injEq] at refused
          exact ih (refused ▸ later)

theorem slots_fault (refused : slots isComma items = .error fault) : fault = .expectedComma := by
  cases items with
  | nil => cases refused
  | cons item rest => exact slotsFrom_fault refused

theorem spaced_of_slots (sliced : slots isComma items = .ok entries) : Spaced isComma items := by
  cases items with
  | nil => exact .nil
  | cons item rest => exact (cut_of_slotsFrom sliced).spaced.1

theorem slots_error_iff : slots isComma items = .error fault ↔ fault = .expectedComma ∧ ¬ Spaced isComma items := by
  constructor
  · intro refused
    refine ⟨slots_fault refused,?_⟩
    intro spaced
    obtain ⟨found,sliced⟩ := (slotted_of_spaced spaced (by simp)).slots_ok
    rw [sliced] at refused
    cases refused
  · rintro ⟨rfl,crowded⟩
    cases sliced : slots isComma items with
    | ok found => exact absurd (spaced_of_slots sliced) crowded
    | error fault => rw [slots_fault sliced]

end Crowding

variable {text : α → String}

theorem crowded_iff : ¬ Spaced (fun item => text item == ",") items ↔
    ∃ before left right after, items = before ++ left :: right :: after ∧ text left ≠ "," ∧ text right ≠ "," := by
  rw [Spaced,List.isChain_iff_forall_rel_of_append_cons_cons]
  simp only [beq_iff_eq]
  push Not
  constructor
  · rintro ⟨left,right,before,after,same,apart⟩
    exact ⟨before,left,right,after,same,apart⟩
  · rintro ⟨before,left,right,after,same,apart⟩
    exact ⟨left,right,before,after,same,apart⟩

-- Cutting at the commas undoes joining with commas. A list is refused exactly if two elements stand side by side in it.
-- Otherwise a list with `n` commas has `n + 1` slots, which hold its elements in order and give the list back when they
-- are joined; commas are only told by their texts, so that is the list with one comma in the place of each. Lists with
-- the same slots therefore differ in their commas at most, and the slots of some list that is not empty are any that
-- hold no comma, except for none at all and one that is empty.
theorem slots_inverse (text : α → String) (comma : α) (named : text comma = ",") :
    let isComma := fun item => text item == ","
    (∀ items fault, slots isComma items = .error fault ↔ fault = .expectedComma ∧
      ∃ before left right after, items = before ++ left :: right :: after ∧ text left ≠ "," ∧ text right ≠ ",") ∧
    slots isComma [] = .ok [] ∧
    (∀ items entries, items ≠ [] → slots isComma items = .ok entries →
      entries.length = items.countP isComma + 1 ∧
      entries.reduceOption = items.filter (fun item => !isComma item) ∧
      joined comma entries = unified isComma comma items) ∧
    (∀ items others entries, items ≠ [] → others ≠ [] → slots isComma items = .ok entries →
      slots isComma others = .ok entries → unified isComma comma items = unified isComma comma others) ∧
    (∀ entries, (∃ items, items ≠ [] ∧ slots isComma items = .ok entries) ↔
      entries ≠ [] ∧ entries ≠ [none] ∧ ∀ item, some item ∈ entries → text item ≠ ",") := by
  intro isComma
  have separates : isComma comma = true := by simp [isComma,named]
  have restored {items : List α} {entries : List (Option α)} (filled : items ≠ [])
      (sliced : slots isComma items = .ok entries) : joined comma entries = unified isComma comma items :=
    ((cut_of_slots sliced filled).restores comma).symm
  refine ⟨?_,rfl,?_,?_,?_⟩
  · intro items fault
    rw [slots_error_iff,crowded_iff]
  · intro items entries filled sliced
    have cut := cut_of_slots sliced filled
    exact ⟨cut.length,cut.elements,restored filled sliced⟩
  · intro items others entries filled otherFilled sliced otherSliced
    rw [← restored filled sliced,← restored otherFilled otherSliced]
  · intro entries
    constructor
    · rintro ⟨items,filled,sliced⟩
      have cut := cut_of_slots sliced filled
      refine ⟨?_,?_,?_⟩
      · rintro rfl
        obtain ⟨_,_,impossible⟩ := cut.exists_cons
        cases impossible
      · rintro rfl
        exact filled cut.lone_gap
      · intro item member
        simpa [isComma] using (cut.mem member).2
    · rintro ⟨nonempty,filled,plain⟩
      have apart : ∀ item, some item ∈ entries → isComma item = false := by
        intro item member
        simpa [isComma] using plain item member
      exact ⟨joined comma entries,slots_joined separates apart nonempty filled⟩

theorem slots_of_texts : id "," = "," ∧
    slots (fun item => id item == ",") [",","a",",",","] = .ok [none,some "a",none,none] ∧
    joined "," [none,some "a",none,none] = [",","a",",",","] ∧
    slots (fun item => id item == ",") [",","a","b"] = .error .expectedComma := by
  obtain ⟨refused,_,restored,_,_⟩ := slots_inverse id "," rfl
  have whole := restored [",","a",",",","] [none,some "a",none,none] (by simp) rfl
  have crowded := (refused [",","a","b"] .expectedComma).mpr ⟨rfl,[","],"a","b",[],rfl,by decide,by decide⟩
  exact ⟨rfl,rfl,whole.2.2,crowded⟩

end SolReader.Commas
