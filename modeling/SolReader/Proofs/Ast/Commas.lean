import SolReader.Proofs.Ast.Known

namespace SolReader

open List

namespace Commas

variable {α : Type} {isComma : α → Bool}

-- What may come next where a slot is open, or after an element.
inductive Slotted (isComma : α → Bool) : Bool → List α → Prop where
  | done {atSlot : Bool} : Slotted isComma atSlot []
  | comma {atSlot : Bool} {item : α} {rest : List α} (separates : isComma item = true)
      (others : Slotted isComma true rest) : Slotted isComma atSlot (item :: rest)
  | element {item : α} {rest : List α} (others : Slotted isComma false rest) : Slotted isComma true (item :: rest)

theorem Slotted.opened {atSlot : Bool} {items : List α} (slotted : Slotted isComma atSlot items) :
    Slotted isComma true items := by
  cases slotted with
  | done => exact .done
  | comma separates others => exact .comma separates others
  | element others => exact .element others

theorem Slotted.slotsFrom_ok (slotted : Slotted isComma atSlot items) :
    ∃ found, slotsFrom isComma atSlot items = .ok found := by
  induction items generalizing atSlot with
  | nil => cases atSlot <;> exact ⟨_,rfl⟩
  | cons item rest ih =>
    cases slotted with
    | comma separates others =>
      obtain ⟨found,cut⟩ := ih others
      cases atSlot <;> simp [slotsFrom,separates,cut,bind,Except.bind,pure,Except.pure]
    | element others =>
      by_cases separates : isComma item = true
      · obtain ⟨found,cut⟩ := ih others.opened
        simp [slotsFrom,separates,cut,bind,Except.bind,pure,Except.pure]
      · obtain ⟨found,cut⟩ := ih others
        simp [slotsFrom,separates,cut,bind,Except.bind,pure,Except.pure]

theorem Slotted.slots_ok (slotted : Slotted isComma true items) : ∃ found, slots isComma items = .ok found := by
  cases items with
  | nil => exact ⟨[],rfl⟩
  | cons item rest => exact slotted.slotsFrom_ok

-- How a list is cut into slots.
inductive Cut (isComma : α → Bool) : Bool → List α → List (Option α) → Prop where
  | finish : Cut isComma false [] []
  | empty : Cut isComma true [] [none]
  | gap {item : α} {rest : List α} {found : List (Option α)} (separates : isComma item = true)
      (others : Cut isComma true rest found) : Cut isComma true (item :: rest) (none :: found)
  | fill {item : α} {rest : List α} {found : List (Option α)} (plain : isComma item = false)
      (others : Cut isComma false rest found) : Cut isComma true (item :: rest) (some item :: found)
  | next {item : α} {rest : List α} {found : List (Option α)} (separates : isComma item = true)
      (others : Cut isComma true rest found) : Cut isComma false (item :: rest) found

theorem cut_of_slotsFrom (sliced : slotsFrom isComma atSlot items = .ok found) : Cut isComma atSlot items found := by
  induction items generalizing atSlot found with
  | nil =>
    cases atSlot with
    | false =>
      cases sliced
      exact .finish
    | true =>
      cases sliced
      exact .empty
  | cons item rest ih =>
    cases atSlot with
    | false =>
      by_cases separates : isComma item = true
      · simp only [slotsFrom,separates,if_true] at sliced
        exact .next separates (ih sliced)
      · simp [slotsFrom,separates] at sliced
    | true =>
      by_cases separates : isComma item = true
      · cases others : slotsFrom isComma true rest with
        | error fault => simp [slotsFrom,separates,others,bind,Except.bind] at sliced
        | ok slots =>
          simp only [slotsFrom,separates,others,bind,Except.bind,pure,Except.pure,if_true,
            Except.ok.injEq] at sliced
          exact sliced ▸ .gap separates (ih others)
      · cases others : slotsFrom isComma false rest with
        | error fault => simp [slotsFrom,separates,others,bind,Except.bind] at sliced
        | ok slots =>
          simp only [slotsFrom,separates,others,bind,Except.bind,pure,Except.pure,Bool.false_eq_true,if_false,
            Except.ok.injEq] at sliced
          exact sliced ▸ .fill (Bool.eq_false_iff.mpr separates) (ih others)

theorem Cut.mem {found : List (Option α)} (cut : Cut isComma atSlot items found)
    (member : some item ∈ found) : item ∈ items ∧ isComma item = false := by
  induction cut with
  | finish => cases member
  | empty => simp at member
  | gap _ _ ih =>
    obtain ⟨inside,plain⟩ := ih (by simpa using member)
    exact ⟨mem_cons_of_mem _ inside,plain⟩
  | fill plain _ ih =>
    rcases mem_cons.mp member with same | later
    · cases same
      exact ⟨mem_cons_self,plain⟩
    · obtain ⟨inside,other⟩ := ih later
      exact ⟨mem_cons_of_mem _ inside,other⟩
  | next _ _ ih =>
    obtain ⟨inside,plain⟩ := ih member
    exact ⟨mem_cons_of_mem _ inside,plain⟩

theorem mem_slots (sliced : slots isComma items = .ok found)
    (member : some item ∈ found) : item ∈ items ∧ isComma item = false := by
  cases items with
  | nil =>
    cases sliced
    cases member
  | cons first rest => exact (cut_of_slotsFrom sliced).mem member

theorem Slotted.map {β : Type} {isOther : β → Bool} {f : α → β}
    (slotted : Slotted isComma atSlot items) (kept : ∀ item ∈ items, isComma item = true → isOther (f item) = true) :
    Slotted isOther atSlot (items.map f) := by
  induction slotted with
  | done => exact .done
  | comma separates _ ih =>
    exact .comma (kept _ mem_cons_self separates) (ih fun item member => kept item (mem_cons_of_mem _ member))
  | element _ ih => exact .element (ih fun item member => kept item (mem_cons_of_mem _ member))

end Commas

section Spelled

open Commas (Slotted)

variable {accepts : Rule → Nat → Tree → Prop} {self : Rule} {level : Nat} {rounds : Rounds} {body : Form Unit}
  {trees : List Tree}

def Tree.isSeparator (tree : Tree) : Bool :=
  tree.member == .token .comma

theorem Form.slotted_after_comma (few : ∀ trees, body.Spells accepts self level trees → trees.length ≤ 1)
    (spells : (Form.loop rounds () () (.seq (.token () .comma) body)).Spells accepts self level trees)
    (atSlot : Bool) : Slotted Tree.isSeparator atSlot trees := by
  revert atSlot
  refine spells.rounds_induction (fun trees => ∀ atSlot, Slotted Tree.isSeparator atSlot trees) (fun _ => .done) ?_
  intro left right one others atSlot
  obtain ⟨_,filled,comma,inside,rfl⟩ := spells_seq.mp one
  obtain ⟨token,same,rfl⟩ := spells_token.mp comma
  have short := few filled inside
  refine .comma (by simp [Tree.isSeparator,Tree.member,same]) ?_
  cases filled with
  | nil => exact others true
  | cons item rest =>
    cases rest with
    | nil => exact .element (others false)
    | cons _ _ => simp at short

theorem Form.slotted_before_comma (few : ∀ trees, body.Spells accepts self level trees → trees.length ≤ 1)
    (spells : (Form.loop rounds () () (.seq body (.token () .comma))).Spells accepts self level trees)
    (ending : Slotted Tree.isSeparator true last) : Slotted Tree.isSeparator true (trees ++ last) := by
  refine spells.rounds_induction (fun trees => Slotted Tree.isSeparator true (trees ++ last)) ending ?_
  intro left right one others
  obtain ⟨filled,_,inside,comma,rfl⟩ := spells_seq.mp one
  obtain ⟨token,same,rfl⟩ := spells_token.mp comma
  have separates : Tree.isSeparator (.leaf token) = true := by simp [Tree.isSeparator,Tree.member,same]
  have short := few filled inside
  cases filled with
  | nil => exact .comma separates others
  | cons item rest =>
    cases rest with
    | nil => exact .element (.comma separates others)
    | cons _ _ => simp at short

end Spelled

theorem Tree.Known.slotted {tree : Tree} (known : tree.Known rule)
    (inside : ∀ item ∈ items, item ∈ tree.children) (slotted : Commas.Slotted Tree.isSeparator true items) :
    Commas.Slotted Phrase.isComma true (items.map (understood false)) := by
  apply slotted.map
  intro item member separates
  rcases known.proper.child (inside item member) with ⟨token,rfl,_⟩ | ⟨other,proper⟩
  · have kind : token.kind = .comma := by simpa [isSeparator,Tree.member] using separates
    have text : token.text = "," := known.proper.leaf_text (inside _ member) (by rw [kind]; rfl)
    simp [Phrase.isComma,Part.text,text]
  · simp [isSeparator,rule?_eq.mp proper.rule_eq] at separates

end SolReader
