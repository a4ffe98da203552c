import SolReader.Proofs.Ast.Known
import SolReader.Proofs.Grammar.Front
import SolReader.Proofs.Grammar.Phrases

namespace SolReader

open List Bool

variable {token : Token} {kind : Kind}

-- The word starts with one of the kinds, or nothing at all is possible.
def Next.Allows (next : Next) : List Kind → Prop
  | [] => next.ends = true
  | kind :: _ => next.kinds.contains kind = true

namespace Next

variable {first second : Next} {word left right : List Kind}

theorem Allows.andThen (one : first.Allows left) (two : second.Allows right) :
    (first.andThen second).Allows (left ++ right) := by
  cases left with
  | cons kind left =>
    rw [List.cons_append,Allows,contains_andThen,one,Bool.true_or]
  | nil =>
    have ends : first.ends = true := one
    cases right with
    | nil =>
      rw [List.append_nil,Allows,ends_andThen,ends,Bool.true_and]
      exact two
    | cons kind right =>
      rw [List.nil_append,Allows,contains_andThen,ends,Bool.true_and,Bool.or_eq_true]
      exact .inr two

theorem Allows.orLeft (allows : first.Allows word) : (first.orElse second).Allows word := by
  cases word with
  | nil => rw [Allows,ends_orElse,show first.ends = true from allows,Bool.true_or]
  | cons kind word => rw [Allows,contains_orElse,show first.kinds.contains kind = true from allows,Bool.true_or]

theorem Allows.orRight (allows : second.Allows word) : (first.orElse second).Allows word := by
  cases word with
  | nil => rw [Allows,ends_orElse,show second.ends = true from allows,Bool.or_true]
  | cons kind word => rw [Allows,contains_orElse,show second.kinds.contains kind = true from allows,Bool.or_true]

end Next

theorem Rule.starts_checked : ∀ rule : Rule, (decide (rule.body.next Rule.next = rule.next)) = true := by
  decide

theorem Rule.body_next (rule : Rule) : rule.body.next Rule.next = rule.next :=
  of_decide_eq_true (starts_checked rule)

namespace Form

variable {form : Form Unit} {word : List Kind}

theorem anyNext_allows {options : List (Form Unit)} (member : form ∈ options)
    (allows : (form.next Rule.next).Allows word) : (anyNext Rule.next options).Allows word := by
  induction options with
  | nil => cases member
  | cons first others ih =>
    rw [anyNext]
    rcases mem_cons.mp member with rfl | later
    · exact allows.orLeft
    · exact (ih later).orRight

-- The induction follows how the word is made; a round that is read first stands for the loop.
theorem Gives.allowed (gives : form.Gives word) : (form.next Rule.next).Allows word := by
  induction gives with
  | token kind => exact by simp [next,Next.Allows]
  | oneOf member => exact member
  | call _ ih =>
    rw [Rule.body_next] at ih
    exact ih
  | wrap => rfl
  | skip => rfl
  | seq _ _ one two =>
    rw [next_seq]
    exact one.andThen two
  | choice member _ ih => exact anyNext_allows member ih
  | absent => exact Next.Allows.orRight rfl
  | present _ ih => exact ih.orLeft
  | @stop rounds _ _ _ repeats =>
    cases rounds with
    | atLeastOne => exact absurd rfl repeats
    | _ => exact Next.Allows.orRight rfl
  | @round rounds entry back body left right _ _ inside others =>
    have front : (body.next Rule.next).Allows (left ++ right) := by
      cases left with
      | cons kind left => exact inside
      | nil =>
        cases right with
        | nil => exact inside
        | cons kind right => rwa [nil_append,Next.Allows,← Todo.contains_orNothing]
    cases rounds with
    | atLeastOne => exact front
    | _ => exact front.orLeft

end Form

theorem Lexicon.first_eof : Lexicon.first? "<EOF>".toList = none := by
  decide

theorem Lexicon.first_nil : Lexicon.first? [] = none := by
  decide

theorem Token.Genuine.kind_eq (genuine : token.Genuine)
    (first : Lexicon.first? token.text.toList = some kind) : token.kind = kind := by
  rcases genuine with found | ⟨_,ended⟩
  · exact Option.some.inj (found.symm.trans first)
  · rw [ended,Lexicon.first_eof] at first
    cases first

theorem Token.Genuine.letters_ne_nil (genuine : token.Genuine) : token.text.toList ≠ [] := by
  intro empty
  rcases genuine with found | ⟨_,ended⟩
  · rw [empty,Lexicon.first_nil] at found
    cases found
  · rw [ended] at empty
    cases empty

theorem Tree.Proper.text_ne {tree : Tree} (proper : tree.Proper rule) (needed : rule.next.ends = false)
    (other : rule.next.kinds.contains kind = false)
    (first : Lexicon.first? [letter] = some kind) : tree.text ≠ String.singleton letter := by
  obtain ⟨level,derives⟩ := proper.derives
  have allowed := (Tree.Phrase.gives tree rule (Tree.Derives.phrase tree rule level derives)).allowed
  rw [Rule.body_next] at allowed
  intro same
  have genuine := proper.genuine
  rw [Tree.text] at same
  cases tokens : tree.tokens with
  | nil =>
    rw [tokens,map_nil,Next.Allows,needed] at allowed
    cases allowed
  | cons token rest =>
    rw [tokens] at allowed genuine same
    have own := genuine token mem_cons_self
    have letters : token.text.toList ++ (String.join (rest.map Token.text)).toList = [letter] := by
      have spelled := congrArg String.toList same
      simpa [String.join_cons] using spelled
    have one : token.text.toList = [letter] := by
      rcases append_eq_singleton_iff.mp letters with ⟨empty,_⟩ | ⟨whole,_⟩
      · exact absurd empty own.letters_ne_nil
      · exact whole
    have isKind : token.kind = kind := own.kind_eq (one ▸ first)
    rw [map_cons,Next.Allows,isKind,other] at allowed
    cases allowed

end SolReader
