import SolReader.Proofs.Parse.Ending
import SolReader.Proofs.Parse.Halting
import SolReader.Proofs.Parse.Leaves

namespace SolReader

open List

-- The tokens of a text that the grammar sees, without the end of the text.
def grammarTokens (text : String) : List Token :=
  (tokens text).filter fun token => !token.kind.isHidden && token.kind != .eof

namespace Reading

theorem ofText_ran (rule : Rule) (text : String) : ∃ input tree final,
    input.ahead = (tokens text).filter (!·.kind.isHidden) ∧
    Parse.outcome (tokens text) rule input = (tree,final,true) ∧
    ofText rule text = ofOutcome (pieces text) (tree,final,true) := by
  have closed := closed_visible text
  rw [ofText,resumed]
  cases visible : (tokens text).filter (!·.kind.isHidden) with
  | nil =>
    rw [visible] at closed
    exact closed.elim
  | cons current later =>
    rw [visible] at closed
    have input : Token.Closed (Input.ahead ⟨current,later⟩) := closed
    have complete := Parse.outcome_complete (tokens text) rule input
    cases outcome : Parse.outcome (tokens text) rule ⟨current,later⟩ with
    | mk tree rest =>
      obtain ⟨final,ended⟩ := rest
      rw [outcome] at complete
      cases (complete : ended = true)
      exact ⟨⟨current,later⟩,tree,final,rfl,outcome,congrArg (ofOutcome (pieces text)) outcome⟩

end Reading

set_option maxRecDepth 100000 in
theorem Lexicon.conjured_checked :
    ∀ kind : Kind, ((((Lexicon.pattern kind).derive '<').derive 'm').isNever) = true := by
  decide

theorem Token.Spelled.not_conjured {token : Token} (spelled : token.Spelled) : token.isConjured = false := by
  refine Bool.eq_false_iff.mpr fun conjured => ?_
  obtain ⟨rest,same⟩ := isPrefixOf_iff_prefix.mp conjured
  have never := Pattern.eq_never (Lexicon.conjured_checked token.kind)
  have start : "<missing ".toList ++ rest = '<' :: 'm' :: ("issing ".toList ++ rest) := rfl
  rw [Token.Spelled,← same,start,Pattern.accepts_cons,Pattern.accepts_cons,never,Pattern.accepts_never] at spelled
  cases spelled

theorem filter_isOwn (text : String) :
    ((tokens text).filter (!·.kind.isHidden)).filter Token.isOwn = grammarTokens text := by
  rw [grammarTokens,filter_filter]
  refine filter_congr fun token member => ?_
  rcases genuine_of_mem member with first | ⟨ended,_⟩
  · have spelled : token.Spelled := Lexicon.accepts_of_first first
    simp [Token.isOwn,spelled.not_conjured,Bool.and_comm]
  · simp [Token.isOwn,ended]

namespace Reading

-- For a whole source the leaves are all the tokens; any other rule may stop before the end of the text.
theorem leaves_eq_tokens (text : String) :
    (ofText .sourceUnit text).tree.leaves = grammarTokens text ∧
      ∀ rule, (ofText rule text).tree.leaves <+: grammarTokens text := by
  refine ⟨?_,fun rule => ?_⟩
  · obtain ⟨input,tree,final,ahead,ran,result⟩ := ofText_ran .sourceUnit text
    have closed : Token.Closed input.ahead := ahead ▸ closed_visible text
    have split := Parse.run_leaves closed ran
    -- Only the end of the text is left ahead.
    have nothing : final.input.ahead.filter Token.isOwn = [] := by
      have ended := Parse.run_atEnd closed ran
      have last : final.input.current.kind = .eof := (Input.atEnd_iff (Parse.run_closed closed ran)).mp ended
      rw [Input.ahead,List.isEmpty_iff.mp ended,filter_cons,Token.isOwn_of_eof last]
      rfl
    rw [nothing,append_nil,ahead,filter_isOwn] at split
    rw [result]
    exact split
  · obtain ⟨input,tree,final,ahead,ran,result⟩ := ofText_ran rule text
    have split := Parse.run_leaves (ahead ▸ closed_visible text) ran
    rw [ahead,filter_isOwn] at split
    rw [result,← split]
    exact prefix_append ..

end Reading

end SolReader
