import SolReader.Proofs.KindSet
import SolReader.Proofs.Parse.Operation

namespace SolReader

open List

namespace Parse

variable {parse : Parse}

-- A number of tokens was dropped in recovery and nothing else has happened.
structure Skips (before after : Parse) (count : Nat) : Prop where
  alike : Alike after (before.dropped count)
  recovering : after.recovering = true
  diagnostics : after.diagnostics = before.diagnostics
  failedAfter : after.failedAfter = before.failedAfter
  failedLabels : after.failedLabels = before.failedLabels
  unmoved : count = 0 → after = before

theorem Skips.refl (recovering : parse.recovering = true) : Skips parse parse 0 :=
  ⟨.refl parse,recovering,rfl,rfl,rfl,fun _ => rfl⟩

theorem consume_skips (recovering : parse.recovering = true) : Skips parse parse.consume 1 := by
  obtain ⟨stays,quiet,after,labels⟩ := consume_marks parse
  exact ⟨consume_alike_drop parse recovering,stays.trans recovering,quiet,after,labels,fun zero => by cases zero⟩

theorem Skips.trans {first second third : Parse} {one two : Nat} (before : Skips first second one)
    (after : Skips second third two) : Skips first third (one + two) where
  alike := by
    rw [← dropped_add]
    exact after.alike.trans (before.alike.dropped two)
  recovering := after.recovering
  diagnostics := after.diagnostics.trans before.diagnostics
  failedAfter := after.failedAfter.trans before.failedAfter
  failedLabels := after.failedLabels.trans before.failedLabels
  unmoved := fun zero => (after.unmoved (by omega)).trans (before.unmoved (by omega))

theorem foldl_consume_skips (tokens : List Token) (recovering : parse.recovering = true) :
    Skips parse (tokens.foldl (fun parse _ => parse.consume) parse) tokens.length := by
  induction tokens generalizing parse with
  | nil => exact .refl recovering
  | cons token tokens ih =>
    have first := consume_skips recovering
    rw [foldl_cons,length_cons,Nat.add_comm]
    exact first.trans (ih first.recovering)

theorem dropped_stops {test : Token → Bool} (last : ∀ token, token.kind = .eof → test token = false) (parse : Parse)
    (closed : Token.Closed parse.input.ahead) :
    test (parse.dropped (parse.input.ahead.takeWhile test).length).input.current = false := by
  induction size : parse.input.later.length generalizing parse with
  | zero =>
    have ended : parse.input.atEnd = true := List.isEmpty_iff.mpr (length_eq_zero_iff.mp size)
    have stopped : test parse.input.current = false := last _ ((Input.atEnd_iff closed).mp ended)
    rw [Input.ahead,takeWhile_cons_of_neg (Bool.eq_false_iff.mp stopped)]
    exact stopped
  | succ count ih =>
    cases passed : test parse.input.current with
    | false =>
      rw [Input.ahead,takeWhile_cons_of_neg (Bool.eq_false_iff.mp passed)]
      exact passed
    | true =>
      have more : parse.input.atEnd = false := by
        rw [Input.atEnd,isEmpty_eq_false_iff]
        exact fun empty => by simp [empty] at size
      have shorter := Input.later_advance more
      have onward := ih parse.drop (Input.closed_advance closed)
        (show parse.input.advance.later.length = count by omega)
      rw [Input.ahead_advance more,takeWhile_cons_of_pos passed]
      exact onward

theorem skipTo_skips (recovering : parse.recovering = true) (kinds : KindSet) :
    ∃ count, Skips parse (parse.skipTo kinds) count ∧ (Token.Closed parse.input.ahead →
      (parse.skipTo kinds).input.current.kind = .eof ∨
        kinds.contains (parse.skipTo kinds).input.current.kind = true) := by
  let unwanted : Token → Bool := fun token => token.kind != .eof && !kinds.contains token.kind
  have skips : Skips parse (parse.skipTo kinds) (parse.input.ahead.takeWhile unwanted).length :=
    foldl_consume_skips _ recovering
  refine ⟨_,skips,fun closed => ?_⟩
  have stopped : unwanted (parse.skipTo kinds).input.current = false := by
    rw [skips.alike.input]
    exact dropped_stops (fun token ended => by simp [unwanted,ended]) parse closed
  exact Decidable.or_iff_not_imp_left.mpr (by simpa [unwanted] using stopped)

-- The rule of the frame is given up at a label.  As long as no token is dropped, each label comes up once.
structure GivesUp (label : Label) (before after : Parse) (count : Nat) : Prop where
  alike : Alike after ((before.dropped count).goto [])
  noted : after.diagnostics ≠ []
  once : count = 0 → after.taken = before.taken ∧ after.failedAfter = some before.taken ∧
    after.failedLabels = label :: before.failedLabels ∧
      ¬(before.failedAfter = some before.taken ∧ label ∈ before.failedLabels)
  -- With no caller to go on with, the rest of the text is dropped.
  outermost : before.callers = [] → Token.Closed before.input.ahead → after.input.atEnd = true

theorem giveUp_givesUp (recovering : parse.recovering = true) (noted : parse.diagnostics ≠ [])
    (label : Label) : ∃ count, GivesUp label parse (parse.giveUp label) count := by
  -- A token is dropped first if the label has come up since the last one.
  obtain ⟨before,first,same,skips,again⟩ : ∃ before first,
      (if parse.failedAfter = some parse.taken && parse.failedLabels.contains label then parse.consume else parse)
        = before ∧ Skips parse before first ∧
      (first = 0 → ¬(parse.failedAfter = some parse.taken ∧ label ∈ parse.failedLabels)) := by
    split
    · exact ⟨_,1,rfl,consume_skips recovering,fun zero => by cases zero⟩
    · rename_i fresh
      exact ⟨_,0,rfl,.refl recovering,fun _ => by simpa using fresh⟩
  let marked := { before with failedAfter := some before.taken, failedLabels := label :: before.failedLabels }
  obtain ⟨second,skipped,stops⟩ := skipTo_skips (show marked.recovering = true from skips.recovering)
    marked.resumable
  have result : parse.giveUp label = (marked.skipTo marked.resumable).goto [] := by
    rw [giveUp,same]
  have moved : Alike (marked.skipTo marked.resumable) (parse.dropped (first + second)) := by
    rw [← dropped_add]
    have alike : Alike marked (parse.dropped first) := ⟨skips.alike.frame,skips.alike.callers,skips.alike.input⟩
    exact skipped.alike.trans (alike.dropped second)
  rw [result]
  refine ⟨first + second,moved.goto [],?_,fun zero => ?_,fun outer closed => ?_⟩
  · exact fun quiet => noted (skips.diagnostics.symm.trans (skipped.diagnostics.symm.trans quiet))
  · have untouched := skips.unmoved (by omega)
    rw [skipped.unmoved (by omega)]
    subst untouched
    exact ⟨rfl,rfl,rfl,again (by omega)⟩
  · have callers : marked.callers = [] := skips.alike.callers.trans ((dropped_callers first parse).trans outer)
    have ahead : Token.Closed marked.input.ahead := by
      rw [show marked.input = (parse.dropped first).input from skips.alike.input]
      exact dropped_closed first parse closed
    have final : Token.Closed (marked.skipTo marked.resumable).input.ahead := by
      rw [skipped.alike.input]
      exact dropped_closed second marked ahead
    refine (Input.atEnd_iff final).mpr ((stops ahead).resolve_right fun found => ?_)
    rw [resumable,callers] at found
    simp at found

theorem fail_givesUp (noted : parse.Noted) (source : List Token) (label : Label) (cause : Cause) :
    ∃ count, GivesUp label parse (parse.fail source label cause) count := by
  -- What is reported differs by cause; giving up after a report does not depend on it.
  have after (before : Parse) (calm : Noted before ∧ Alike before parse ∧ Kept parse before) (place : Place)
      (complaint : Complaint) : ∃ count, GivesUp label parse ((before.report place complaint).giveUp label) count := by
    obtain ⟨warned,alike,kept⟩ := calm
    obtain ⟨count,alike',noted',once,outermost⟩ := giveUp_givesUp (before.report_recovering place complaint)
      (before.report_noted place complaint warned) label
    have whole := (before.report_alike place complaint).trans alike
    have marks := kept.trans (before.report_kept place complaint)
    refine ⟨count,alike'.trans ((whole.dropped count).goto []),noted',fun zero => ?_,fun outer closed => ?_⟩
    · have result := once zero
      rwa [marks.taken,marks.failedAfter,marks.failedLabels] at result
    · exact outermost (whole.callers.trans outer) (whole.input ▸ closed)
  cases cause with
  | mismatched => exact after parse ⟨noted,.refl parse,.refl parse⟩ _ _
  | noOption offending =>
    rw [fail]
    split
    · exact after (parse.look parse.input.later.length) ⟨noted,⟨rfl,rfl,rfl⟩,⟨rfl,rfl,rfl,rfl⟩⟩ _ _
    · exact after parse ⟨noted,.refl parse,.refl parse⟩ _ _

end Parse

end SolReader
