import SolReader.Proofs.Parse.Halting

namespace SolReader

-- What a frame is for.
def Frame.title (frame : Frame) : Rule × Nat × Option Label :=
  (frame.rule,frame.level,frame.site)

namespace Parse

variable {before after : Parse}

theorem Alike.title {left : Parse} (alike : Alike left right) : left.frame.title = right.frame.title :=
  congrArg Frame.title alike.frame

theorem dropped_title (count : Nat) (parse : Parse) : (parse.dropped count).frame.title = parse.frame.title := by
  induction count generalizing parse with
  | zero => rfl
  | succ count ih => exact ih parse.drop

theorem origin_title (origin : base = before ∨ base = before.wrap) : base.frame.title = before.frame.title := by
  rcases origin with rfl | rfl
  · rfl
  · rfl

theorem Effect.stack (effect : Effect before after) :
    (after.callers = before.callers ∧ after.frame.title = before.frame.title) ∨
      (∃ todo, after.callers = { before.frame with todo } :: before.callers) ∨
      (before.frame.todo = [] ∧ ∃ caller tree, before.callers = caller :: after.callers ∧ after.frame = caller.add tree) := by
  cases effect with
  | left done below alike =>
    refine .inr (.inr ⟨done,_,_,?_,alike.frame⟩)
    rw [below,alike.callers]
  | @opened count _ _ alike =>
    refine .inl ⟨alike.callers.trans (dropped_callers count before),?_⟩
    rw [alike.frame]
    exact dropped_title count before
  | called _ alike => exact .inr (.inl ⟨_,alike.callers⟩)
  | wrapped _ _ alike => exact .inl ⟨alike.callers,alike.title⟩
  | matched _ _ _ alike => exact .inl ⟨alike.callers,alike.title⟩
  | matchedLate _ _ _ alike => exact .inl ⟨alike.callers,alike.title⟩
  | supplied _ _ _ _ alike =>
    rcases alike with alike | ⟨_,_,alike⟩
    · exact .inl ⟨alike.callers,alike.title⟩
    · exact .inl ⟨alike.callers,alike.title⟩
  | @abandoned _ _ _ base count _ _ origin givesUp =>
    exact .inl ⟨givesUp.alike.callers.trans ((dropped_callers count base).trans (origin_same origin).1),
      givesUp.alike.title.trans ((dropped_title count base).trans (origin_title origin))⟩

theorem Effect.below (effect : Effect before after) {frame : Frame}
    (stack : before.callers = upper ++ frame :: outer) : (∃ upper', after.callers = upper' ++ frame :: outer) ∨
      (after.callers = outer ∧ ∃ tree, after.frame = frame.add tree) := by
  rcases effect.stack with ⟨callers,_⟩ | ⟨todo,callers⟩ | ⟨_,caller,tree,callers,closed⟩
  · exact .inl ⟨upper,callers.trans stack⟩
  · exact .inl ⟨{ before.frame with todo } :: upper,by rw [callers,stack]; rfl⟩
  · rw [stack] at callers
    cases upper with
    | nil =>
      obtain ⟨rfl,below⟩ := List.cons.inj callers
      exact .inr ⟨below.symm,tree,closed⟩
    | cons top upper => exact .inl ⟨upper,(List.cons.inj callers).2.symm⟩

theorem dropped_ahead (count : Nat) (parse : Parse) : (parse.dropped count).input = parse.input ∨
    (parse.dropped count).input.later.length < parse.input.later.length := by
  cases ended : parse.input.atEnd with
  | true => exact .inl (dropped_input count ended)
  | false =>
    cases count with
    | zero => exact .inl rfl
    | succ count => exact .inr (dropped_shorter count ended)

theorem Effect.ahead (effect : Effect before after) :
    after.input = before.input ∨ after.input.later.length < before.input.later.length := by
  cases effect with
  | left _ _ alike => exact .inl alike.input
  | @opened count _ _ alike =>
    rw [alike.input]
    exact dropped_ahead count before
  | called _ alike => exact .inl alike.input
  | wrapped _ _ alike => exact .inl alike.input
  | matched _ _ _ alike =>
    rw [alike.input]
    exact dropped_ahead 1 before
  | matchedLate _ _ _ alike =>
    rw [alike.input]
    exact dropped_ahead 2 before
  | supplied _ _ _ _ alike =>
    rcases alike with alike | ⟨_,_,alike⟩
    · exact .inl alike.input
    · exact .inl alike.input
  | @abandoned _ _ _ base count _ _ origin givesUp =>
    rw [givesUp.alike.input,← (origin_same origin).2]
    exact dropped_ahead count base

theorem Effect.kept (effect : Effect before after) (more : before.input.atEnd = false)
    (same : after.input = before.input) : after.taken = before.taken ∧
      (before.failedAfter = some before.taken → after.failedAfter = some before.taken ∧
        ∀ label ∈ before.failedLabels, label ∈ after.failedLabels) := by
  have keeps (kept : Kept before after) : after.taken = before.taken ∧
      (before.failedAfter = some before.taken → after.failedAfter = some before.taken ∧
        ∀ label ∈ before.failedLabels, label ∈ after.failedLabels) :=
    ⟨kept.taken,fun failed => ⟨kept.failedAfter.trans failed,fun label member => kept.failedLabels ▸ member⟩⟩
  have shorter (count : Nat) (base : Parse) (input : base.input = before.input)
      (moved : after.input = (base.dropped (count + 1)).input) : False := by
    have fewer := dropped_shorter count (input ▸ more)
    rw [← moved,same,input] at fewer
    exact Nat.lt_irrefl _ fewer
  cases effect with
  | left _ _ _ calm => exact keeps calm.toKept
  | @opened count _ _ alike marks =>
    cases count with
    | zero => exact keeps (marks.kept rfl)
    | succ count => exact (shorter count before rfl alike.input).elim
  | called _ _ calm => exact keeps calm.toKept
  | wrapped _ _ _ calm => exact keeps calm.toKept
  | matched _ _ _ alike => exact (shorter 0 before rfl alike.input).elim
  | matchedLate _ _ _ alike => exact (shorter 1 before rfl alike.input).elim
  | supplied _ _ _ _ _ kept => exact keeps kept
  | @abandoned _ _ _ base count _ _ origin givesUp =>
    cases count with
    | zero =>
      obtain ⟨taken,failedAfter,failedLabels,_⟩ := givesUp.once rfl
      have marks : base.taken = before.taken ∧ base.failedLabels = before.failedLabels := by
        rcases origin with rfl | rfl
        · exact ⟨rfl,rfl⟩
        · exact ⟨rfl,rfl⟩
      rw [marks.1] at taken failedAfter
      rw [marks.2] at failedLabels
      exact ⟨taken,fun _ => ⟨failedAfter,fun label member => failedLabels ▸ List.mem_cons_of_mem _ member⟩⟩
    | succ count => exact (shorter count base (origin_same origin).2 givesUp.alike.input).elim

theorem Placed.effect (placed : Placed before) (next : before.step source = .more after) : Effect before after := by
  rcases step_effect placed.noted placed.top source with ⟨_,same,effect⟩ | ⟨ended,_⟩
  · rw [next] at same
    cases same
    exact effect
  · rw [next] at ended
    cases ended

end Parse

end SolReader
