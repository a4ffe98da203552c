import SolReader.Proofs.Parse.Effect

namespace SolReader

namespace Parse

variable {before after parse final : Parse} {tree : Tree} {complete : Bool}

section Dropped

variable (count : Nat) (parse : Parse)

@[simp] theorem dropped_rule : (parse.dropped count).frame.rule = parse.frame.rule := by
  induction count generalizing parse with
  | zero => rfl
  | succ count ih => exact ih parse.drop

end Dropped

structure Placed (parse : Parse) : Prop where
  noted : parse.Noted
  top : Todo.Sited parse.frame.rule parse.frame.todo
  below : ∀ caller ∈ parse.callers, Todo.Sited caller.rule caller.todo
  closed : Token.Closed parse.input.ahead

theorem start_placed {rule : Rule} {input : Input} (closed : Token.Closed input.ahead) : Placed (start rule input) where
  noted := fun recovering => by cases recovering
  top := Todo.sited_start rule
  below := fun _ member => by cases member
  closed := closed

theorem origin_same (origin : base = before ∨ base = before.wrap) :
    base.callers = before.callers ∧ base.input = before.input := by
  rcases origin with rfl | rfl
  · exact ⟨rfl,rfl⟩
  · exact ⟨rfl,rfl⟩

theorem Effect.noted (effect : Effect before after) (noted : before.Noted) : after.Noted := by
  have calmly (calm : Calm before after) : after.Noted := by
    intro recovering
    rw [calm.diagnostics]
    exact noted (calm.recovering ▸ recovering)
  cases effect with
  | left _ _ _ calm => exact calmly calm
  | opened _ _ marks => exact marks.noted noted
  | called _ _ calm => exact calmly calm
  | wrapped _ _ _ calm => exact calmly calm
  | matched _ _ _ _ settled => exact fun recovering => by simp [settled] at recovering
  | matchedLate _ _ _ _ reported => exact fun _ => reported
  | supplied _ _ _ _ _ _ reported => exact fun _ => reported
  | abandoned _ _ _ givesUp => exact fun _ => givesUp.noted

theorem Effect.closed (effect : Effect before after) (closed : Token.Closed before.input.ahead) :
    Token.Closed after.input.ahead := by
  cases effect with
  | left _ _ alike => exact alike.input ▸ closed
  | opened _ alike => exact alike.input ▸ dropped_closed _ before closed
  | called _ alike => exact alike.input ▸ closed
  | wrapped _ _ alike => exact alike.input ▸ closed
  | matched _ _ _ alike => exact alike.input ▸ Input.closed_advance closed
  | matchedLate _ _ _ alike => exact alike.input ▸ Input.closed_advance (Input.closed_advance closed)
  | supplied _ _ _ _ alike =>
    rcases alike with alike | ⟨_,_,alike⟩
    · exact alike.input ▸ closed
    · exact alike.input ▸ closed
  | abandoned _ _ origin givesUp =>
    have same := (origin_same origin).2
    exact givesUp.alike.input ▸ dropped_closed _ _ (same ▸ closed)

theorem Effect.placed (effect : Effect before after) (placed : Placed before) : Placed after := by
  refine ⟨effect.noted placed.noted,?_,?_,effect.closed placed.closed⟩
  · cases effect with
    | @left caller _ _ below alike =>
      have member : caller ∈ before.callers := by simp [below]
      rw [alike.frame]
      exact placed.below caller member
    | opened opens alike =>
      rw [alike.frame]
      simpa [goto] using placed.top.opened opens
    | called _ alike =>
      rw [alike.frame]
      exact Todo.sited_start _
    | wrapped head _ alike =>
      rw [alike.frame]
      exact (head ▸ placed.top).2
    | matched head _ _ alike =>
      rw [alike.frame]
      exact (head ▸ placed.top).2
    | matchedLate head _ _ alike =>
      rw [alike.frame]
      exact (head ▸ placed.top).2
    | supplied head _ _ _ alike =>
      rcases alike with alike | ⟨_,_,alike⟩
      · rw [alike.frame]
        exact (head ▸ placed.top).2
      · rw [alike.frame]
        exact (head ▸ placed.top).2
    | abandoned _ _ _ givesUp =>
      rw [givesUp.alike.frame]
      exact trivial
  · intro caller member
    cases effect with
    | left _ below alike =>
      rw [alike.callers] at member
      exact placed.below caller (by simp [below,show caller ∈ _ from member])
    | opened _ alike =>
      rw [alike.callers] at member
      exact placed.below caller (by simpa [goto,dropped_callers] using member)
    | called head alike =>
      rw [alike.callers] at member
      rcases List.mem_cons.mp member with rfl | older
      · exact (head ▸ placed.top).2
      · exact placed.below caller older
    | wrapped _ _ alike => exact placed.below caller (alike.callers ▸ member)
    | matched _ _ _ alike => exact placed.below caller (alike.callers ▸ member)
    | matchedLate _ _ _ alike => exact placed.below caller (alike.callers ▸ member)
    | supplied _ _ _ _ alike =>
      rcases alike with alike | ⟨_,_,alike⟩
      · exact placed.below caller (alike.callers ▸ member)
      · exact placed.below caller (alike.callers ▸ member)
    | abandoned _ _ origin givesUp =>
      rw [givesUp.alike.callers] at member
      refine placed.below caller ?_
      rw [← (origin_same origin).1]
      simpa [goto,dropped_callers] using member

-- The tree that comes out when all the frames are closed as they are.
def collapsed (parse : Parse) : Tree :=
  parse.callers.foldl (fun tree caller => (caller.add tree).close parse.previous) (parse.frame.close parse.previous)

theorem run_follows (Keeps : Parse → Prop) (source : List Token)
    (step : ∀ {before after : Parse}, Placed before → Keeps before → before.step source = .more after →
      Effect before after → Keeps after) (fuel : Nat) (placed : Placed parse)
    (kept : Keeps parse) (ran : parse.run source fuel = (tree,final,complete)) :
    Placed final ∧ Keeps final ∧ tree = final.collapsed ∧
      (complete = true → final.frame.todo = [] ∧ final.callers = []) := by
  induction fuel generalizing parse with
  | zero =>
    rw [run] at ran
    cases ran
    exact ⟨placed,kept,rfl,fun impossible => by cases impossible⟩
  | succ fuel ih =>
    rw [run] at ran
    rcases step_effect placed.noted placed.top source with ⟨after,same,effect⟩ | ⟨same,done,outermost⟩
    · rw [same] at ran
      exact ih (effect.placed placed) (step placed kept same effect) ran
    · rw [same] at ran
      cases ran
      exact ⟨placed,kept,by rw [collapsed,outermost]; rfl,fun _ => ⟨done,outermost⟩⟩

theorem run_keeps (Keeps : Parse → Prop)
    (step : ∀ {before after : Parse}, Placed before → Keeps before → Effect before after → Keeps after)
    (source : List Token) (fuel : Nat) (placed : Placed parse)
    (kept : Keeps parse) (ran : parse.run source fuel = (tree,final,complete)) :
    Placed final ∧ Keeps final ∧ tree = final.collapsed ∧
      (complete = true → final.frame.todo = [] ∧ final.callers = []) :=
  run_follows Keeps source (fun placed kept _ effect => step placed kept effect) fuel placed kept ran

theorem run_closed {input : Input} (closed : Token.Closed input.ahead)
    (ran : (start rule input).run source fuel = (tree,final,complete)) : Token.Closed final.input.ahead :=
  (run_keeps (fun _ => True) (fun _ _ _ => trivial) source fuel (start_placed closed) trivial ran).1.closed

end Parse

end SolReader
