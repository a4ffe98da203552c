import SolReader.Proofs.Parse.Run

namespace SolReader

-- The last thing the form takes is the end of the text.
def Form.awaitsEnd {α : Type} : Form α → Bool
  | .token _ kind => kind == .eof
  | .seq _ second => second.awaitsEnd
  | _ => false

namespace Todo

variable {form : Form Label} {rest : Todo}

def awaitsEnd : Todo → Bool
  | [] => false
  | [form] => form.awaitsEnd
  | _ :: form :: rest => awaitsEnd (form :: rest)

theorem awaitsEnd_replace (other : form.awaitsEnd = false)
    (awaits : awaitsEnd (form :: rest) = true) (forms : Todo) : awaitsEnd (forms ++ rest) = true := by
  cases rest with
  | nil => simp [awaitsEnd,other] at awaits
  | cons next rest =>
    rw [awaitsEnd] at awaits
    induction forms with
    | nil => exact awaits
    | cons form forms ih =>
      cases forms with
      | nil => exact awaits
      | cons second forms => exact ih

theorem awaitsEnd_seq (awaits : awaitsEnd (.seq first second :: rest) = true) :
    awaitsEnd (first :: second :: rest) = true := by
  cases rest with
  | nil => exact awaits
  | cons next rest => exact awaits

theorem Opens.awaitsEnd (opens : Opens kind before after)
    (awaits : awaitsEnd before = true) : Todo.awaitsEnd after = true := by
  cases opens with
  | skip => exact awaitsEnd_replace rfl awaits []
  | seq => exact awaitsEnd_seq awaits
  | choice _ _ => exact awaitsEnd_replace rfl awaits [_]
  | enter _ => exact awaitsEnd_replace rfl awaits [_]
  | pass _ => exact awaitsEnd_replace rfl awaits []
  | first => exact awaitsEnd_replace rfl awaits [_,_]
  | round _ _ => exact awaitsEnd_replace rfl awaits [_,_]
  | stop _ _ => exact awaitsEnd_replace rfl awaits []

theorem takes_end {kinds : KindSet} (takes : form.Takes kinds)
    (awaits : awaitsEnd (form :: rest) = true) : awaitsEnd rest = true ∨ (rest = [] ∧ kinds = .ofList [.eof]) := by
  cases rest with
  | nil =>
    cases takes with
    | token label kind =>
      have ended : kind = .eof := by simpa [awaitsEnd,Form.awaitsEnd] using awaits
      exact .inr ⟨rfl,by rw [ended]⟩
    | oneOf label kinds => simp [awaitsEnd,Form.awaitsEnd] at awaits
  | cons next rest => exact .inl awaits

end Todo

namespace Parse

variable {input : Input} {before after : Parse}

def bottom : Frame → List Frame → Frame
  | frame, [] => frame
  | _, caller :: callers => bottom caller callers

-- The outermost frame has still to come to the end of the text, or is there.
def Bound (parse : Parse) : Prop :=
  Todo.awaitsEnd (bottom parse.frame parse.callers).todo = true ∨
    ((bottom parse.frame parse.callers).todo = [] ∧ parse.input.atEnd = true)

theorem atEnd_advance (ended : input.atEnd = true) : input.advance.atEnd = true := by
  rwa [Input.advance_of_atEnd ended]

theorem atEnd_dropped {parse : Parse} (count : Nat) (ended : parse.input.atEnd = true) :
    (parse.dropped count).input.atEnd = true := by
  induction count generalizing parse with
  | zero => exact ended
  | succ count ih => exact ih (atEnd_advance ended)

theorem Bound.of_top (bound : Bound before) (busy : before.frame.todo ≠ [])
    (callers : after.callers = before.callers) (stays : before.input.atEnd = true → after.input.atEnd = true)
    (top : before.callers = [] → Todo.awaitsEnd before.frame.todo = true →
      Todo.awaitsEnd after.frame.todo = true ∨ (after.frame.todo = [] ∧ after.input.atEnd = true)) : Bound after := by
  rw [Bound] at bound ⊢
  rw [callers]
  cases outer : before.callers with
  | nil =>
    rw [outer] at bound
    rcases bound with awaits | ⟨done,_⟩
    · exact top outer awaits
    · exact absurd done busy
  | cons caller callers =>
    rw [outer] at bound
    exact bound.imp_right fun ⟨done,ended⟩ => ⟨done,stays ended⟩

theorem Effect.bound (effect : Effect before after) (placed : Placed before) (bound : Bound before) : Bound after := by
  cases effect with
  | @left caller callers _ below alike =>
    rw [Bound,below] at bound
    rw [Bound,alike.frame,alike.callers,alike.input]
    cases callers with
    | nil => exact bound
    | cons outer callers => exact bound
  | opened opens alike =>
    refine bound.of_top (fun done => ?_) (by rw [alike.callers]; exact dropped_callers _ before) (fun ended => ?_)
      fun _ awaits => .inl ?_
    · rw [done] at opens
      cases opens
    · rw [alike.input]
      exact atEnd_dropped _ ended
    · rw [alike.frame]
      exact opens.awaitsEnd awaits
  | @called label rule level rest head alike =>
    rw [Bound] at bound
    rw [Bound,alike.frame,alike.callers,alike.input]
    change Todo.awaitsEnd (bottom { before.frame with todo := rest } before.callers).todo = true ∨
      ((bottom { before.frame with todo := rest } before.callers).todo = [] ∧ before.input.atEnd = true)
    cases outer : before.callers with
    | nil =>
      rw [outer] at bound
      rcases bound with awaits | ⟨done,_⟩
      · exact .inl (Todo.awaitsEnd_replace rfl (head ▸ awaits) [])
      · cases head.symm.trans done
    | cons caller callers =>
      rw [outer] at bound
      exact bound
  | wrapped head _ alike =>
    refine bound.of_top (by simp [head]) alike.callers (fun ended => alike.input ▸ ended) fun _ awaits => .inl ?_
    rw [alike.frame]
    exact Todo.awaitsEnd_replace rfl (head ▸ awaits) []
  | matched head takes fits alike =>
    refine bound.of_top (by simp [head]) alike.callers (fun ended => ?_) fun _ awaits => ?_
    · exact alike.input ▸ atEnd_advance ended
    · rw [alike.frame,alike.input]
      refine (Todo.takes_end takes (head ▸ awaits)).imp id fun ⟨done,only⟩ => ⟨done,?_⟩
      have ended : before.input.current.kind = .eof := by simpa [only] using fits
      exact atEnd_advance ((Input.atEnd_iff placed.closed).mpr ended)
  | matchedLate head takes fits alike =>
    refine bound.of_top (by simp [head]) alike.callers (fun ended => ?_) fun _ awaits => ?_
    · exact alike.input ▸ atEnd_advance (atEnd_advance ended)
    · rw [alike.frame,alike.input]
      refine (Todo.takes_end takes (head ▸ awaits)).imp id fun ⟨done,only⟩ => ⟨done,?_⟩
      have ended : before.input.advance.current.kind = .eof := by simpa [only] using fits
      exact atEnd_advance ((Input.atEnd_iff (Input.closed_advance placed.closed)).mpr ended)
  | @supplied form kinds rest head takes unfit follows alike =>
    have same : after.frame.todo = rest ∧ after.callers = before.callers ∧ after.input = before.input := by
      rcases alike with alike | ⟨_,_,alike⟩
      · exact ⟨by rw [alike.frame]; rfl,alike.callers,alike.input⟩
      · exact ⟨by rw [alike.frame]; rfl,alike.callers,alike.input⟩
    refine bound.of_top (by simp [head]) same.2.1 (fun ended => same.2.2 ▸ ended) fun outer awaits => ?_
    rw [same.1]
    -- The end of the text is never made up: it would have to be the current token.
    refine (Todo.takes_end takes (head ▸ awaits)).imp id fun ⟨done,only⟩ => ?_
    rw [done,outer] at follows
    simp [expecting,Next.nothing] at follows
    simp [only,follows] at unfit
  | abandoned head _ origin givesUp =>
    obtain ⟨callers,input⟩ := origin_same origin
    have stays : before.input.atEnd = true → after.input.atEnd = true := by
      intro ended
      rw [givesUp.alike.input]
      exact atEnd_dropped _ (input ▸ ended)
    refine bound.of_top (by simp [head]) ?_ stays fun outer _ => .inr ⟨by rw [givesUp.alike.frame]; rfl,?_⟩
    · rw [givesUp.alike.callers]
      exact (dropped_callers _ _).trans callers
    · exact givesUp.outermost (callers.trans outer) (input ▸ placed.closed)

theorem sourceUnit_awaitsEnd : Rule.sourceUnit.form.awaitsEnd = true := by
  decide

theorem run_atEnd (closed : Token.Closed input.ahead)
    (ran : (start .sourceUnit input).run source fuel = (tree,final,true)) : final.input.atEnd = true := by
  have initially : Bound (start .sourceUnit input) := .inl sourceUnit_awaitsEnd
  obtain ⟨_,bound,_,done⟩ := run_keeps Bound (fun placed kept effect => effect.bound placed kept) source fuel
    (start_placed closed) initially ran
  obtain ⟨nothing,outermost⟩ := done rfl
  rw [Bound,outermost] at bound
  rcases bound with awaits | ⟨_,ended⟩
  · rw [bottom,nothing] at awaits
    cases awaits
  · exact ended

end Parse

end SolReader
