import SolReader.Proofs.Grammar.Effort
import SolReader.Proofs.Parse.Run

namespace SolReader

namespace Parse

def labelCount : Nat := Label.span * Rule.all.length

-- The labels at which no rule was given up since the last token.
def unfailed (parse : Parse) : Nat :=
  if parse.failedAfter = some parse.taken
  then ((List.range labelCount).filter fun label => !parse.failedLabels.contains label).length
  else labelCount + 1

-- How many phases are still possible; at the end of the text there is just one.
def phase (parse : Parse) : Nat :=
  if parse.input.atEnd then 0 else parse.input.later.length * (labelCount + 2) + parse.unfailed

theorem unfailed_le (parse : Parse) : parse.unfailed ≤ labelCount + 1 := by
  rw [unfailed]
  split
  · have most := List.length_filter_le (fun label => !parse.failedLabels.contains label) (List.range labelCount)
    rw [List.length_range] at most
    omega
  · exact Nat.le_refl _

theorem Kept.unfailed_eq (kept : Kept before after) : after.unfailed = before.unfailed := by
  rw [unfailed,unfailed,kept.taken,kept.failedAfter,kept.failedLabels]

theorem GivesUp.unfailed_lt {label : Label} {before after : Parse} (givesUp : GivesUp label before after 0)
    (bound : label < labelCount) : after.unfailed < before.unfailed := by
  obtain ⟨taken,failedAfter,failedLabels,fresh⟩ := givesUp.once rfl
  rw [unfailed,unfailed,failedAfter,failedLabels,taken,if_pos rfl]
  split
  · rename_i again
    have unseen : label ∉ before.failedLabels := fun seen => fresh ⟨again,seen⟩
    -- One label less is left over.
    have both : ((List.range labelCount).filter fun other => !(label :: before.failedLabels).contains other) =
        ((List.range labelCount).filter fun other => !before.failedLabels.contains other).filter
          fun other => other != label := by
      rw [List.filter_filter]
      refine List.filter_congr fun other _ => ?_
      rw [List.contains_cons,Bool.not_or]
      rfl
    rw [both]
    refine List.length_filter_lt_length_iff_exists.mpr ⟨label,?_,by simp⟩
    rw [List.mem_filter]
    exact ⟨List.mem_range.mpr bound,by simpa using unseen⟩
  · have most := List.length_filter_le (fun other => !(label :: before.failedLabels).contains other)
      (List.range labelCount)
    rw [List.length_range] at most
    omega

theorem phase_lt_of_shorter {before after : Parse} (more : before.input.atEnd = false)
    (shorter : after.input.later.length < before.input.later.length) : after.phase < before.phase := by
  have least : (after.input.later.length + 1) * (labelCount + 2) ≤ before.input.later.length * (labelCount + 2) :=
    Nat.mul_le_mul_right _ shorter
  have most := after.unfailed_le
  rw [Nat.add_mul] at least
  rw [phase,phase,more]
  split
  · simp only [Bool.false_eq_true,if_false]
    omega
  · simp only [Bool.false_eq_true,if_false]
    omega

theorem Kept.phase_eq (kept : Kept before after) (input : after.input = before.input) : after.phase = before.phase := by
  rw [phase,phase,kept.unfailed_eq,input]

theorem phase_of_atEnd {parse : Parse} (ended : parse.input.atEnd = true) : parse.phase = 0 := by
  rw [phase,if_pos ended]

section Stack

variable (kind : Kind)

-- The steps left for a stack, as long as no frame holds the token.
@[grind] def stackLabour : Todo → List Frame → Nat
  | todo, [] => todo.effort kind
  | todo, caller :: callers =>
    todo.effort kind + if todo.holds kind then 0 else stackLabour caller.todo callers

-- How high the stack can grow.
@[grind] def stackHeight : Todo → List Frame → Nat
  | todo, [] => todo.effort kind
  | todo, caller :: callers =>
    max (todo.effort kind + callers.length + 1) (if todo.holds kind then 0 else stackHeight caller.todo callers)

end Stack

def labour (parse : Parse) : Nat :=
  stackLabour parse.input.current.kind parse.frame.todo parse.callers

def height (parse : Parse) : Nat :=
  stackHeight parse.input.current.kind parse.frame.todo parse.callers

-- Less to do in the innermost frame, and the token goes on being held.
def Lighter (kind : Kind) (after before : Todo) : Prop :=
  after.effort kind < before.effort kind ∧ (before.holds kind = true → after.holds kind = true)

theorem Lighter.stack (lighter : Lighter kind after before) (callers : List Frame) :
    stackLabour kind after callers < stackLabour kind before callers ∧
      stackHeight kind after callers ≤ stackHeight kind before callers := by
  obtain ⟨less,keeps⟩ := lighter
  cases callers with
  | nil => exact ⟨less,Nat.le_of_lt less⟩
  | cons caller callers =>
    rw [stackLabour,stackLabour,stackHeight,stackHeight]
    cases held : Todo.holds kind before with
    | true =>
      rw [keeps held]
      refine ⟨by simpa using less,?_⟩
      simp only [if_true]
      omega
    | false =>
      simp only [Bool.false_eq_true,if_false]
      cases Todo.holds kind after
      · simp only [Bool.false_eq_true,if_false]
        omega
      · simp only [if_true]
        omega

theorem effort_le_stack (kind : Kind) (todo : Todo) (callers : List Frame) :
    todo.effort kind ≤ stackLabour kind todo callers ∧ todo.effort kind + callers.length ≤ stackHeight kind todo callers := by
  cases callers with
  | nil => exact ⟨Nat.le_refl _,Nat.le_refl _⟩
  | cons caller callers =>
    rw [stackLabour,stackHeight,List.length_cons]
    omega

section Limits

variable {kind : Kind} {rule : Rule} {todo : Todo} {callers : List Frame}

theorem stackLabour_le (top : Todo.Sited rule todo) (below : ∀ caller ∈ callers, Todo.Sited caller.rule caller.todo) :
    stackLabour kind todo callers ≤ limit * (callers.length + 1) := by
  induction callers generalizing rule todo with
  | nil => simpa [stackLabour] using top.effort_le kind
  | cons caller callers ih =>
    have first := top.effort_le kind
    have others := ih (below caller List.mem_cons_self) fun other member => below other (List.mem_cons_of_mem _ member)
    rw [stackLabour,List.length_cons,Nat.mul_succ]
    split <;> omega

theorem stackHeight_le (top : Todo.Sited rule todo) (below : ∀ caller ∈ callers, Todo.Sited caller.rule caller.todo) :
    stackHeight kind todo callers ≤ limit + callers.length := by
  induction callers generalizing rule todo with
  | nil => simpa [stackHeight] using top.effort_le kind
  | cons caller callers ih =>
    have first := top.effort_le kind
    have others := ih (below caller List.mem_cons_self) fun other member => below other (List.mem_cons_of_mem _ member)
    rw [stackHeight,List.length_cons]
    split <;> omega

end Limits

section Moves

variable {kind : Kind} {form : Form Label} {rest : Todo}

theorem lighter_rest (free : form.holds kind rest = false) : Lighter kind rest (form :: rest) := by
  refine ⟨?_,fun held => ?_⟩
  · have positive : 1 ≤ form.steps kind (Rule.cost kind) rest := form.steps_pos kind (Rule.cost kind) rest
    rw [Todo.effort,free]
    simp only [Bool.false_eq_true,if_false]
    omega
  · rwa [Todo.holds,free,Bool.false_or] at held

theorem stackLabour_pass (free : form.holds kind rest = false) (callers : List Frame) :
    stackLabour kind (form :: rest) callers = form.steps kind (Rule.cost kind) rest + stackLabour kind rest callers := by
  have effort : Todo.effort kind (form :: rest) = form.steps kind (Rule.cost kind) rest + Todo.effort kind rest := by
    rw [Todo.effort,free]
    rfl
  cases callers with
  | nil => exact effort
  | cons caller callers =>
    rw [stackLabour,stackLabour,effort,Todo.holds,free,Bool.false_or,Nat.add_assoc]

theorem takes_free {kinds : KindSet} (takes : form.Takes kinds)
    (passed : kinds.contains kind = false ∨ kind = .eof) : form.holds kind rest = false := by
  rcases passed with unfit | rfl
  · cases takes with
    | token label only =>
      rw [Form.holds,Form.shut,KindSet.contains_minus,unfit]
      rfl
    | oneOf label kinds =>
      rw [Form.holds,Form.shut,KindSet.contains_minus,unfit]
      rfl
  · exact Form.holds_eof rest form

theorem lighter_nil (rest : Todo) : Lighter .eof [] (form :: rest) := by
  have passed := lighter_rest (Form.holds_eof rest form)
  have positive := Todo.effort_pos .eof rest
  refine ⟨Nat.lt_of_le_of_lt positive passed.1,fun held => ?_⟩
  rw [Todo.holds_eof] at held
  cases held

end Moves

section Input

variable {parse : Parse}

theorem dropped_input (count : Nat) (ended : parse.input.atEnd = true) : (parse.dropped count).input = parse.input := by
  induction count generalizing parse with
  | zero => rfl
  | succ count ih =>
    have same : parse.drop.input = parse.input := Input.advance_of_atEnd ended
    exact (ih (same ▸ ended)).trans same

theorem dropped_le (count : Nat) : (parse.dropped count).input.later.length ≤ parse.input.later.length := by
  induction count generalizing parse with
  | zero => exact Nat.le_refl _
  | succ count ih => exact Nat.le_trans ih (Input.later_advance_le parse.input)

theorem dropped_shorter (count : Nat) (more : parse.input.atEnd = false) :
    (parse.dropped (count + 1)).input.later.length < parse.input.later.length := by
  have first := Input.later_advance more
  have others : ((parse.drop).dropped count).input.later.length ≤ parse.input.advance.later.length := dropped_le count
  rw [dropped]
  omega

end Input

set_option maxRecDepth 100000 in
theorem labels_checked : (Grammar.places.all fun todo =>
    todo.all fun form => form.label?.all fun label => decide (label < labelCount)) = true := by
  decide

theorem label_lt (sited : Todo.Sited rule (form :: rest)) (named : form.label? = some label) : label < labelCount := by
  have place := Grammar.mem_places sited.mem (Option.isSome_of_eq_some named)
  have checked := List.all_eq_true.mp (List.all_eq_true.mp labels_checked _ place) form List.mem_cons_self
  rw [named] at checked
  exact of_decide_eq_true checked

-- A new phase begins, or less is left to do in the one that goes on.
def Progress (before after : Parse) : Prop :=
  (after.phase < before.phase ∧ after.callers.length = before.callers.length) ∨
    (after.phase ≤ before.phase ∧ after.labour < before.labour ∧ after.height ≤ before.height)

theorem Progress.of_lighter {before after : Parse} (phase : after.phase ≤ before.phase)
    (input : after.input = before.input) (callers : after.callers = before.callers)
    (lighter : Lighter before.input.current.kind after.frame.todo before.frame.todo) : Progress before after := by
  refine .inr ⟨phase,?_⟩
  rw [labour,labour,height,height,input,callers]
  exact lighter.stack before.callers

theorem Progress.at_end {before after : Parse} (ended : before.input.atEnd = true) (input : after.input = before.input)
    (callers : after.callers = before.callers)
    (lighter : Lighter before.input.current.kind after.frame.todo before.frame.todo) : Progress before after := by
  refine .of_lighter ?_ input callers lighter
  rw [phase_of_atEnd ended,phase_of_atEnd (input ▸ ended)]

theorem Progress.shorter {before after : Parse} (more : before.input.atEnd = false)
    (shorter : after.input.later.length < before.input.later.length) (callers : after.callers = before.callers) :
    Progress before after :=
  .inl ⟨phase_lt_of_shorter more shorter,by rw [callers]⟩

-- Entering a rule: the steps of the call cover those of the rule, and what is left of the caller comes after them unless
-- the rule takes the token.
theorem call_stack (kind : Kind) (label : Label) (rule : Rule) (level : Nat) {caller : Frame}
    (left : caller.todo = rest) (callers : List Frame) :
    stackLabour kind [rule.form] (caller :: callers) < stackLabour kind (.call label rule level :: rest) callers ∧
      stackHeight kind [rule.form] (caller :: callers) ≤ stackHeight kind (.call label rule level :: rest) callers := by
  have cost := Todo.effort_form kind rule
  have steps : (Form.call label rule level).steps kind (Rule.cost kind) rest = rule.cost kind + 2 := by rw [Form.steps]
  have least : rule.cost kind + 2 ≤ Todo.effort kind (.call label rule level :: rest) := by
    rw [Todo.effort,steps]
    exact Nat.le_add_right ..
  obtain ⟨labour,height⟩ := effort_le_stack kind (.call label rule level :: rest) callers
  rw [stackLabour,stackHeight,left]
  cases shuts : (Form.call label rule level).holds kind rest with
  | true =>
    have held : Todo.holds kind [rule.form] = true := by
      rw [Form.holds,Form.shut] at shuts
      rw [Todo.holds,Form.holds,Rule.shut_form shuts,Bool.true_or]
    rw [held]
    simp only [if_true]
    omega
  | false =>
    have later := (lighter_rest shuts).stack callers
    have sum : stackLabour kind (.call label rule level :: rest) callers =
        rule.cost kind + 2 + stackLabour kind rest callers := by
      rw [stackLabour_pass shuts,steps]
    split <;> omega

theorem Effect.progress (effect : Effect before after) (placed : Placed before) : Progress before after := by
  have last : before.input.atEnd = true → before.input.current.kind = .eof := (Input.atEnd_iff placed.closed).mp
  cases effect with
  | left done below alike calm =>
    refine .inr ⟨Nat.le_of_eq (calm.toKept.phase_eq alike.input),?_⟩
    rw [labour,labour,height,height,alike.input,alike.frame,alike.callers,done,below,stackLabour,stackHeight]
    exact ⟨Nat.lt_add_of_pos_left Nat.one_pos,Nat.le_max_right ..⟩
  | @opened count todo opens alike marks =>
    have callers : after.callers = before.callers := alike.callers.trans (dropped_callers count before)
    have todo_eq : after.frame.todo = todo := by rw [alike.frame]; rfl
    have lighter (input : after.input = before.input) :
        Lighter before.input.current.kind after.frame.todo before.frame.todo := by
      rw [todo_eq]
      exact (input ▸ opens : Todo.Opens before.input.current.kind _ _).effort_lt placed.top
    cases ended : before.input.atEnd with
    | true =>
      have input : after.input = before.input := alike.input.trans (dropped_input count ended)
      exact .at_end ended input callers (lighter input)
    | false =>
      cases count with
      | zero =>
        have phase := Nat.le_of_eq ((marks.kept rfl).phase_eq alike.input)
        exact .of_lighter phase alike.input callers (lighter alike.input)
      | succ count => exact .shorter ended (alike.input ▸ dropped_shorter count ended) callers
  | called head alike calm =>
    refine .inr ⟨Nat.le_of_eq (calm.toKept.phase_eq alike.input),?_⟩
    rw [labour,labour,height,height,alike.input,alike.frame,alike.callers,head]
    exact call_stack _ _ _ _ rfl _
  | wrapped head _ alike calm =>
    refine .of_lighter (Nat.le_of_eq (calm.toKept.phase_eq alike.input)) alike.input alike.callers ?_
    rw [alike.frame,head]
    refine lighter_rest ?_
    rw [Form.holds,Form.shut]
    exact KindSet.contains_empty _
  | matched head takes fits alike =>
    cases ended : before.input.atEnd with
    | true =>
      refine .at_end ended (alike.input.trans (Input.advance_of_atEnd ended)) alike.callers ?_
      rw [alike.frame,head]
      exact lighter_rest (takes_free takes (.inr (last ended)))
    | false =>
      have shorter := Input.later_advance ended
      exact .shorter ended (alike.input ▸ Nat.lt_of_succ_le (Nat.le_of_eq shorter.symm)) alike.callers
  | matchedLate head takes fits alike =>
    cases ended : before.input.atEnd with
    | true =>
      have same : before.input.advance = before.input := Input.advance_of_atEnd ended
      have input : after.input = before.input := by
        rw [alike.input]
        change before.input.advance.advance = before.input
        rw [same,same]
      refine .at_end ended input alike.callers ?_
      rw [alike.frame,head]
      exact lighter_rest (takes_free takes (.inr (last ended)))
    | false =>
      have first := Input.later_advance ended
      have second := Input.later_advance_le before.input.advance
      have shorter : after.input.later.length < before.input.later.length := by
        rw [alike.input]
        change before.input.advance.advance.later.length < _
        omega
      exact .shorter ended shorter alike.callers
  | @supplied form kinds rest head takes unfit follows alike kept =>
    have same : after.frame.todo = rest ∧ after.callers = before.callers ∧ after.input = before.input := by
      rcases alike with alike | ⟨_,_,alike⟩
      · exact ⟨by rw [alike.frame]; rfl,alike.callers,alike.input⟩
      · exact ⟨by rw [alike.frame]; rfl,alike.callers,alike.input⟩
    refine .of_lighter (Nat.le_of_eq (kept.phase_eq same.2.2)) same.2.2 same.2.1 ?_
    rw [same.1,head]
    exact lighter_rest (takes_free takes (.inl unfit))
  | @abandoned form label rest base count head named origin givesUp =>
    obtain ⟨outer,ahead⟩ := origin_same origin
    have callers : after.callers = before.callers :=
      givesUp.alike.callers.trans ((dropped_callers count base).trans outer)
    have todo_eq : after.frame.todo = [] := by rw [givesUp.alike.frame]; rfl
    cases ended : before.input.atEnd with
    | true =>
      have input : after.input = before.input :=
        givesUp.alike.input.trans ((dropped_input count (ahead ▸ ended)).trans ahead)
      refine .at_end ended input callers ?_
      rw [todo_eq,head,last ended]
      exact lighter_nil rest
    | false =>
      cases count with
      | succ count =>
        have shorter := dropped_shorter count (ahead ▸ ended)
        rw [ahead] at shorter
        exact .shorter ended (givesUp.alike.input ▸ shorter) callers
      | zero =>
        have bound := label_lt (head ▸ placed.top) named
        have less := givesUp.unfailed_lt bound
        have marks : base.unfailed = before.unfailed := by
          rcases origin with rfl | rfl
          · rfl
          · rfl
        have input : after.input = before.input := givesUp.alike.input.trans ahead
        refine .inl ⟨?_,by rw [callers]⟩
        rw [phase,phase,input,ended]
        simp only [Bool.false_eq_true,if_false]
        omega

-- The steps of the phases to come, when the stack is at most so high at the end of this one.
def later (phases height : Nat) : Nat :=
  phases * limit * (height + 1 + phases * limit)

theorem later_succ (phases height : Nat) :
    limit * (height + 1) + later phases (height + limit) ≤ later (phases + 1) height := by
  have sum : height + limit + 1 + phases * limit = height + 1 + (phases + 1) * limit := by
    rw [Nat.succ_mul]
    omega
  rw [later,later,sum]
  calc limit * (height + 1) + phases * limit * (height + 1 + (phases + 1) * limit)
      ≤ limit * (height + 1 + (phases + 1) * limit) + phases * limit * (height + 1 + (phases + 1) * limit) :=
        Nat.add_le_add_right (Nat.mul_le_mul_left _ (Nat.le_add_right ..)) _
    _ = (phases + 1) * limit * (height + 1 + (phases + 1) * limit) := by
        rw [← Nat.add_mul,Nat.succ_mul,Nat.add_comm limit]

theorem labour_pos (parse : Parse) : 1 ≤ parse.labour :=
  Nat.le_trans (Todo.effort_pos ..) (effort_le_stack ..).1

-- Within one phase every step leaves less labour, so the run comes to the next phase or to its end.
theorem run_phase (source : List Token) {height : Nat}
    (next : ∀ {after : Parse} {fuel : Nat}, Placed after → after.phase < phases → after.callers.length ≤ height →
      rest ≤ fuel → (after.run source fuel).2.2 = true)
    {parse : Parse} (placed : Placed parse) (inTime : parse.phase ≤ phases) (notHigher : parse.height ≤ height)
    (enough : parse.labour + rest ≤ fuel) : (parse.run source fuel).2.2 = true := by
  induction fuel generalizing parse with
  | zero =>
    have positive := labour_pos parse
    omega
  | succ fuel ih =>
    have positive := labour_pos parse
    rw [run]
    rcases step_effect placed.noted placed.top source with ⟨after,same,effect⟩ | ⟨same,_,_⟩
    · rw [same]
      have callers : parse.callers.length ≤ height :=
        Nat.le_trans (Nat.le_trans (Nat.le_add_left ..) (effort_le_stack ..).2) notHigher
      rcases effect.progress placed with ⟨sooner,level⟩ | ⟨within,less,lower⟩
      · exact next (effect.placed placed) (Nat.lt_of_lt_of_le sooner inTime) (level ▸ callers) (by omega)
      · exact ih (effect.placed placed) (Nat.le_trans within inTime) (Nat.le_trans lower notHigher) (by omega)
    · rw [same]

theorem run_finishes (source : List Token) (phases : Nat) {parse : Parse} (placed : Placed parse)
    (inTime : parse.phase ≤ phases) {height : Nat} (notHigher : parse.height ≤ height)
    (enough : parse.labour + later phases height ≤ fuel) : (parse.run source fuel).2.2 = true := by
  induction phases generalizing parse height fuel with
  | zero => exact run_phase source (fun _ impossible => by cases impossible) placed inTime notHigher enough
  | succ phases ih =>
    refine run_phase source (fun {after fuel} placed sooner callers left => ?_) placed inTime notHigher enough
    have most : after.labour ≤ limit * (height + 1) :=
      Nat.le_trans (stackLabour_le placed.top placed.below) (Nat.mul_le_mul_left _ (Nat.succ_le_succ callers))
    have highest : after.height ≤ height + limit := by
      have bound : after.height ≤ limit + after.callers.length := stackHeight_le placed.top placed.below
      omega
    have split := later_succ phases height
    exact ih placed (Nat.le_of_lt_succ sooner) highest (by omega)

theorem outcome_complete (source : List Token) (rule : Rule) {input : Input} (closed : Token.Closed input.ahead) :
    (outcome source rule input).2.2 = true := by
  have placed : Placed (start rule input) := start_placed closed
  have inTime : (start rule input).phase ≤ (input.later.length + 1) * (labelCount + 2) := by
    have most := (start rule input).unfailed_le
    rw [phase,Nat.succ_mul]
    change (if input.atEnd = true then 0 else input.later.length * (labelCount + 2) + _) ≤ _
    split <;> omega
  have lowest : (start rule input).height ≤ limit := placed.top.effort_le _
  refine run_finishes source _ placed inTime lowest ?_
  have first : (start rule input).labour ≤ limit := placed.top.effort_le _
  exact Nat.add_le_add_right first _

end Parse

end SolReader
