import SolReader.Proofs.Grammar.Source
import SolReader.Proofs.Parse.Outcome

namespace SolReader

-- What a source ends with: the end of the text, or a token that was dropped.
def Tree.EndsSource : Tree → Prop
  | .leaf token => token.kind = .eof
  | .error _ => True
  | .node .. => False

namespace Source

variable {form : Form Label}

theorem end_next : (Todo.next [items .many,ending]).kinds.contains .eof = true := by
  decide

theorem starts_checked : ((item :: calls).all fun form =>
    !(Todo.next [form,items .again,ending]).ends &&
      !(Todo.next [form,items .again,ending]).kinds.contains .eof) = true := by
  decide

theorem not_fits_end (member : form ∈ item :: calls) : ¬ Todo.Fits .eof [form,items .again,ending] := by
  have checked := List.all_eq_true.mp starts_checked form member
  simp only [Bool.and_eq_true,Bool.not_eq_true'] at checked
  rintro (ends | contains)
  · exact Bool.false_ne_true (checked.1.symm.trans ends)
  · exact Bool.false_ne_true (checked.2.symm.trans contains)

theorem call_of_mem (member : form ∈ calls) : ∃ label rule, form = .call label rule 0 := by
  rw [calls,List.mem_mapIdx] at member
  obtain ⟨index,_,rfl⟩ := member
  exact ⟨_,_,rfl⟩

theorem tests_checked :
    (Decision.tokenTests .sourceUnit [Todo.reach [item,items .again,ending],Todo.reach [ending]]).isSome = true := by
  decide

theorem again_place : [items .again,ending] ∈ Grammar.places := by
  have spot : [items .again,ending] ∈ Rule.sourceUnit.spots := by simp [Rule.spots,form_eq,items,Form.spots]
  exact Grammar.mem_places spot rfl

theorem tests_isSome : (Decision.get 0).tests.isSome = true := by
  rw [Decision.get_of_place again_place rfl]
  exact tests_checked

end Source

namespace Parse

-- A part that may be passed by and is told by one token never makes a rule give up.
theorem follow_tested {decision : Decision} (tested : decision.tests.isSome = true) (source : List Token) (parse : Parse)
    (label : Label) (first second : Todo) :
    (parse.follow source label decision true [first,second]).frame.todo = first ∨
      (parse.follow source label decision true [first,second]).frame.todo = second := by
  obtain ⟨tests,sets⟩ := Option.isSome_iff_exists.mp tested
  rw [follow,pick]
  simp only [sets,if_true]
  cases tests.findIdx? (·.contains parse.input.current.kind) with
  | none => exact .inr rfl
  | some index =>
    cases index with
    | zero => exact .inl rfl
    | succ index =>
      right
      simp [goto]

end Parse

namespace Source

open Parse

variable {source : List Token} {rest : Todo} {label : Label} {level : Nat}

-- Where a source stands: a definition is begun only before the end of the text, and with nothing left to do the last
-- child is there.
structure Upright (frame : Frame) (kind : Kind) : Prop where
  begun : ∀ form ∈ item :: calls, frame.todo = [form,items .again,ending] → kind ≠ .eof
  closes : frame.todo = [] → ∃ last ∈ frame.built.head?, last.EndsSource

theorem Upright.of_loop {frame : Frame} (todo : frame.todo = [items .again,ending]) (kind : Kind) : Upright frame kind where
  begun := fun form _ same => by simp [todo] at same
  closes := fun done => by simp [todo] at done

theorem Upright.of_done {frame : Frame} (todo : frame.todo = []) (closes : ∃ last ∈ frame.built.head?, last.EndsSource)
    (kind : Kind) : Upright frame kind where
  begun := fun form _ same => by simp [todo] at same
  closes := fun _ => closes

-- The outermost frame is that of a source, and while a definition is read it is in its loop.
structure Ready (parse : Parse) : Prop where
  rooted : Rooted .sourceUnit parse.frame parse.callers
  below : parse.callers ≠ [] → (bottom parse.frame parse.callers).todo = [items .again,ending]
  top : parse.callers = [] → Upright parse.frame parse.input.current.kind

theorem branch_busy (source : List Token) (parse : Parse) (label : Label) :
    (parse.branch source label 0 true [[item,.loop .again 0 1 item,ending],[ending]]).frame.todo ≠ [] := by
  intro done
  rw [branch] at done
  rcases follow_tested tests_isSome source parse label [item,.loop .again 0 1 item,ending] [ending] with round | stop
  · cases round.symm.trans done
  · cases stop.symm.trans done

theorem checkEntry_end {parse : Parse} (todo : parse.frame.todo = [items .many,ending])
    (ended : parse.input.current.kind = .eof) : parse.checkEntry = (parse,true) := by
  have next_eq : parse.next = Todo.next [items .many,ending] := by
    rw [next,todo]
    rfl
  rw [checkEntry]
  simp only [next_eq,ended,end_next,Bool.or_true,Bool.true_or,if_true]

theorem step_atEnd {before : Parse} (stage : Stage before.frame.todo)
    (outermost : before.callers = []) (upright : Upright before.frame before.input.current.kind)
    (ended : before.input.current.kind = .eof) (stepped : before.step source = .more after)
    (done : after.frame.todo = []) : ∃ last ∈ after.frame.built.head?, last.EndsSource := by
  generalize todo : before.frame.todo = left at stage
  rw [step,todo] at stepped
  cases stage with
  | whole =>
    cases stepped
    cases done
  | first =>
    obtain rfl := Step.more.inj stepped
    rw [enter,checkEntry_end todo ended] at done
    dsimp only at done
    exact (branch_busy source before 0 done).elim
  | item => exact absurd ended (upright.begun item (.head _) todo)
  | call member => exact absurd ended (upright.begun _ (.tail _ member) todo)
  | next =>
    obtain rfl := Step.more.inj stepped
    exact (branch_busy source (before.checkRound 1) 1 done).elim
  | last =>
    obtain rfl := Step.more.inj stepped
    have fits : (KindSet.ofList [.eof]).contains before.input.current.kind = true := by simp [ended]
    have taken := consume_alike_shift before.settle rfl
    rw [take,if_pos fits,goto,taken.frame]
    exact ⟨.leaf before.input.current,rfl,ended⟩
  | done =>
    rw [leave,outermost] at stepped
    cases stepped

theorem built_dropped (count : Nat) (parse : Parse) :
    ∃ last ∈ (parse.dropped (count + 1)).frame.built.head?, last.EndsSource := by
  induction count generalizing parse with
  | zero => exact ⟨.error parse.input.current,rfl,trivial⟩
  | succ count ih => exact ih parse.drop

theorem Stage.takes (stage : Stage (form :: rest)) {kinds : KindSet}
    (takes : form.Takes kinds) : rest = [] ∧ kinds = .ofList [.eof] := by
  cases stage with
  | whole => cases takes
  | first => cases takes
  | item => cases takes
  | call member =>
    obtain ⟨_,_,rfl⟩ := call_of_mem member
    cases takes
  | next => cases takes
  | last =>
    cases takes
    exact ⟨rfl,rfl⟩

theorem Stage.after_call (stage : Stage (.call label rule level :: rest)) : rest = [items .again,ending] := by
  generalize same : Form.call label rule level :: rest = todo at stage
  cases stage with
  | call => exact (List.cons.inj same).2
  | _ => cases same

theorem Stage.not_wrap : ¬ Stage (.wrap label level :: rest) := by
  intro stage
  generalize same : Form.wrap label level :: rest = todo at stage
  cases stage with
  | call member =>
    obtain ⟨_,_,rfl⟩ := call_of_mem member
    cases same
  | _ => cases same

theorem Stage.opens (stage : Stage before) (opens : Todo.Opens kind before after) :
    after ≠ [] ∧ ∀ form ∈ Source.item :: calls, after = [form,items .again,ending] → kind ≠ .eof := by
  cases stage with
  | whole =>
    cases opens
    exact ⟨by simp,fun form _ same => by simp [items,ending] at same⟩
  | first =>
    cases opens with
    | round _ fits => exact ⟨by simp,fun _ _ _ ended => not_fits_end (.head _) (ended ▸ fits)⟩
    | stop => exact ⟨by simp,fun _ _ same => by simp at same⟩
  | item =>
    cases opens with
    | choice member fits => exact ⟨by simp,fun _ _ _ ended => not_fits_end (.tail _ member) (ended ▸ fits)⟩
  | call member =>
    obtain ⟨_,_,rfl⟩ := call_of_mem member
    cases opens
  | next =>
    cases opens with
    | round _ fits => exact ⟨by simp,fun _ _ _ ended => not_fits_end (.head _) (ended ▸ fits)⟩
    | stop => exact ⟨by simp,fun _ _ same => by simp at same⟩
  | last => cases opens
  | done => cases opens

theorem Ready.of_top {before after : Parse} (ready : Ready before) (rooted : Rooted .sourceUnit after.frame after.callers)
    (callers : after.callers = before.callers)
    (top : before.callers = [] → Upright after.frame after.input.current.kind) : Ready after where
  rooted := rooted
  below := by
    intro inner
    rw [callers] at inner ⊢
    have below := ready.below inner
    cases outer : before.callers with
    | nil => exact absurd outer inner
    | cons caller callers => rwa [outer] at below
  top := fun outermost => top (callers ▸ outermost)

theorem Ready.step {before after : Parse} (placed : Placed before) (ready : Ready before)
    (stepped : before.step source = .more after) (effect : Effect before after) : Ready after := by
  have rooted := effect.rooted placed ready.rooted
  have stage (outermost : before.callers = []) : Stage before.frame.todo := by
    have root := ready.rooted
    rw [outermost] at root
    exact stage_of_sited (root.1 ▸ placed.top)
  cases effect with
  | @left caller callers _ below alike =>
    have loop := ready.below (by simp [below])
    rw [below] at loop
    refine ⟨rooted,fun inner => ?_,fun outermost => ?_⟩
    · rw [alike.frame,alike.callers]
      cases callers with
      | nil => exact absurd alike.callers inner
      | cons outer callers => exact loop
    · cases alike.callers.symm.trans outermost
      exact .of_loop ((congrArg Frame.todo alike.frame).trans loop) _
  | opened opens alike =>
    have todo : after.frame.todo = _ := congrArg Frame.todo alike.frame
    refine ready.of_top rooted (alike.callers.trans (dropped_callers _ before)) fun outermost => ?_
    obtain ⟨busy,begun⟩ := (stage outermost).opens opens
    exact ⟨fun form member same => begun form member (todo.symm.trans same),
      fun done => absurd (todo.symm.trans done) busy⟩
  | called head alike =>
    refine ⟨rooted,fun _ => ?_,fun outermost => ?_⟩
    · rw [alike.frame,alike.callers]
      cases outer : before.callers with
      | nil => exact (head ▸ stage outer).after_call
      | cons caller callers =>
        have below := ready.below (by simp [outer])
        rwa [outer] at below
    · cases alike.callers.symm.trans outermost
  | wrapped head _ alike =>
    exact ready.of_top rooted alike.callers fun outermost => ((head ▸ stage outermost).not_wrap).elim
  | matched head takes fits alike =>
    refine ready.of_top rooted alike.callers fun outermost => ?_
    obtain ⟨rfl,rfl⟩ := (head ▸ stage outermost).takes takes
    rw [alike.frame]
    exact .of_done rfl ⟨.leaf before.input.current,rfl,by simpa [Tree.EndsSource] using fits⟩ _
  | matchedLate head takes fits alike =>
    refine ready.of_top rooted alike.callers fun outermost => ?_
    obtain ⟨rfl,rfl⟩ := (head ▸ stage outermost).takes takes
    rw [alike.frame]
    exact .of_done rfl ⟨.leaf before.input.advance.current,rfl,by simpa [Tree.EndsSource] using fits⟩ _
  | supplied head takes unfit follows alike =>
    have callers : after.callers = before.callers := by
      rcases alike with alike | ⟨_,_,alike⟩
      · exact alike.callers
      · exact alike.callers
    refine ready.of_top rooted callers fun outermost => ?_
    -- The end of the text is never made up: it would have to be the current token.
    obtain ⟨rfl,rfl⟩ := (head ▸ stage outermost).takes takes
    rw [outermost] at follows
    simp [expecting,Next.nothing] at follows
    simp [follows] at unfit
  | @abandoned _ _ _ base count head _ origin givesUp =>
    obtain ⟨callers,input⟩ := origin_same origin
    refine ready.of_top rooted ?_ fun outermost => ?_
    · rw [givesUp.alike.callers]
      exact (dropped_callers _ _).trans callers
    · have done : after.frame.todo = [] := congrArg Frame.todo givesUp.alike.frame
      refine .of_done done ?_ _
      cases count with
      | succ count =>
        rw [givesUp.alike.frame]
        exact built_dropped count base
      | zero =>
        have ended := givesUp.outermost (callers.trans outermost) (input ▸ placed.closed)
        rw [givesUp.alike.input,show ((base.dropped 0).goto []).input = before.input from input,
          Input.atEnd_iff placed.closed] at ended
        exact step_atEnd (stage outermost) outermost (ready.top outermost) ended stepped done

theorem start_ready (input : Input) : Ready (start .sourceUnit input) where
  rooted := ⟨rfl,rfl⟩
  below := fun inner => absurd rfl inner
  top := fun _ => ⟨nofun,nofun⟩

theorem run_endsLast {input : Input}
    (closed : Token.Closed input.ahead) (ran : (start .sourceUnit input).run source fuel = (tree,final,true)) :
    ∃ children last, tree.children = children ++ [last] ∧ last.EndsSource := by
  obtain ⟨_,ready,same,finished⟩ := run_follows Ready source
    (fun placed ready stepped effect => ready.step placed stepped effect) fuel (start_placed closed) (start_ready input) ran
  obtain ⟨done,outermost⟩ := finished rfl
  obtain ⟨last,first,ends⟩ := (ready.top outermost).closes done
  obtain ⟨built,split⟩ := List.head?_eq_some_iff.mp first
  refine ⟨built.reverse,last,?_,ends⟩
  rw [same,collapsed,outermost,List.foldl_nil,Frame.close,Tree.children,split,List.reverse_cons]

end Source

end SolReader
