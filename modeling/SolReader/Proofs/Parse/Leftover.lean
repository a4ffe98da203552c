import SolReader.Proofs.Parse.Clean

namespace SolReader

open List

-- The label under which more may be accepted at the end of a round.
def Todo.back? : Todo → Option Label
  | .loop .again _ back _ :: _ => some back
  | _ => none

theorem Todo.head_of_back {todo : Todo} (named : Todo.back? todo = some back) :
    ∃ entry body rest, todo = .loop .again entry back body :: rest := by
  unfold Todo.back? at named
  split at named
  · cases named
    exact ⟨_,_,_,rfl⟩
  · cases named

theorem Todo.Sited.place_of_back {todo : Todo} (sited : Todo.Sited rule todo) (named : Todo.back? todo = some back) :
    todo ∈ Grammar.places := by
  obtain ⟨_,_,_,rfl⟩ := Todo.head_of_back named
  exact Grammar.mem_places sited.mem rfl

set_option maxRecDepth 100000 in
theorem Grammar.backs_checked : ((Grammar.places.filter fun todo => (Todo.back? todo).isSome).map Todo.back?).Nodup := by
  decide

theorem Grammar.back_unique {one two : Todo} (first : one ∈ Grammar.places) (second : two ∈ Grammar.places)
    (same : Todo.back? one = some back) (also : Todo.back? two = some back) : one = two :=
  inj_on_of_nodup_map Grammar.backs_checked (mem_filter.mpr ⟨first,by simp [same]⟩)
    (mem_filter.mpr ⟨second,by simp [also]⟩) (same.trans also.symm)

namespace Parse

-- What is accepted at the end of a round includes all that can come there, and something has to come.
def Roomy (widened : List (Label × KindSet)) : Prop :=
  ∀ todo ∈ Grammar.places, ∀ back kinds, Todo.back? todo = some back → widened.lookup back = some kinds →
    (Todo.next todo).ends = false ∧
      ∀ kind, (Todo.next todo).kinds.contains kind = true → kinds.contains kind = true

theorem roomy_nil : Roomy [] := fun _ _ _ _ _ found => by cases found

section Widened

variable (parse : Parse)

@[simp] theorem look_widened (distance : Nat) : (parse.look distance).widened = parse.widened := rfl

@[simp] theorem goto_widened (todo : Todo) : (parse.goto todo).widened = parse.widened := rfl

@[simp] theorem consume_widened : parse.consume.widened = parse.widened := by
  cases ended : parse.input.atEnd with
  | true => rw [consume_of_atEnd parse ended]; rfl
  | false => rw [consume_of_more parse ended]; rfl

@[simp] theorem report_widened (place : Place) (complaint : Complaint) :
    (parse.report place complaint).widened = parse.widened := by
  unfold report
  split <;> rfl

@[simp] theorem skipTo_widened (kinds : KindSet) : (parse.skipTo kinds).widened = parse.widened := by
  rw [skipTo]
  generalize parse.input.ahead.takeWhile _ = tokens
  induction tokens generalizing parse with
  | nil => rfl
  | cons token tokens ih => rw [foldl_cons,ih,consume_widened]

@[simp] theorem giveUp_widened (label : Label) : (parse.giveUp label).widened = parse.widened := by
  unfold giveUp
  dsimp only
  split <;> simp

@[simp] theorem fail_widened (source : List Token) (label : Label) (cause : Cause) :
    (parse.fail source label cause).widened = parse.widened := by
  cases cause with
  | mismatched => simp [fail]
  | noOption offending =>
    unfold fail
    dsimp only
    split <;> simp

@[simp] theorem dropOne_widened : parse.dropOne?.1.widened = parse.widened := by
  unfold dropOne?
  dsimp only
  split
  · simp [settle,reportExtraneous]
  · rfl

@[simp] theorem checkEntry_widened : parse.checkEntry.1.widened = parse.widened := by
  unfold checkEntry
  dsimp only
  split
  · rfl
  · exact dropOne_widened parse

@[simp] theorem follow_widened (source : List Token) (label : Label) (decision : Decision) (mayPass : Bool)
    (options : List Todo) : (parse.follow source label decision mayPass options).widened = parse.widened := by
  obtain ⟨looked,same⟩ := pick_looks parse decision mayPass
  unfold follow
  split <;> rename_i picked <;> rw [picked] at same <;> cases same <;> simp

@[simp] theorem enter_widened (source : List Token) (label : Label) (mayPass : Bool) (options : List Todo) :
    (parse.enter source label mayPass options).widened = parse.widened := by
  have entered := checkEntry_widened parse
  unfold enter
  split <;> rename_i same <;> rw [same] at entered <;> simpa [branch] using entered

@[simp] theorem take_widened (source : List Token) (label : Label) (kinds : KindSet) (isSet : Bool) (rest : Todo) :
    (parse.take source label kinds isSet rest).widened = parse.widened := by
  have dropped := dropOne_widened parse
  unfold take
  split
  · simp [settle]
  · split <;> rename_i same <;> rw [same] at dropped
    · simpa using dropped
    · split
      · cases isSet <;> simpa [add] using dropped
      · simpa using dropped

end Widened

section Steps

variable {parse after : Parse} {source : List Token}

-- At the end of a round more is accepted from now on, and that was reported.
structure Gains (parse after : Parse) (back : Label) : Prop where
  named : Todo.back? parse.frame.todo = some back
  grown : ∃ kinds, after.widened = (back,kinds) :: parse.widened ∧
    ∀ kind, parse.next.kinds.contains kind = true → kinds.contains kind = true
  goesOn : parse.next.ends = false
  reported : after.diagnostics ≠ []

theorem fail_reported (parse : Parse) (noted : parse.Noted) (source : List Token) (label : Label) (cause : Cause) :
    (parse.fail source label cause).diagnostics ≠ [] := by
  obtain ⟨_,givesUp⟩ := fail_givesUp noted source label cause
  exact givesUp.noted

theorem follow_reported (noted : parse.diagnostics ≠ []) (source : List Token) (label : Label) (decision : Decision)
    (mayPass : Bool) (options : List Todo) : (parse.follow source label decision mayPass options).diagnostics ≠ [] := by
  obtain ⟨looked,same⟩ := pick_looks parse decision mayPass
  unfold follow
  split <;> rename_i picked <;> rw [picked] at same <;> cases same
  · exact noted
  · exact fail_reported { parse with looked } (fun _ => noted) _ _ _

-- The current token can come here, or nothing is looked at since an error is pending.
def Passes (parse : Parse) : Prop :=
  (parse.recovering || parse.next.kinds.contains parse.input.current.kind || parse.next.ends) = true

theorem Passes.checkEntry (passes : parse.Passes) : parse.checkEntry = (parse,true) := if_pos passes

theorem Passes.checkRound (passes : parse.Passes) (label : Label) : parse.checkRound label = parse := if_pos passes

theorem checkRound_gains (noted : parse.Noted) (named : Todo.back? parse.frame.todo = some back) :
    parse.Passes ∨ Gains parse (parse.checkRound back) back := by
  refine or_iff_not_imp_left.mpr fun fails => ?_
  rw [Passes] at fails
  unfold checkRound
  dsimp only
  rw [if_neg fails]
  simp only [Bool.or_eq_true,not_or,Bool.not_eq_true] at fails
  let kinds := parse.next.kinds ∪ parse.reportExtraneous.resumable
  let warned := { parse.reportExtraneous with widened := (back,kinds) :: parse.reportExtraneous.widened }
  have recovering : warned.recovering = true := parse.report_recovering _ _
  have reported : warned.diagnostics ≠ [] := parse.report_noted _ _ noted
  obtain ⟨_,skips,_⟩ := skipTo_skips recovering kinds
  refine ⟨named,⟨kinds,?_,fun kind known => ?_⟩,fails.2,fun quiet => reported (skips.diagnostics.symm.trans quiet)⟩
  · rw [skipTo_widened]
    exact congrArg _ (parse.report_widened _ _)
  · rw [KindSet.contains_union,known,Bool.true_or]

-- Only the end of a round can change what is accepted there.
theorem step_widened (noted : parse.Noted) (stepped : parse.step source = .more after) :
    after.widened = parse.widened ∨ ∃ back, Gains parse after back := by
  unfold step at stepped
  split at stepped
  · unfold leave at stepped
    dsimp only at stepped
    split at stepped
    · cases stepped
    · cases stepped
      exact .inl rfl
  all_goals cases stepped
  · exact .inl rfl
  · exact .inl rfl
  · exact .inl (take_widened ..)
  · exact .inl (take_widened ..)
  · exact .inl rfl
  · refine .inl ?_
    split
    · rfl
    · simp
  · exact .inl (enter_widened ..)
  · exact .inl (enter_widened ..)
  · exact .inl (enter_widened ..)
  · have entered := checkEntry_widened parse
    refine .inl ?_
    split <;> rename_i same <;> rw [same] at entered
    · exact entered
    · simpa using entered
  · rename_i entry back body rest head
    have named : Todo.back? parse.frame.todo = some back := by rw [head]; rfl
    rcases checkRound_gains noted named with passes | gains
    · exact .inl (by rw [branch,passes.checkRound,follow_widened])
    · refine .inr ⟨back,named,?_,gains.goesOn,follow_reported gains.reported _ _ _ _ _⟩
      rw [branch,follow_widened]
      exact gains.grown

end Steps

section Runs

variable {parse after final : Parse} {source : List Token} {widened : List (Label × KindSet)}

theorem next_unnamed (unnamed : Todo.back? parse.frame.todo = none) : parse.next = parse.frame.todo.next := by
  unfold next
  split
  · rename_i head
    rw [head] at unnamed
    cases unnamed
  · rfl

section Next

variable (named : Todo.back? parse.frame.todo = some back)

include named

theorem next_of_kept (kept : parse.widened.lookup back = some kinds) : parse.next = ⟨kinds,false⟩ := by
  obtain ⟨_,_,_,head⟩ := Todo.head_of_back named
  simp only [next,head,kept]

theorem next_of_unkept (unkept : parse.widened.lookup back = none) : parse.next = parse.frame.todo.next := by
  obtain ⟨_,_,_,head⟩ := Todo.head_of_back named
  simp only [next,head,unkept]

end Next

theorem Gains.roomy (gains : Gains parse after back) (placed : Placed parse) (roomy : Roomy parse.widened) :
    Roomy after.widened := by
  intro todo place label kinds named found
  obtain ⟨more,grown,includes⟩ := gains.grown
  rw [grown,lookup_cons] at found
  split at found
  · rename_i same
    rw [beq_iff_eq] at same
    subst same
    cases found
    cases Grammar.back_unique place (placed.top.place_of_back gains.named) named gains.named
    cases kept : parse.widened.lookup label with
    | none =>
      rw [← next_of_unkept named kept]
      exact ⟨gains.goesOn,includes⟩
    | some before =>
      obtain ⟨goesOn,room⟩ := roomy _ place _ _ named kept
      refine ⟨goesOn,fun kind known => includes kind ?_⟩
      rw [next_of_kept named kept]
      exact room kind known
  · exact roomy todo place label kinds named found

theorem run_roomy (placed : Placed parse) (roomy : Roomy parse.widened)
    (ran : parse.run source fuel = (tree,final,complete)) : Roomy final.widened := by
  refine (run_follows (Roomy ·.widened) source (fun placed roomy stepped _ => ?_) fuel placed roomy ran).2.1
  rcases step_widened placed.noted stepped with same | ⟨_,gains⟩
  · rwa [same]
  · exact gains.roomy placed roomy

end Runs

-- The same parse with other sets at the ends of rounds.
def having (widened : List (Label × KindSet)) (parse : Parse) : Parse := { parse with widened }

section Having

variable {parse after final : Parse} {source : List Token} {widened : List (Label × KindSet)}

theorem consume_having (parse : Parse) : (parse.having widened).consume = parse.consume.having widened := by
  cases ended : parse.input.atEnd with
  | true =>
    rw [consume_of_atEnd parse ended,consume_of_atEnd (parse.having widened) ended]
    rfl
  | false =>
    rw [consume_of_more parse ended,consume_of_more (parse.having widened) ended]
    rfl

theorem pick_having (parse : Parse) (decision : Decision) (mayPass : Bool) :
    (parse.having widened).pick decision mayPass =
      ((parse.pick decision mayPass).1.having widened,(parse.pick decision mayPass).2) := by
  have input : (parse.having widened).input = parse.input := rfl
  cases told : decision.tests with
  | none =>
    simp only [pick,told]
    rfl
  | some tests =>
    simp only [pick,told,input]
    cases tests.findIdx? (·.contains parse.input.current.kind) <;> rfl

theorem follow_having (noted : parse.Noted) {label : Label} {decision : Decision} {mayPass : Bool} {options : List Todo}
    (clean : (parse.follow source label decision mayPass options).diagnostics = []) :
    (parse.having widened).follow source label decision mayPass options =
      (parse.follow source label decision mayPass options).having widened := by
  obtain ⟨looked,same⟩ := pick_looks parse decision mayPass
  unfold follow at clean ⊢
  rw [pick_having]
  cases picked : parse.pick decision mayPass with
  | mk next result =>
    rw [picked] at same clean
    cases same
    cases result with
    | ok option => rfl
    | error cause => exact absurd clean (fail_reported { parse with looked } noted _ _ _)

theorem dropped_reported (noted : parse.Noted) (dropped : parse.dropOne? = (after,true)) : after.diagnostics ≠ [] := by
  have reported := (dropOne_true noted (congrArg Prod.snd dropped)).2.2.1
  rwa [dropped] at reported

theorem passes_of_entered (noted : parse.Noted) (entered : parse.checkEntry = (after,true))
    (clean : after.diagnostics = []) : parse.Passes := by
  by_contra fails
  have dropped : parse.checkEntry = parse.dropOne? := if_neg fails
  exact dropped_reported noted (dropped.symm.trans entered) clean

theorem entry_failed (noted : parse.Noted) (failed : parse.checkEntry = (after,false)) :
    (after.fail source label cause).diagnostics ≠ [] := by
  have same : after = parse.look 1 :=
    (congrArg Prod.fst failed).symm.trans (checkEntry_false (congrArg Prod.snd failed))
  subst same
  exact fail_reported (parse.look 1) noted _ _ _

theorem passes_of_enter (noted : parse.Noted) {label : Label} {mayPass : Bool} {options : List Todo}
    (clean : (parse.enter source label mayPass options).diagnostics = []) : parse.Passes := by
  unfold enter at clean
  split at clean
  · rename_i next entered
    refine passes_of_entered noted entered ?_
    by_contra reported
    exact follow_reported reported _ _ _ _ _ clean
  · rename_i failed
    exact absurd clean (entry_failed noted failed)

theorem passes_having (roomy : Roomy widened) (placed : Placed parse) (quiet : parse.widened = [])
    (passes : parse.Passes) : (parse.having widened).Passes := by
  have same : parse.next = parse.frame.todo.next := by
    cases named : Todo.back? parse.frame.todo with
    | none => exact next_unnamed named
    | some back => exact next_of_unkept named (by rw [quiet]; rfl)
  rw [Passes,same] at passes
  rw [Passes]
  change (parse.recovering || (parse.having widened).next.kinds.contains parse.input.current.kind || _) = true
  have named' : Todo.back? (parse.having widened).frame.todo = Todo.back? parse.frame.todo := rfl
  cases named : Todo.back? parse.frame.todo with
  | none => rwa [next_unnamed (named'.trans named)]
  | some back =>
    cases kept : (parse.having widened).widened.lookup back with
    | none => rwa [next_of_unkept (named'.trans named) kept]
    | some kinds =>
      obtain ⟨goesOn,room⟩ := roomy _ (placed.top.place_of_back named) back kinds named kept
      rw [next_of_kept (named'.trans named) kept]
      simp only [Bool.or_eq_true,goesOn,Bool.false_eq_true,or_false] at passes ⊢
      exact passes.imp_right (room _)

theorem take_having (noted : parse.Noted) {label : Label} {kinds : KindSet} {isSet : Bool} {rest : Todo}
    (clean : (parse.take source label kinds isSet rest).diagnostics = []) :
    (parse.having widened).take source label kinds isSet rest =
      (parse.take source label kinds isSet rest).having widened := by
  by_cases fits : kinds.contains parse.input.current.kind = true
  · have fits' : kinds.contains (parse.having widened).input.current.kind = true := fits
    rw [take,take,if_pos fits,if_pos fits']
    exact congrArg (·.goto rest) (consume_having parse.settle)
  · rw [take,if_neg fits] at clean
    split at clean
    · rename_i next dropped
      exact absurd ((consume_marks next).2.1.symm.trans clean) (dropped_reported noted dropped)
    · rename_i next stays
      have same : next = parse.look 1 :=
        (congrArg Prod.fst stays).symm.trans (dropOne_false (congrArg Prod.snd stays))
      subst same
      split at clean
      · have reported := (parse.look 1).report_noted parse.input.current.place
          (.missing (parse.look 1).expected parse.input.current.text) noted
        cases isSet <;> exact absurd clean reported
      · exact absurd clean (fail_reported (parse.look 1) noted _ _ _)

theorem enter_having (roomy : Roomy widened) (placed : Placed parse) (quiet : parse.widened = []) {label : Label}
    {mayPass : Bool} {options : List Todo} (clean : (parse.enter source label mayPass options).diagnostics = []) :
    (parse.having widened).enter source label mayPass options =
      (parse.enter source label mayPass options).having widened := by
  have passes := passes_of_enter placed.noted clean
  simp only [enter,passes.checkEntry,(passes_having roomy placed quiet passes).checkEntry] at clean ⊢
  exact follow_having placed.noted clean

theorem step_having (roomy : Roomy widened) (placed : Placed parse) (quiet : parse.widened = [])
    (stepped : parse.step source = .more after) (clean : after.diagnostics = []) :
    (parse.having widened).step source = .more (after.having widened) := by
  have same : (parse.having widened).frame.todo = parse.frame.todo := rfl
  match head : parse.frame.todo with
  | [] =>
    have outer : (parse.having widened).callers = parse.callers := rfl
    simp only [step,head,leave,same,outer] at stepped ⊢
    cases below : parse.callers with
    | nil =>
      rw [below] at stepped
      cases stepped
    | cons caller callers =>
      rw [below] at stepped
      cases stepped
      rfl
  | .skip :: rest =>
    simp only [step,head,same] at stepped ⊢
    cases stepped
    rfl
  | .seq first second :: rest =>
    simp only [step,head,same] at stepped ⊢
    cases stepped
    rfl
  | .call label rule level :: rest =>
    simp only [step,head,same] at stepped ⊢
    cases stepped
    rfl
  | .token label kind :: rest | .oneOf label kinds :: rest =>
    simp only [step,head,same] at stepped ⊢
    cases stepped
    exact congrArg _ (take_having placed.noted clean)
  | .wrap label level :: rest =>
    simp only [step,head,same] at stepped ⊢
    cases stepped
    by_cases within : parse.frame.level ≤ level
    · have within' : (parse.having widened).frame.level ≤ level := within
      rw [if_pos within,if_pos within']
      rfl
    · rw [if_neg within] at clean
      exact absurd clean (fail_reported _ (by exact placed.noted) _ _ _)
  | .choice label options :: rest | .optional label body :: rest | .loop .many entry back body :: rest =>
    simp only [step,head,same] at stepped ⊢
    cases stepped
    exact congrArg _ (enter_having roomy placed quiet clean)
  | .loop .atLeastOne entry back body :: rest =>
    simp only [step,head,same] at stepped ⊢
    cases stepped
    have passes : parse.Passes := by
      split at clean
      · rename_i entered
        exact passes_of_entered placed.noted entered clean
      · rename_i failed
        exact absurd clean (entry_failed placed.noted failed)
    simp only [passes.checkEntry,(passes_having roomy placed quiet passes).checkEntry]
    rfl
  | .loop .again entry back body :: rest =>
    simp only [step,head,same] at stepped ⊢
    cases stepped
    have named : Todo.back? parse.frame.todo = some back := by rw [head]; rfl
    have passes : parse.Passes := (checkRound_gains placed.noted named).resolve_right fun gains =>
      follow_reported gains.reported _ _ _ _ _ clean
    rw [passes.checkRound,branch] at clean ⊢
    rw [(passes_having roomy placed quiet passes).checkRound,branch]
    exact congrArg _ (follow_having placed.noted clean)

-- A text that is read without a report is read in the same way whatever sets there are, and it leaves them as they are.
theorem run_having (roomy : Roomy widened) (placed : Placed parse) (quiet : parse.widened = [])
    (ran : parse.run source fuel = (tree,final,complete)) (clean : final.diagnostics = []) :
    (parse.having widened).run source fuel = (tree,final.having widened,complete) := by
  induction fuel generalizing parse with
  | zero =>
    cases ran
    rfl
  | succ fuel ih =>
    rw [run] at ran ⊢
    rcases step_effect placed.noted placed.top source with ⟨after,stepped,effect⟩ | ⟨stepped,done,outermost⟩
    · rw [stepped] at ran
      have silent : after.diagnostics = [] := clean_of_run (effect.placed placed) ran clean
      have kept : after.widened = [] := by
        rcases step_widened placed.noted stepped with same | ⟨_,gains⟩
        · exact same.trans quiet
        · exact absurd silent gains.reported
      rw [step_having roomy placed quiet stepped silent]
      exact ih (effect.placed placed) kept ran
    · rw [stepped] at ran
      cases ran
      have todo : (final.having widened).frame.todo = [] := done
      have callers : (final.having widened).callers = [] := outermost
      rw [step,todo,leave,callers]
      rfl

end Having

end Parse

namespace Reading

open Parse

variable {widened : List (Label × KindSet)} (roomy : Roomy widened)

include roomy

theorem resumed_roomy (rule : Rule) (text : String) : Roomy (resumed widened rule text).widened := by
  have closed := closed_visible text
  rw [resumed]
  cases visible : (tokens text).filter (!·.kind.isHidden) with
  | nil => exact roomy
  | cons current later =>
    rw [visible] at closed
    have placed : Placed (start rule ⟨current,later⟩) := start_placed closed
    have resumes : Placed ((start rule ⟨current,later⟩).having widened) :=
      ⟨placed.noted,placed.top,placed.below,placed.closed⟩
    cases ran : Parse.resumed widened (tokens text) rule ⟨current,later⟩ with
    | mk tree rest =>
      obtain ⟨final,complete⟩ := rest
      dsimp only
      rw [ran]
      exact run_roomy resumes roomy ran

theorem resumed_clean (clean : (ofText rule text).diagnostics = []) :
    resumed widened rule text = { ofText rule text with widened } := by
  have closed := closed_visible text
  rw [ofText,resumed] at clean ⊢
  rw [resumed]
  cases visible : (tokens text).filter (!·.kind.isHidden) with
  | nil => rfl
  | cons current later =>
    rw [visible] at closed clean
    have placed : Placed (start rule ⟨current,later⟩) := start_placed closed
    dsimp only at clean ⊢
    cases ran : Parse.resumed [] (tokens text) rule ⟨current,later⟩ with
    | mk tree rest =>
      obtain ⟨final,complete⟩ := rest
      rw [ran] at clean
      have quiet : final.diagnostics = [] := reverse_eq_nil_iff.mp (append_eq_nil_iff.mp clean).2
      have resumes := run_having roomy placed rfl ran quiet
      exact congrArg (ofOutcome (pieces text)) resumes

end Reading

end SolReader
