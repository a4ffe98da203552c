import SolReader.Proofs.Grammar.Front
import SolReader.Proofs.Parse.Stack

namespace SolReader

-- The work of a frame, apart from what it has found.
def Frame.work (frame : Frame) : (Rule × Nat × Option Label) × Todo :=
  (frame.title,frame.todo)

namespace Parse

variable {parse : Parse} {front suffix : Todo}

-- The same work is to be done with the same tokens.
structure Twin (one two : Parse) : Prop where
  frame : one.frame.work = two.frame.work
  callers : one.callers.map Frame.work = two.callers.map Frame.work
  input : one.input = two.input

namespace Twin

variable {one two : Parse}

theorem refl (parse : Parse) : Twin parse parse := ⟨rfl,rfl,rfl⟩

theorem level (twin : Twin one two) : one.frame.level = two.frame.level :=
  congrArg (·.1.2.1) twin.frame

theorem todo (twin : Twin one two) : one.frame.todo = two.frame.todo :=
  congrArg Prod.snd twin.frame

theorem goto (twin : Twin one two) (todo : Todo) : Twin (one.goto todo) (two.goto todo) :=
  ⟨congrArg (fun work => (work.1,todo)) twin.frame,twin.callers,twin.input⟩

theorem pending (twin : Twin one two) : one.pending = two.pending := by
  have stack (parse : Parse) : parse.pending =
      ((parse.frame :: parse.callers).map Frame.work).foldr (fun work below => work.1.2.2.elim .empty (.call · below))
        .empty := by
    rw [Parse.pending,List.foldr_map]
    congr
    funext frame below
    change _ = frame.site.elim _ _
    cases frame.site <;> rfl
  rw [stack,stack,List.map_cons,List.map_cons,twin.frame,twin.callers]

theorem pick (twin : Twin one two) (decision : Decision) (mayPass : Bool) :
    (one.pick decision mayPass).2 = (two.pick decision mayPass).2 := by
  unfold Parse.pick
  rw [twin.input,twin.level,twin.pending]
  cases decision.tests with
  | none => rfl
  | some tests =>
    dsimp only
    cases tests.findIdx? (·.contains two.input.current.kind) <;> rfl

end Twin

-- The rule is given up at a label.  If no token is dropped, that has not happened there before since the last token.
structure Fails (label : Label) (before after : Parse) : Prop where
  done : after.frame.todo = []
  callers : after.callers = before.callers
  recovering : after.recovering = true
  shorter : after.input.later.length ≤ before.input.later.length
  fresh : after.input.later.length = before.input.later.length → after.input = before.input ∧ after.taken = before.taken ∧
    after.failedAfter = some before.taken ∧ label ∈ after.failedLabels ∧
      ¬ (before.failedAfter = some before.taken ∧ label ∈ before.failedLabels)

theorem skipTo_recovering (recovering : parse.recovering = true) (kinds : KindSet) :
    (parse.skipTo kinds).recovering = true := by
  obtain ⟨_,skips,_⟩ := skipTo_skips recovering kinds
  exact skips.recovering

theorem fail_recovering (parse : Parse) (source : List Token) (label : Label) (cause : Cause) :
    (parse.fail source label cause).recovering = true := by
  have givenUp (warned : Parse) (recovering : warned.recovering = true) : (warned.giveUp label).recovering = true := by
    refine skipTo_recovering ?_ _
    change (if _ then warned.consume else warned).recovering = true
    split
    · exact (consume_marks warned).1.trans recovering
    · exact recovering
  cases cause with
  | mismatched => exact givenUp _ (report_recovering ..)
  | noOption offending => exact givenUp _ (report_recovering ..)

theorem fail_todo (parse : Parse) (source : List Token) (label : Label) (cause : Cause) :
    (parse.fail source label cause).frame.todo = [] := by
  cases cause <;> rfl

theorem GivesUp.fails {label : Label} {before after : Parse} {count : Nat} (givesUp : GivesUp label before after count)
    (more : before.input.atEnd = false) (recovering : after.recovering = true) : Fails label before after where
  done := by
    rw [givesUp.alike.frame]
    rfl
  callers := givesUp.alike.callers.trans (dropped_callers count before)
  recovering := recovering
  shorter := by
    rw [givesUp.alike.input]
    exact dropped_le count
  fresh := by
    intro same
    rw [givesUp.alike.input] at same
    cases count with
    | zero =>
      obtain ⟨taken,failedAfter,failedLabels,unseen⟩ := givesUp.once rfl
      exact ⟨givesUp.alike.input,taken,failedAfter,failedLabels ▸ List.mem_cons_self,unseen⟩
    | succ count =>
      have shorter := dropped_shorter count more
      exact absurd same (Nat.ne_of_lt shorter)

-- How a rule is given up does not depend on what its frame holds, nor on how far was looked ahead.
theorem fail_fails (noted : parse.Noted) (more : parse.input.atEnd = false) (frame : Frame) (looked : Nat)
    (source : List Token) (label : Label) (cause : Cause) :
    Fails label parse ({ parse with frame, looked }.fail source label cause) := by
  obtain ⟨_,givesUp⟩ := fail_givesUp (show Noted { parse with frame, looked } from noted) source label cause
  obtain ⟨done,callers,recovering,shorter,fresh⟩ := givesUp.fails more (fail_recovering ..)
  exact ⟨done,callers,recovering,shorter,fresh⟩

theorem take_recovering (noted : parse.Noted) (more : parse.input.atEnd = false) (source : List Token) (label : Label)
    (kinds : KindSet) (isSet : Bool) (rest : Todo) : (parse.take source label kinds isSet rest).recovering = true ∨
      (parse.take source label kinds isSet rest).input.later.length < parse.input.later.length := by
  have shorter := Input.later_advance more
  rw [take]
  split
  · have alike : Alike parse.settle.consume parse.settle.shift := consume_alike_shift parse.settle rfl
    refine .inr ?_
    change parse.settle.consume.input.later.length < _
    rw [alike.input]
    change parse.input.advance.later.length < _
    omega
  · cases outcome : parse.dropOne? with
    | mk next dropped =>
      cases dropped with
      | true =>
        have facts := dropOne_true noted (congrArg Prod.snd outcome)
        rw [outcome] at facts
        have first : next.input = parse.input.advance := facts.1.input
        have second : next.consume.input = next.input.advance := (consume_alike next).input
        have least := Input.later_advance_le next.input
        refine .inr ?_
        change next.consume.input.later.length < _
        rw [second]
        rw [first] at least ⊢
        omega
      | false =>
        refine .inl ?_
        dsimp only
        split
        · cases isSet with
          | true => exact report_recovering ..
          | false => exact report_recovering ..
        · exact fail_recovering ..

section Recovering

variable {parse : Parse} (recovering : parse.recovering = true)

include recovering

theorem checkEntry_recovering : parse.checkEntry = (parse,true) := by
  rw [checkEntry]
  simp [recovering]

theorem checkRound_recovering (label : Label) : parse.checkRound label = parse := by
  rw [checkRound]
  simp [recovering]

theorem follow_recovering (source : List Token) (label : Label) (decision : Decision) (mayPass : Bool)
    (options : List Todo) : (parse.follow source label decision mayPass options).recovering = true := by
  obtain ⟨looked,same⟩ := pick_looks parse decision mayPass
  rw [follow]
  cases picked : parse.pick decision mayPass with
  | mk next outcome =>
    rw [picked] at same
    dsimp only at same
    subst same
    cases outcome with
    | ok index => exact recovering
    | error cause => exact fail_recovering ..

end Recovering

theorem step_recovering {before : Parse} (noted : before.Noted)
    (recovering : before.recovering = true) (more : before.input.atEnd = false)
    (step : before.step source = .more after) (same : after.input.later.length = before.input.later.length) :
    after.recovering = true := by
  match todo : before.frame.todo with
  | [] =>
    rw [Parse.step,todo] at step
    dsimp only [leave] at step
    split at step
    · cases step
    · cases step
      exact recovering
  | .skip :: rest | .seq _ _ :: rest | .call _ _ _ :: rest =>
    rw [Parse.step,todo] at step
    cases step
    exact recovering
  | .token label kind :: rest | .oneOf label kinds :: rest =>
    rw [Parse.step,todo] at step
    cases step
    rcases take_recovering noted more source label _ _ rest with stays | shorter
    · exact stays
    · exact absurd same (Nat.ne_of_lt shorter)
  | .wrap label level :: rest =>
    rw [Parse.step,todo] at step
    cases step
    split
    · exact recovering
    · exact fail_recovering ..
  | .choice label options :: rest | .optional label _ :: rest | .loop .many label _ _ :: rest =>
    rw [Parse.step,todo] at step
    cases step
    rw [enter,checkEntry_recovering recovering]
    exact follow_recovering recovering ..
  | .loop .atLeastOne entry back body :: rest =>
    rw [Parse.step,todo] at step
    cases step
    rw [checkEntry_recovering recovering]
    exact recovering
  | .loop .again entry back body :: rest =>
    rw [Parse.step,todo] at step
    cases step
    rw [checkRound_recovering recovering]
    exact follow_recovering recovering ..

-- How all parses with the same work go on when it waits for the current token: they take the token, or give the rule up
-- at one label, or come closer to the token.
inductive Onward (source : List Token) (parse : Parse) (suffix : Todo) : Prop where
  | taken {after : Parse} (step : parse.step source = .more after)
      (shorter : after.input.later.length < parse.input.later.length)
  | failed {label : Label} {form : Form Label} {rest : Todo} (head : parse.frame.todo = form :: rest)
      (named : form.label? = some label)
      (all : ∀ twin, Twin parse twin → twin.Noted → ∃ after, twin.step source = .more after ∧ Fails label twin after)
  | closer {after : Parse} (step : parse.step source = .more after) (input : after.input = parse.input)
      (place : (after.callers = parse.callers ∧ ∃ front, after.frame.todo = front ++ suffix ∧
          Todo.Awaits parse.input.current.kind front) ∨
        parse.callers.length < after.callers.length ∧ Todo.Awaits parse.input.current.kind after.frame.todo)
      (all : ∀ twin, Twin parse twin → twin.Noted → ∃ other, twin.step source = .more other ∧ Twin after other ∧
        Kept twin other)

theorem checkEntry_awaited (todo : parse.frame.todo = front ++ suffix)
    (awaits : Todo.Awaits parse.input.current.kind front) : parse.checkEntry = (parse,true) := by
  have next : parse.next = Todo.next front := by
    rw [← Todo.next_append awaits.needed suffix,Parse.next,todo]
    split
    · rename_i entry back body rest head
      cases front with
      | nil => exact absurd awaits Todo.not_awaits_nil
      | cons form front =>
        cases (List.cons.inj head).1
        exact absurd rfl (Todo.sureFront_loop awaits.sure).1
    · rfl
  rw [checkEntry,next,awaits.starts]
  simp

section Onward

variable {parse : Parse} {front suffix : Todo} (todo : parse.frame.todo = front ++ suffix)
  (awaits : Todo.Awaits parse.input.current.kind front) {source : List Token}

include awaits

theorem goto_onward (opens : Todo.Opens parse.input.current.kind (front ++ suffix) after)
    (steps : ∀ twin, Twin parse twin → twin.step source = .more (twin.goto after)) : Onward source parse suffix := by
  obtain ⟨front',rfl,awaits'⟩ := awaits.opened opens
  refine .closer (steps parse (.refl parse)) rfl (.inl ⟨rfl,front',rfl,awaits'⟩) fun two twin _ => ?_
  exact ⟨_,steps two twin,twin.goto _,rfl,rfl,rfl,rfl⟩

include todo

theorem follow_onward (more : parse.input.atEnd = false)
    (head : parse.frame.todo = form :: rest) (named : form.label? = some label) {decision : Decision}
    {options : List Todo} (between : decision.Between options) (leads : Leads (form :: rest) mayPass options)
    (steps : ∀ twin, Twin parse twin → twin.step source = .more (twin.follow source label decision mayPass options)) :
    Onward source parse suffix := by
  -- What is picked is the same for all.
  have follows : ∀ twin, Twin parse twin → ∃ looked, twin.step source = .more (match (parse.pick decision mayPass).2 with
      | .ok index => { twin with looked }.goto (options.getD (index - 1) [])
      | .error cause => { twin with looked }.fail source label cause) := by
    intro two twin
    obtain ⟨looked,same⟩ := pick_looks two decision mayPass
    refine ⟨looked,(steps two twin).trans ?_⟩
    rw [follow,twin.pick]
    cases picked : two.pick decision mayPass with
    | mk next outcome =>
      rw [picked] at same
      dsimp only at same
      subst same
      cases outcome <;> rfl
  cases picked : (parse.pick decision mayPass).2 with
  | error cause =>
    refine .failed head named fun two twin noted' => ?_
    obtain ⟨looked,step⟩ := follows two twin
    rw [picked] at step
    exact ⟨_,step,fail_fails noted' (twin.input ▸ more) two.frame looked ..⟩
  | ok index =>
    have opens := leads.opens _ _ (pick_fits between leads.proper leads.two picked)
    rw [← head,todo] at opens
    obtain ⟨front',same,awaits'⟩ := awaits.opened opens
    obtain ⟨looked,step⟩ := follows parse (.refl parse)
    rw [picked] at step
    refine .closer step rfl (.inl ⟨rfl,front',same,awaits'⟩) fun two twin _ => ?_
    obtain ⟨looked',step'⟩ := follows two twin
    rw [picked] at step'
    have ahead : Twin { parse with looked } { two with looked := looked' } := ⟨twin.frame,twin.callers,twin.input⟩
    exact ⟨_,step',ahead.goto _,rfl,rfl,rfl,rfl⟩

end Onward

theorem take_awaited {kinds : KindSet} (fits : kinds.contains parse.input.current.kind = true)
    (more : parse.input.atEnd = false) (source : List Token) (label : Label) (isSet : Bool) (rest : Todo) :
    (parse.take source label kinds isSet rest).input.later.length < parse.input.later.length := by
  have shorter := Input.later_advance more
  have alike : Alike parse.settle.consume parse.settle.shift := consume_alike_shift parse.settle rfl
  rw [take,if_pos fits]
  change parse.settle.consume.input.later.length < _
  rw [alike.input]
  change parse.input.advance.later.length < _
  omega

theorem step_onward (placed : Placed parse) (more : parse.input.atEnd = false)
    (todo : parse.frame.todo = front ++ suffix) (awaits : Todo.Awaits parse.input.current.kind front)
    (source : List Token) : Onward source parse suffix := by
  cases front with
  | nil => exact absurd awaits Todo.not_awaits_nil
  | cons form rest =>
    have heads : ∀ twin, Twin parse twin → twin.frame.todo = form :: (rest ++ suffix) :=
      fun _ twin => twin.todo ▸ todo
    have entries : ∀ twin, Twin parse twin → twin.checkEntry = (twin,true) :=
      fun _ twin => checkEntry_awaited (twin.todo ▸ todo) (twin.input ▸ awaits)
    have head : parse.frame.todo = form :: (rest ++ suffix) := todo
    have sited := head ▸ placed.top
    match form with
    | .skip =>
      refine goto_onward awaits .skip fun two twin => ?_
      rw [Parse.step,heads two twin]
      rfl
    | .seq first second =>
      refine goto_onward awaits .seq fun two twin => ?_
      rw [Parse.step,heads two twin]
      rfl
    | .loop .atLeastOne entry back body =>
      refine goto_onward awaits .first fun two twin => ?_
      rw [Parse.step,heads two twin]
      dsimp only
      rw [entries two twin]
      rfl
    | .token label kind =>
      have fits : (KindSet.ofList [kind]).contains parse.input.current.kind = true := awaits.starts
      have step : parse.step source = .more (parse.take source label (.ofList [kind]) false (rest ++ suffix)) := by
        rw [Parse.step,head]
      exact .taken step (take_awaited fits more ..)
    | .oneOf label kinds =>
      have fits : kinds.contains parse.input.current.kind = true := awaits.starts
      have step : parse.step source = .more (parse.take source label kinds true (rest ++ suffix)) := by
        rw [Parse.step,head]
      exact .taken step (take_awaited fits more ..)
    | .call label rule level =>
      have steps : ∀ twin, Twin parse twin → twin.step source = .more { twin with
          frame := .open rule level (some label) twin.input.current,
          callers := { twin.frame with todo := rest ++ suffix } :: twin.callers } := by
        intro two twin
        rw [Parse.step,heads two twin]
        rfl
      refine .closer (steps parse (.refl parse)) rfl (.inr ⟨Nat.lt_succ_self _,awaits.called⟩) fun two twin _ => ?_
      refine ⟨_,steps two twin,⟨rfl,?_,twin.input⟩,rfl,rfl,rfl,rfl⟩
      rw [List.map_cons,List.map_cons,twin.callers]
      exact congrArg (· :: _) (twin.goto _).frame
    | .wrap label level =>
      have steps : ∀ twin, Twin parse twin → twin.step source =
          .more (if parse.frame.level ≤ level then twin.wrap.goto (rest ++ suffix)
            else twin.wrap.fail source label (.noOption twin.input.current)) := by
        intro two twin
        rw [Parse.step,heads two twin,twin.level]
        rfl
      by_cases within : parse.frame.level ≤ level
      · simp only [if_pos within] at steps
        refine .closer (steps parse (.refl parse)) rfl (.inl ⟨rfl,rest,rfl,awaits.wrapped⟩) fun two twin _ => ?_
        have wrapped : Twin parse.wrap two.wrap := ⟨twin.frame,twin.callers,twin.input⟩
        exact ⟨_,steps two twin,wrapped.goto _,rfl,rfl,rfl,rfl⟩
      · simp only [if_neg within] at steps
        exact .failed head rfl fun two twin noted => ⟨_,steps two twin,fail_fails noted (twin.input ▸ more) two.wrap.frame two.looked ..⟩
    | .choice label options =>
      have place := Grammar.mem_places sited.mem rfl
      refine follow_onward todo awaits more head rfl (Decision.get_choice place) (choice_leads place)
        fun two twin => ?_
      rw [Parse.step,heads two twin]
      dsimp only
      rw [enter,entries two twin]
      rfl
    | .optional label body =>
      have place := Grammar.mem_places sited.mem rfl
      refine follow_onward todo awaits more head rfl (Decision.get_optional place) (optional_leads place)
        fun two twin => ?_
      rw [Parse.step,heads two twin]
      dsimp only
      rw [enter,entries two twin]
      rfl
    | .loop .many entry back body =>
      have place := again_mem_places sited
      refine follow_onward todo awaits more head rfl (Decision.get_loop place)
        (loop_leads (by decide) place) fun two twin => ?_
      rw [Parse.step,heads two twin]
      dsimp only
      rw [enter,entries two twin]
      rfl
    | .loop .again entry back body => exact absurd rfl (Todo.sureFront_loop awaits.sure).1

end Parse

end SolReader
