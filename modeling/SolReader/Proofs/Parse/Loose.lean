import SolReader.Parse.Step

namespace SolReader

open List

-- The token, wherever it stands.
def Token.loose (token : Token) : Token := ⟨token.kind,token.text,.start,0,0⟩

namespace Tree

mutual

-- The tree of such tokens.  Where its phrases begin and end is left out too.
def loose : Tree → Tree
  | .leaf token => .leaf token.loose
  | .error token => .error token.loose
  | .node rule _ _ children => .node rule (.endOfText .start 0) none (allLoose children)

def allLoose : List Tree → List Tree
  | [] => []
  | tree :: trees => tree.loose :: allLoose trees

end

theorem allLoose_eq (trees : List Tree) : allLoose trees = trees.map loose := by
  induction trees with
  | nil => rfl
  | cons tree trees ih => rw [allLoose,ih,map_cons]

theorem loose_node (rule : Rule) (start : Token) (stop : Option Token) (children : List Tree) :
    (node rule start stop children).loose = .node rule (.endOfText .start 0) none (children.map loose) := by
  rw [loose,allLoose_eq]

end Tree

def Frame.loose (frame : Frame) : Frame :=
  { frame with start := .endOfText .start 0, built := frame.built.map Tree.loose }

def Input.loose (input : Input) : Input := ⟨input.current.loose,input.later.map Token.loose⟩

-- The parse without places, and without what it has looked at and reported.
def Parse.loose (parse : Parse) : Parse :=
  { parse with
    frame := parse.frame.loose, callers := parse.callers.map Frame.loose, input := parse.input.loose,
    previous := none, looked := 0, diagnostics := [] }

def Step.loose : Step → Step
  | .more parse => .more parse.loose
  | .finished tree parse => .finished tree.loose parse.loose

theorem Frame.loose_close (frame : Frame) (stop : Option Token) :
    (frame.close stop).loose = frame.loose.close none := by
  rw [close,Tree.loose_node,close,loose,map_reverse]

theorem Input.loose_second (input : Input) : input.loose.second = input.second.loose := by
  obtain ⟨current,later⟩ := input
  cases later <;> rfl

namespace Decision

theorem foresee_loose (level : Nat) (configs : List Config) (looked : Nat) (ahead : List Token) :
    foresee level configs looked (ahead.map Token.loose) = foresee level configs looked ahead := by
  induction ahead generalizing configs looked with
  | nil => rfl
  | cons token ahead ih =>
    simp only [map_cons,foresee,ih,isEmpty_map]
    rfl

theorem glance_loose (level : Nat) (closed : Unit → Forecast) (configs : List Config) (looked : Nat) (ahead : List Token) :
    glance level closed configs looked (ahead.map Token.loose) = glance level closed configs looked ahead := by
  induction ahead generalizing configs looked with
  | nil => rfl
  | cons token ahead ih =>
    simp only [map_cons,glance,ih,isEmpty_map]
    rfl

theorem forecast_loose (decision : Decision) (level : Nat) (pending : Stacks) (ahead : List Token) :
    decision.forecast level pending (ahead.map Token.loose) = decision.forecast level pending ahead := by
  rw [forecast,forecast,glance_loose,foresee_loose]

end Decision

namespace Parse

section Primitives

variable (parse : Parse)

theorem loose_goto (todo : Todo) : (parse.goto todo).loose = parse.loose.goto todo := rfl

theorem loose_add (tree : Tree) : (parse.add tree).loose = parse.loose.add tree.loose := rfl

theorem loose_settle : parse.settle.loose = parse.loose.settle := rfl

theorem loose_report (place : Place) (complaint : Complaint) :
    (parse.report place complaint).loose = { parse.loose with recovering := true } := by
  rw [report]
  split
  · rename_i already
    rw [← already]
    rfl
  · rfl

theorem loose_consume : parse.consume.loose =
    let added := parse.loose.add (if parse.loose.recovering then .error parse.loose.input.current
      else .leaf parse.loose.input.current)
    if parse.loose.input.atEnd then added
    else { added with input := parse.loose.input.advance, taken := parse.loose.taken + 1 } := by
  obtain ⟨frame,callers,⟨current,later⟩,_,_,recovering,_⟩ := parse
  cases later with
  | nil => cases recovering <;> rfl
  | cons next later => cases recovering <;> rfl

theorem pending_loose : parse.loose.pending = parse.pending := by
  change (List.map Frame.loose (parse.frame :: parse.callers)).foldr _ _ = _
  rw [foldr_map]
  rfl

theorem expecting_loose (next : Next) (frames : List Frame) :
    expecting next (frames.map Frame.loose) = expecting next frames := by
  induction frames generalizing next with
  | nil => rfl
  | cons frame frames ih => rw [map_cons,expecting,expecting,ih]; rfl

theorem expected_loose : parse.loose.expected = parse.expected := expecting_loose ..

theorem resumable_loose : parse.loose.resumable = parse.resumable := by
  rw [resumable,resumable,loose,foldl_map]
  rfl

end Primitives

-- Two parses that differ in places only.
section Pairs

variable {one two : Parse} {source other : List Token} (same : one.loose = two.loose)

include same

theorem same_kind : one.input.current.kind = two.input.current.kind :=
  congrArg (·.input.current.kind) same

theorem same_recovering : one.recovering = two.recovering := by
  change one.loose.recovering = two.loose.recovering
  rw [same]

theorem same_todo : one.frame.todo = two.frame.todo :=
  congrArg (·.frame.todo) same

theorem same_next : one.next = two.next := by
  change one.loose.next = two.loose.next
  rw [same]

theorem same_expected : one.expected = two.expected := by
  rw [← expected_loose,same,expected_loose]

theorem same_resumable : one.resumable = two.resumable := by
  rw [← resumable_loose,same,resumable_loose]

theorem same_goto (todo : Todo) : (one.goto todo).loose = (two.goto todo).loose := by
  rw [loose_goto,loose_goto,same]

theorem same_settle : one.settle.loose = two.settle.loose := by
  rw [loose_settle,loose_settle,same]

theorem same_consume : one.consume.loose = two.consume.loose := by
  rw [loose_consume,loose_consume,same]

theorem same_report (place place' : Place) (complaint complaint' : Complaint) :
    (one.report place complaint).loose = (two.report place' complaint').loose := by
  rw [loose_report,loose_report,same]

theorem same_dropOne? : one.dropOne?.map loose id = two.dropOne?.map loose id := by
  have looks : (one.look 1).loose = (two.look 1).loose := same
  have second : (one.look 1).input.second.kind = (two.look 1).input.second.kind := by
    have kinds : one.loose.input.second.kind = two.loose.input.second.kind := by rw [same]
    rwa [show one.loose.input = one.input.loose from rfl,show two.loose.input = two.input.loose from rfl,
      Input.loose_second,Input.loose_second] at kinds
  rw [dropOne?,dropOne?,same_expected looks,second]
  split
  · exact congrArg (·,true) (same_settle (same_consume (same_report looks ..)))
  · exact congrArg (·,false) looks

theorem same_skipTo (kinds : KindSet) : (one.skipTo kinds).loose = (two.skipTo kinds).loose := by
  have passed {one two : Parse} (same : one.loose = two.loose) {tokens others : List Token}
      (count : tokens.length = others.length) : (tokens.foldl (fun parse _ => parse.consume) one).loose =
        (others.foldl (fun parse _ => parse.consume) two).loose := by
    induction tokens generalizing one two others with
    | nil =>
      cases others with
      | nil => exact same
      | cons token others => cases count
    | cons token tokens ih =>
      cases others with
      | nil => cases count
      | cons token others => exact ih (same_consume same) (Nat.succ.inj count)
  rw [skipTo,skipTo]
  apply passed same
  have ahead : one.input.ahead.map Token.loose = two.input.ahead.map Token.loose :=
    congrArg (·.input.ahead) same
  have stops := congrArg (fun tokens => (tokens.takeWhile fun token => token.kind != .eof && !kinds.contains token.kind).length) ahead
  simp only [takeWhile_map,length_map] at stops
  exact stops

theorem same_giveUp (label : Label) : (one.giveUp label).loose = (two.giveUp label).loose := by
  have after : one.failedAfter = two.failedAfter := congrArg (·.failedAfter) same
  have labels : one.failedLabels = two.failedLabels := congrArg (·.failedLabels) same
  have taken : one.taken = two.taken := congrArg (·.taken) same
  have marked {one two : Parse} (same : one.loose = two.loose) :
      ({ one with failedAfter := some one.taken, failedLabels := label :: one.failedLabels } : Parse).loose =
        ({ two with failedAfter := some two.taken, failedLabels := label :: two.failedLabels } : Parse).loose := by
    change ({ one.loose with failedAfter := some one.loose.taken, failedLabels := label :: one.loose.failedLabels } : Parse) = _
    rw [same]
    rfl
  have freed : (if one.failedAfter = some one.taken && one.failedLabels.contains label then one.consume else one).loose =
      (if two.failedAfter = some two.taken && two.failedLabels.contains label then two.consume else two).loose := by
    rw [after,labels,taken]
    split
    · exact same_consume same
    · exact same
  rw [giveUp,giveUp]
  apply same_goto
  rw [same_resumable (marked freed)]
  exact same_skipTo (marked freed) _

-- Whatever the reason is, the rule is given up in the same way.
theorem same_fail (label : Label) (cause cause' : Cause) :
    (one.fail source label cause).loose = (two.fail other label cause').loose := by
  have noticed (parse : Parse) (tokens : List Token) (cause : Cause) : ∃ noticed : Parse,
      parse.fail tokens label cause = noticed.giveUp label ∧ noticed.loose = { parse.loose with recovering := true } := by
    cases cause with
    | mismatched => exact ⟨_,rfl,loose_report ..⟩
    | noOption offending =>
      refine ⟨_,rfl,(loose_report ..).trans ?_⟩
      split <;> rfl
  obtain ⟨left,first,looseLeft⟩ := noticed one source cause
  obtain ⟨right,second,looseRight⟩ := noticed two other cause'
  rw [first,second]
  exact same_giveUp (by rw [looseLeft,looseRight,same]) label

theorem same_checkEntry : one.checkEntry.map loose id = two.checkEntry.map loose id := by
  rw [checkEntry,checkEntry,same_recovering same,same_next same,same_kind same]
  split
  · exact congrArg (·,true) same
  · exact same_dropOne? same

theorem same_checkRound (label : Label) : (one.checkRound label).loose = (two.checkRound label).loose := by
  rw [checkRound,checkRound,same_recovering same,same_next same,same_kind same]
  split
  · exact same
  · have reported : one.reportExtraneous.loose = two.reportExtraneous.loose := same_report same ..
    have widened {one two : Parse} (same : one.loose = two.loose) (kinds : KindSet) :
        ({ one with widened := (label,kinds) :: one.widened } : Parse).loose =
          ({ two with widened := (label,kinds) :: two.widened } : Parse).loose := by
      change ({ one.loose with widened := (label,kinds) :: one.loose.widened } : Parse) = _
      rw [same]
      rfl
    dsimp only
    rw [same_resumable reported]
    exact same_skipTo (widened reported _) _

theorem same_madeUp : one.madeUp.loose = two.madeUp.loose := by
  rw [madeUp,madeUp,same_expected same]
  rfl

theorem same_take (label : Label) (kinds : KindSet) (isSet : Bool) (rest : Todo) :
    (one.take source label kinds isSet rest).loose = (two.take other label kinds isSet rest).loose := by
  rw [take,take,same_kind same]
  split
  · exact same_goto (same_consume (same_settle same)) rest
  · have drops := same_dropOne? same
    generalize one.dropOne? = left at drops ⊢
    generalize two.dropOne? = right at drops ⊢
    obtain ⟨first,dropped⟩ := left
    obtain ⟨second,dropped'⟩ := right
    obtain ⟨again,rfl⟩ : first.loose = second.loose ∧ dropped = dropped' := Prod.mk.inj drops
    cases dropped with
    | true => exact same_goto (same_consume again) rest
    | false =>
      have follows : expecting (Todo.next rest) first.callers = expecting (Todo.next rest) second.callers := by
        rw [← expecting_loose,← expecting_loose _ second.callers]
        exact congrArg (fun parse => expecting (Todo.next rest) parse.callers) again
      simp only [follows,same_kind again]
      split
      · have reported := same_report again first.input.current.place second.input.current.place
          (.missing first.expected first.input.current.text) (.missing second.expected second.input.current.text)
        cases isSet with
        | true => exact same_goto reported rest
        | false =>
          apply same_goto
          rw [if_neg Bool.false_ne_true,if_neg Bool.false_ne_true,loose_add,loose_add,reported,Tree.loose,Tree.loose,
            same_madeUp again]
      · exact same_fail again ..

theorem same_pick (decision : Decision) (mayPass : Bool) :
    (one.pick decision mayPass).map loose Except.toOption = (two.pick decision mayPass).map loose Except.toOption := by
  have ahead : one.input.ahead.map Token.loose = two.input.ahead.map Token.loose := congrArg (·.input.ahead) same
  have level : one.frame.level = two.frame.level := congrArg (·.frame.level) same
  have pending : one.pending = two.pending := by rw [← pending_loose,same,pending_loose]
  have forecasts : decision.forecast one.frame.level one.pending one.input.ahead =
      decision.forecast two.frame.level two.pending two.input.ahead := by
    rw [← Decision.forecast_loose,ahead,Decision.forecast_loose,level,pending]
  rw [pick,pick,same_kind same,forecasts]
  cases decision.tests with
  | some tests =>
    dsimp only
    split
    · exact congrArg (·,_) same
    · cases mayPass <;> exact congrArg (·,_) same
  | none =>
    dsimp only
    cases (decision.forecast two.frame.level two.pending two.input.ahead).option <;> exact congrArg (·,_) same

theorem same_follow (label : Label) (decision : Decision) (mayPass : Bool) (options : List Todo) :
    (one.follow source label decision mayPass options).loose = (two.follow other label decision mayPass options).loose := by
  have picks := same_pick same decision mayPass
  rw [follow,follow]
  generalize one.pick decision mayPass = left at picks ⊢
  generalize two.pick decision mayPass = right at picks ⊢
  obtain ⟨first,picked⟩ := left
  obtain ⟨second,picked'⟩ := right
  obtain ⟨again,options⟩ : first.loose = second.loose ∧ picked.toOption = picked'.toOption := Prod.mk.inj picks
  cases picked with
  | ok option =>
    cases picked' with
    | ok option' =>
      cases options
      exact same_goto again _
    | error cause => cases options
  | error cause =>
    cases picked' with
    | ok option => cases options
    | error cause' => exact same_fail again ..

theorem same_enter (label : Label) (mayPass : Bool) (options : List Todo) :
    (one.enter source label mayPass options).loose = (two.enter other label mayPass options).loose := by
  have checks := same_checkEntry same
  rw [enter,enter]
  generalize one.checkEntry = left at checks ⊢
  generalize two.checkEntry = right at checks ⊢
  obtain ⟨first,entered⟩ := left
  obtain ⟨second,entered'⟩ := right
  obtain ⟨again,rfl⟩ : first.loose = second.loose ∧ entered = entered' := Prod.mk.inj checks
  cases entered with
  | true => exact same_follow again ..
  | false => exact same_fail again ..

theorem same_close : (one.frame.close one.previous).loose = (two.frame.close two.previous).loose := by
  rw [Frame.loose_close,Frame.loose_close]
  exact congrArg (·.frame.close none) same

theorem same_leave : one.leave.loose = two.leave.loose := by
  have callers : one.callers.map Frame.loose = two.callers.map Frame.loose := congrArg (·.callers) same
  have closed := same_close same
  rw [leave,leave]
  cases first : one.callers with
  | nil =>
    cases second : two.callers with
    | nil => simp only [Step.loose,closed,same]
    | cons caller others => simp [first,second] at callers
  | cons caller rest =>
    cases second : two.callers with
    | nil => simp [first,second] at callers
    | cons other others =>
      rw [first,second,map_cons,map_cons,List.cons.injEq] at callers
      change Step.more { one.loose with
        frame := caller.loose.add (one.frame.close one.previous).loose, callers := rest.map Frame.loose } = _
      rw [same,closed,callers.1,callers.2]
      rfl

theorem same_step : (one.step source).loose = (two.step other).loose := by
  rw [step,step,same_todo same]
  split
  · exact same_leave same
  · exact congrArg Step.more (same_goto same _)
  · exact congrArg Step.more (same_goto same _)
  · exact congrArg Step.more (same_take same ..)
  · exact congrArg Step.more (same_take same ..)
  · rename_i label rule level rest _
    change Step.more { one.loose with
      frame := (Frame.open rule level (some label) one.input.current).loose,
      callers := { one.loose.frame with todo := rest } :: one.loose.callers } = _
    rw [same]
    rfl
  · have wrapped : ({ one with frame := { one.frame with built := [one.frame.close one.previous] } } : Parse).loose =
        ({ two with frame := { two.frame with built := [two.frame.close two.previous] } } : Parse).loose := by
      change { one.loose with frame := { one.loose.frame with built := [(one.frame.close one.previous).loose] } } = _
      rw [same,same_close same]
      rfl
    have level : one.frame.level = two.frame.level := congrArg (·.frame.level) same
    rw [level]
    apply congrArg Step.more
    split
    · exact same_goto wrapped _
    · exact same_fail wrapped ..
  · exact congrArg Step.more (same_enter same ..)
  · exact congrArg Step.more (same_enter same ..)
  · exact congrArg Step.more (same_enter same ..)
  · have checks := same_checkEntry same
    generalize one.checkEntry = left at checks ⊢
    generalize two.checkEntry = right at checks ⊢
    obtain ⟨first,entered⟩ := left
    obtain ⟨second,entered'⟩ := right
    obtain ⟨again,rfl⟩ : first.loose = second.loose ∧ entered = entered' := Prod.mk.inj checks
    cases entered with
    | true => exact congrArg Step.more (same_goto again _)
    | false => exact congrArg Step.more (same_fail again ..)
  · exact congrArg Step.more (same_follow (same_checkRound same _) ..)

-- The frames that are open are closed in the same way.
theorem same_closed : (one.callers.foldl (fun tree caller => (caller.add tree).close one.previous)
      (one.frame.close one.previous)).loose =
    (two.callers.foldl (fun tree caller => (caller.add tree).close two.previous) (two.frame.close two.previous)).loose := by
  have callers : one.callers.map Frame.loose = two.callers.map Frame.loose := congrArg (·.callers) same
  have closed := same_close same
  have folded (frames : List Frame) (stop : Option Token) (tree : Tree) :
      (frames.foldl (fun tree caller => (caller.add tree).close stop) tree).loose =
        (frames.map Frame.loose).foldl (fun tree caller => (caller.add tree).close none) tree.loose := by
    induction frames generalizing tree with
    | nil => rfl
    | cons frame frames ih =>
      rw [foldl_cons,ih,Frame.loose_close]
      rfl
  rw [folded,folded,callers,closed]

theorem same_run (fuel : Nat) : (one.run source fuel).1.loose = (two.run other fuel).1.loose := by
  induction fuel generalizing one two with
  | zero => exact same_closed same
  | succ fuel ih =>
    have steps : (one.step source).loose = (two.step other).loose := same_step same
    rw [run,run]
    generalize one.step source = left at steps ⊢
    generalize two.step other = right at steps ⊢
    cases left with
    | more parse =>
      cases right with
      | more again => exact ih (Step.more.inj steps)
      | finished => cases steps
    | finished tree parse =>
      cases right with
      | more => cases steps
      | finished other again => exact (Step.finished.inj steps).1

end Pairs

-- Tokens that differ in their places only are read as trees that differ in places only.
theorem outcome_loose (rule : Rule) {one two : Input} (same : one.loose = two.loose) :
    (outcome source rule one).1.loose = (outcome other rule two).1.loose := by
  have count : one.later.length = two.later.length := by
    have lengths := congrArg (·.later.length) same
    simpa [Input.loose] using lengths
  have start : (start rule one).loose = (start rule two).loose := by
    change { (Parse.start rule one).loose with input := one.loose } = _
    rw [same]
    rfl
  rw [outcome,outcome,resumed,resumed,count]
  exact same_run start _

end Parse

end SolReader
