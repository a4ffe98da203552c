import SolReader.Proofs.Parse.Completeness

namespace SolReader

namespace Parse

theorem Effect.reported (effect : Effect before after) (noted : before.diagnostics ≠ []) : after.diagnostics ≠ [] := by
  cases effect with
  | left _ _ _ calm => rwa [calm.diagnostics]
  | opened _ _ marks =>
    rcases marks with ⟨_,calm⟩ | ⟨reported,_⟩
    · rwa [calm.diagnostics]
    · exact reported
  | called _ _ calm => rwa [calm.diagnostics]
  | wrapped _ _ _ calm => rwa [calm.diagnostics]
  | matched _ _ _ _ _ diagnostics => rwa [diagnostics]
  | matchedLate _ _ _ _ reported => exact reported
  | supplied _ _ _ _ _ _ reported => exact reported
  | abandoned _ _ _ givesUp => exact givesUp.noted

theorem clean_of_run {parse : Parse}
    (placed : Placed parse) (ran : parse.run source fuel = (tree,final,complete)) (clean : final.diagnostics = []) :
    parse.diagnostics = [] := by
  by_contra noted
  exact (run_keeps (·.diagnostics ≠ []) (fun _ noted effect => effect.reported noted) source fuel placed noted ran).2.1 clean

section Reads

variable {base : Rule} {parse after : Parse} {sites : List Label} {count : Nat}

-- From here so many tokens can be read, and with them all that is left to do.
def ReadsFor (parse : Parse) (sites : List Label) (count : Nat) : Prop :=
  count ≤ parse.kindsAhead.length ∧
    (Todo.reach parse.frame.todo).Reads parse.frame.level sites (parse.kindsAhead.take count)

theorem ReadsFor.left {site : Label} (reads : after.ReadsFor sites count) (done : parse.frame.todo = [])
    (behind : site.after = Todo.reach after.frame.todo) (input : after.input = parse.input) :
    parse.ReadsFor (site :: sites) count := by
  rw [ReadsFor,kindsAhead,input] at reads
  refine ⟨reads.1,?_⟩
  rw [done]
  exact (Reach.reads_nothing _).mpr (behind ▸ reads.2.lowered)

section Back

variable (reads : after.ReadsFor sites count) (placed : Placed parse) (level : after.frame.level = parse.frame.level)
  (input : after.input = parse.input)

include reads placed level input

theorem ReadsFor.opened {kind : Kind} (opens : Todo.Opens kind parse.frame.todo after.frame.todo) :
    parse.ReadsFor sites count := by
  rw [ReadsFor,kindsAhead,input,level] at reads
  exact ⟨reads.1,opens.reads placed.top reads.2⟩

theorem ReadsFor.wrapped {label : Label} {bound : Nat} (head : parse.frame.todo = .wrap label bound :: after.frame.todo)
    (within : parse.frame.level ≤ bound) : parse.ReadsFor sites count := by
  rw [ReadsFor,kindsAhead,input,level] at reads
  have sited := placed.top
  rw [head] at sited
  refine ⟨reads.1,?_⟩
  rw [head]
  exact (Todo.reads_wrap sited).mpr ⟨within,reads.2⟩

end Back

theorem Effect.readsFor (effect : Effect parse after) (placed : Placed parse) (clean : after.diagnostics = [])
    (framed : Framed base parse.frame parse.callers sites)
    (later : ∀ sites, Framed base after.frame after.callers sites → ∃ count, after.ReadsFor sites count) :
    ∃ count, parse.ReadsFor sites count := by
  have sited := placed.top
  cases effect with
  | left done below alike calm =>
    rw [below] at framed
    cases framed with
    | called _ _ _ behind outer =>
      obtain ⟨count,reads⟩ := later _ (by rw [alike.frame,alike.callers]; exact outer.same rfl)
      exact ⟨count,reads.left done (by rw [alike.frame]; exact behind) alike.input⟩
  | @opened dropped _ opens alike marks =>
    rcases marks with ⟨rfl,_⟩ | ⟨reported,_⟩
    · obtain ⟨count,reads⟩ := later sites (by rw [alike.frame,alike.callers]; exact framed.same rfl)
      exact ⟨count,reads.opened placed (by rw [alike.frame]; rfl) alike.input (by rw [alike.frame]; exact opens)⟩
    · exact absurd clean reported
  | @called label rule level rest head alike calm =>
    rw [head] at sited
    have place := sited.place rfl
    have inner : Framed base after.frame after.callers (label :: sites) := by
      rw [alike.frame,alike.callers]
      exact .called rfl (Rule.mem_callers.mpr ⟨rest,Grammar.mem_places sited.mem rfl⟩) (Label.rule_of_mark place rfl)
        (Label.after_eq place rfl) (framed.same rfl)
    obtain ⟨count,within,reads⟩ := later _ inner
    rw [kindsAhead,alike.input] at within reads
    rw [alike.frame] at reads
    refine ⟨count,within,?_⟩
    rw [head,Todo.reads_call sited _ level,← Rule.reach_start]
    exact reads
  | @wrapped label level rest head within alike calm =>
    obtain ⟨count,reads⟩ := later sites (by rw [alike.frame,alike.callers]; exact framed.same rfl)
    exact ⟨count,reads.wrapped placed (by rw [alike.frame]; rfl) alike.input (by rw [alike.frame]; exact head) within⟩
  | @matched form kinds rest head takes fits alike _ diagnostics =>
    rw [head] at sited
    obtain ⟨label,_,first,behind,_⟩ := takes.marked sited
    have taking {others : List Kind} (reads : (Todo.reach rest).Reads 0 sites others) :
        (Todo.reach parse.frame.todo).Reads parse.frame.level sites (parse.input.current.kind :: others) := by
      rw [head]
      exact (Todo.reads_head first behind).mpr ⟨_,_,rfl,fits,reads⟩
    cases ended : parse.input.atEnd with
    | true =>
      -- only a whole source takes the end of the text, and it does so last
      obtain ⟨rfl,outer⟩ := takes_last sited takes ((Input.atEnd_iff placed.closed).mp ended ▸ fits)
      have alone : sites = [] := by
        generalize parse.callers = callers at framed
        cases framed with
        | outermost _ _ _ => rfl
        | called _ calls _ _ _ => simp [outer,whole_uncalled] at calls
      subst alone
      exact ⟨1,by simp [kindsAhead,Input.ahead],by simpa [kindsAhead,Input.ahead] using taking (.done (.bottom rfl))⟩
    | false =>
      obtain ⟨count,within,reads⟩ := later sites (by rw [alike.frame,alike.callers]; exact framed.same rfl)
      have split := Input.ahead_advance ended
      rw [kindsAhead,alike.input] at within reads
      rw [alike.frame] at reads
      refine ⟨count + 1,?_,?_⟩
      · rw [kindsAhead,split,List.map_cons,List.length_cons]
        exact Nat.succ_le_succ within
      · rw [kindsAhead,split,List.map_cons,List.take_succ_cons]
        exact taking reads.lowered
  | matchedLate _ _ _ _ reported => exact absurd clean reported
  | supplied _ _ _ _ _ _ reported => exact absurd clean reported
  | abandoned _ _ _ givesUp => exact absurd clean givesUp.noted

-- The induction is on the steps that are left, from the end backwards.
theorem run_reads (placed : Placed parse)
    (framed : Framed base parse.frame parse.callers sites) (ran : parse.run source fuel = (tree,final,true))
    (clean : final.diagnostics = []) : ∃ count, parse.ReadsFor sites count := by
  induction fuel generalizing parse sites with
  | zero => cases ran
  | succ fuel ih =>
    rw [run] at ran
    rcases step_effect placed.noted placed.top source with ⟨after,same,effect⟩ | ⟨same,done,outermost⟩
    · rw [same] at ran
      have next := effect.placed placed
      exact effect.readsFor placed (clean_of_run next ran clean) framed fun _ framed => ih next framed ran
    · rw [outermost] at framed
      cases framed with
      | outermost _ _ _ =>
        refine ⟨0,Nat.zero_le _,?_⟩
        rw [done]
        exact .done (.bottom rfl)

end Reads

section Rounds

variable {source : List Token} {parse after : Parse} {decision : Decision} {label : Label} {mayPass : Bool}
  {options : List Todo}

theorem follow_picked (noted : parse.Noted) (untested : decision.tests = none)
    (clean : (parse.follow source label decision mayPass options).diagnostics = []) :
    ∃ option, (decision.forecast parse.frame.level parse.pending parse.input.ahead).option = some option ∧
      (parse.follow source label decision mayPass options).diagnostics = parse.diagnostics ∧
      (parse.follow source label decision mayPass options).frame.todo = options.getD (option - 1) [] := by
  rw [follow] at clean ⊢
  simp only [pick,untested] at clean ⊢
  cases chosen : (decision.forecast parse.frame.level parse.pending parse.input.ahead).option with
  | some option => exact ⟨option,rfl,rfl,rfl⟩
  | none =>
    simp only [chosen] at clean
    have warned : (parse.look (decision.forecast parse.frame.level parse.pending parse.input.ahead).looked).Noted := noted
    obtain ⟨_,givesUp⟩ := fail_givesUp warned source label _
    exact absurd clean givesUp.noted

theorem checked_picked {next : Parse} (noted : parse.Noted) (untested : decision.tests = none) {count : Nat}
    (alike : Alike next (parse.dropped count)) (marks : Marks parse next count)
    (clean : (next.follow source label decision mayPass options).diagnostics = []) :
    ∃ option, (decision.forecast parse.frame.level parse.pending parse.input.ahead).option = some option ∧
      (next.follow source label decision mayPass options).frame.todo = options.getD (option - 1) [] := by
  obtain ⟨option,chosen,same,todo⟩ := follow_picked (marks.noted noted) untested clean
  rcases marks with ⟨rfl,_⟩ | ⟨reported,_⟩
  · refine ⟨option,?_,todo⟩
    rw [alike.frame,alike.input,pending,alike.frame,alike.callers] at chosen
    exact chosen
  · exact absurd (same.symm.trans clean) reported

theorem enter_picked (placed : Placed parse) (untested : (Decision.get label).tests = none)
    (clean : (parse.enter source label mayPass options).diagnostics = []) :
    ∃ option, ((Decision.get label).forecast parse.frame.level parse.pending parse.input.ahead).option = some option ∧
      (parse.enter source label mayPass options).frame.todo = options.getD (option - 1) [] := by
  rw [enter] at clean ⊢
  cases checked : parse.checkEntry with
  | mk entered passed =>
    rw [checked] at clean
    cases passed with
    | true =>
      have facts := checkEntry_true placed.noted (congrArg Prod.snd checked)
      rw [checked] at facts
      obtain ⟨_,alike,marks⟩ := facts
      exact checked_picked placed.noted untested alike marks clean
    | false =>
      have same := checkEntry_false (congrArg Prod.snd checked)
      rw [checked] at same
      dsimp only at same clean
      subst same
      obtain ⟨_,givesUp⟩ := fail_givesUp (show (parse.look 1).Noted from placed.noted) source label .mismatched
      exact absurd clean givesUp.noted

variable {rounds : Rounds} {entry back : Label} {body : Form Label} {rest : Todo}

theorem optional_picked (placed : Placed parse) (head : parse.frame.todo = .optional label body :: rest)
    (untested : (Decision.get label).tests = none) (next : parse.step source = .more after)
    (clean : after.diagnostics = []) :
    ∃ option, ((Decision.get label).forecast parse.frame.level parse.pending parse.input.ahead).option = some option ∧
      after.frame.todo = [body :: rest,rest].getD (option - 1) [] := by
  rw [step,head] at next
  cases next
  exact enter_picked placed untested clean

theorem round_picked (placed : Placed parse) (head : parse.frame.todo = .loop rounds entry back body :: rest)
    (repeats : rounds ≠ .atLeastOne) (untested : (Decision.get entry).tests = none)
    (next : parse.step source = .more after) (clean : after.diagnostics = []) :
    ∃ option, ((Decision.get entry).forecast parse.frame.level parse.pending parse.input.ahead).option = some option ∧
      after.frame.todo = [body :: .loop .again entry back body :: rest,rest].getD (option - 1) [] := by
  rw [step,head] at next
  cases rounds with
  | atLeastOne => exact absurd rfl repeats
  | again =>
    cases next
    obtain ⟨_,alike,marks⟩ := checkRound_marks placed.noted back
    exact checked_picked placed.noted untested alike marks clean
  | many =>
    cases next
    exact enter_picked placed untested clean

end Rounds

end Parse

end SolReader
