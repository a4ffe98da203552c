import SolReader.Proofs.Parse.Choice
import SolReader.Proofs.Parse.Recovery

namespace SolReader

-- The form takes one token, of one of the kinds.
inductive Form.Takes : Form Label → KindSet → Prop where
  | token (label : Label) (kind : Kind) : Takes (.token label kind) (.ofList [kind])
  | oneOf (label : Label) (kinds : KindSet) : Takes (.oneOf label kinds) kinds

namespace Parse

variable {kinds : KindSet} {mayPass : Bool} {options : List Todo}

structure Calm (before after : Parse) : Prop extends Kept before after where
  recovering : after.recovering = before.recovering
  diagnostics : after.diagnostics = before.diagnostics

theorem Calm.refl (parse : Parse) : Calm parse parse := ⟨.refl parse,rfl,rfl⟩

-- A number of tokens was dropped.  If there were any, or if the parse was disturbed otherwise, that was reported.
def Marks (before after : Parse) (count : Nat) : Prop :=
  (count = 0 ∧ Calm before after) ∨ (after.diagnostics ≠ [] ∧ (count = 0 → Kept before after))

theorem Marks.noted {count : Nat} (marks : Marks before after count) (noted : before.Noted) : after.Noted := by
  rcases marks with ⟨_,calm⟩ | ⟨reported,_⟩
  · intro recovering
    rw [calm.diagnostics]
    exact noted (calm.recovering ▸ recovering)
  · exact fun _ => reported

theorem Marks.kept {count : Nat} (marks : Marks before after count) (zero : count = 0) : Kept before after := by
  rcases marks with ⟨_,calm⟩ | ⟨_,kept⟩
  · exact calm.toKept
  · exact kept zero

theorem Marks.calm {count : Nat} (marks : Marks before middle count)
    (calm : Calm middle after) : Marks before after count := by
  rcases marks with ⟨zero,first⟩ | ⟨reported,kept⟩
  · exact .inl ⟨zero,first.toKept.trans calm.toKept,calm.recovering.trans first.recovering,
      calm.diagnostics.trans first.diagnostics⟩
  · refine .inr ⟨?_,fun zero => (kept zero).trans calm.toKept⟩
    rwa [calm.diagnostics]

inductive Effect (before after : Parse) : Prop where
  | left {caller : Frame} {callers : List Frame} (done : before.frame.todo = [])
      (below : before.callers = caller :: callers)
      (alike : Alike after { before with frame := caller.add (before.frame.close before.previous), callers })
      (calm : Calm before after)
  | opened {count : Nat} {todo : Todo} (opens : Todo.Opens after.input.current.kind before.frame.todo todo)
      (alike : Alike after ((before.dropped count).goto todo)) (marks : Marks before after count)
  | called {label : Label} {rule : Rule} {level : Nat} {rest : Todo}
      (head : before.frame.todo = .call label rule level :: rest)
      (alike : Alike after { before with
        frame := .open rule level (some label) before.input.current,
        callers := { before.frame with todo := rest } :: before.callers })
      (calm : Calm before after)
  | wrapped {label : Label} {level : Nat} {rest : Todo} (head : before.frame.todo = .wrap label level :: rest)
      (within : before.frame.level ≤ level) (alike : Alike after (before.wrap.goto rest)) (calm : Calm before after)
  | matched {form : Form Label} {kinds : KindSet} {rest : Todo} (head : before.frame.todo = form :: rest)
      (takes : form.Takes kinds) (fits : kinds.contains before.input.current.kind = true)
      (alike : Alike after (before.shift.goto rest)) (settled : after.recovering = false)
      (diagnostics : after.diagnostics = before.diagnostics)
      (previous : after.previous = if before.input.atEnd then before.previous else some before.input.current)
  | matchedLate {form : Form Label} {kinds : KindSet} {rest : Todo} (head : before.frame.todo = form :: rest)
      (takes : form.Takes kinds) (fits : kinds.contains before.input.advance.current.kind = true)
      (alike : Alike after (before.drop.shift.goto rest)) (reported : after.diagnostics ≠ [])
  | supplied {form : Form Label} {kinds : KindSet} {rest : Todo} (head : before.frame.todo = form :: rest)
      (takes : form.Takes kinds) (unfit : kinds.contains before.input.current.kind = false)
      (follows : (expecting (Todo.next rest) before.callers).contains before.input.current.kind = true)
      (alike : Alike after (before.goto rest) ∨
        ∃ kind place, Alike after ((before.add (.error (.madeUp kind place))).goto rest))
      (kept : Kept before after) (reported : after.diagnostics ≠ [])
  | abandoned {form : Form Label} {label : Label} {rest : Todo} {base : Parse} {count : Nat}
      (head : before.frame.todo = form :: rest) (named : form.label? = some label)
      (origin : base = before ∨ base = before.wrap) (givesUp : GivesUp label base after count)
      (steady : base = before ∨ ∃ level, form = .wrap label level)

section Checks

variable {parse : Parse}

theorem dropOne_true (noted : parse.Noted) (dropped : parse.dropOne?.2 = true) :
    Alike parse.dropOne?.1 parse.drop ∧ parse.dropOne?.1.recovering = false ∧ parse.dropOne?.1.diagnostics ≠ [] ∧
      parse.expected.contains parse.input.second.kind = true := by
  rw [dropOne?] at dropped ⊢
  split at dropped
  · rename_i expected
    rw [if_pos expected]
    let warned := (parse.look 1).reportExtraneous
    have alike : Alike warned parse := ((parse.look 1).report_alike _ _).trans ⟨rfl,rfl,rfl⟩
    have recovering : warned.recovering = true := (parse.look 1).report_recovering _ _
    have consumed := (consume_alike_drop warned recovering).trans alike.drop
    refine ⟨⟨consumed.frame,consumed.callers,consumed.input⟩,rfl,?_,expected⟩
    have reported : warned.diagnostics ≠ [] := (parse.look 1).report_noted _ _ noted
    exact fun quiet => reported ((consume_marks warned).2.1.symm.trans quiet)
  · cases dropped

theorem dropOne_false (stays : parse.dropOne?.2 = false) : parse.dropOne?.1 = parse.look 1 := by
  rw [dropOne?] at stays ⊢
  split at stays
  · cases stays
  · rename_i unexpected
    rw [if_neg unexpected]

theorem checkEntry_true (noted : parse.Noted) (checked : parse.checkEntry.2 = true) :
    ∃ count, Alike parse.checkEntry.1 (parse.dropped count) ∧ Marks parse parse.checkEntry.1 count := by
  rw [checkEntry] at checked ⊢
  split
  · exact ⟨0,.refl parse,.inl ⟨rfl,.refl parse⟩⟩
  · rename_i unfit
    rw [if_neg unfit] at checked
    obtain ⟨alike,_,reported,_⟩ := dropOne_true noted checked
    exact ⟨1,alike,.inr ⟨reported,fun zero => by cases zero⟩⟩

theorem checkEntry_false (failed : parse.checkEntry.2 = false) : parse.checkEntry.1 = parse.look 1 := by
  rw [checkEntry] at failed ⊢
  split
  · rename_i fit
    rw [if_pos fit] at failed
    cases failed
  · rename_i unfit
    rw [if_neg unfit] at failed
    exact dropOne_false failed

theorem checkRound_marks (noted : parse.Noted) (label : Label) :
    ∃ count, Alike (parse.checkRound label) (parse.dropped count) ∧ Marks parse (parse.checkRound label) count := by
  rw [checkRound]
  dsimp only
  split
  · exact ⟨0,.refl parse,.inl ⟨rfl,.refl parse⟩⟩
  · let warned := parse.reportExtraneous
    have alike : Alike warned parse := parse.report_alike _ _
    have kept : Kept parse warned := parse.report_kept _ _
    have reported : warned.diagnostics ≠ [] := parse.report_noted _ _ noted
    let kinds := parse.next.kinds ∪ warned.resumable
    let widened := { warned with widened := (label,kinds) :: warned.widened }
    have recovering : widened.recovering = true := parse.report_recovering _ _
    obtain ⟨count,skips,_⟩ := skipTo_skips recovering kinds
    have same : Alike widened parse := ⟨alike.frame,alike.callers,alike.input⟩
    refine ⟨count,skips.alike.trans (same.dropped count),.inr ⟨?_,fun zero => ?_⟩⟩
    · exact fun quiet => reported (skips.diagnostics.symm.trans quiet)
    · rw [show widened.skipTo kinds = widened from skips.unmoved zero]
      exact ⟨kept.previous,kept.taken,kept.failedAfter,kept.failedLabels⟩

theorem GivesUp.after {before middle after : Parse} {label : Label} {first second : Nat}
    (alike : Alike middle (before.dropped first)) (kept : first = 0 → Kept before middle)
    (givesUp : GivesUp label middle after second) : GivesUp label before after (first + second) where
  alike := by
    rw [← dropped_add]
    exact givesUp.alike.trans ((alike.dropped second).goto [])
  noted := givesUp.noted
  once := by
    intro zero
    have marks := kept (by omega)
    have result := givesUp.once (by omega)
    rwa [marks.taken,marks.failedAfter,marks.failedLabels] at result
  outermost := by
    intro outer closed
    refine givesUp.outermost (alike.callers.trans ((dropped_callers first before).trans outer)) ?_
    rw [alike.input]
    exact dropped_closed first before closed

end Checks

theorem fail_abandoned {parse next : Parse}
    (head : parse.frame.todo = form :: rest) (named : form.label? = some label) {count : Nat}
    (alike : Alike next (parse.dropped count)) (marks : Marks parse next count) (noted : parse.Noted)
    (source : List Token) (cause : Cause) : Effect parse (next.fail source label cause) := by
  obtain ⟨_,givesUp⟩ := fail_givesUp (marks.noted noted) source label cause
  exact .abandoned head named (.inl rfl) (givesUp.after alike marks.kept) (.inl rfl)

theorem look_marks (parse : Parse) (distance : Nat) : Marks parse (parse.look distance) 0 :=
  .inl ⟨rfl,⟨rfl,rfl,rfl,rfl⟩,rfl,rfl⟩

theorem next_of_takes {parse : Parse}
    (head : parse.frame.todo = form :: rest) (takes : form.Takes kinds) : parse.next = ⟨kinds,false⟩ := by
  rw [next,head]
  cases takes with
  | token label kind => exact Todo.next_cons (.token label kind) rest
  | oneOf label kinds => exact Todo.next_cons (.oneOf label kinds) rest

theorem take_effect {parse : Parse} (noted : parse.Noted)
    (head : parse.frame.todo = form :: rest) (takes : form.Takes kinds)
    (named : form.label? = some label) (source : List Token) (isSet : Bool) :
    Effect parse (parse.take source label kinds isSet rest) := by
  rw [take]
  split
  · rename_i fits
    obtain ⟨settled,quiet,_⟩ := consume_marks parse.settle
    have alike : Alike parse.settle.consume parse.shift :=
      (consume_alike_shift parse.settle rfl).trans ⟨rfl,rfl,rfl⟩
    exact .matched head takes fits (alike.goto rest) settled quiet (consume_previous parse.settle)
  · rename_i unfit
    cases outcome : parse.dropOne? with
    | mk next dropped =>
      cases dropped with
      | true =>
        have facts := dropOne_true noted (congrArg Prod.snd outcome)
        rw [outcome] at facts
        obtain ⟨alike,settled,reported,expected⟩ := facts
        rw [Parse.expected,next_of_takes head takes] at expected
        have fits : kinds.contains parse.input.advance.current.kind = true := by
          rw [Input.current_advance]
          cases callers : parse.callers with
          | nil => simpa [expecting,callers] using expected
          | cons caller callers' => simpa [expecting,callers] using expected
        refine .matchedLate head takes fits (((consume_alike_shift next settled).trans alike.shift).goto rest) ?_
        exact fun quiet => reported ((consume_marks next).2.1.symm.trans quiet)
      | false =>
        have same := dropOne_false (congrArg Prod.snd outcome)
        rw [outcome] at same
        dsimp only at same ⊢
        subst same
        split
        · rename_i follows
          have absent : kinds.contains parse.input.current.kind = false := Bool.eq_false_iff.mpr unfit
          let warned := (parse.look 1).report (parse.look 1).input.current.place
            (.missing (parse.look 1).expected (parse.look 1).input.current.text)
          have alike : Alike warned parse := ((parse.look 1).report_alike _ _).trans ⟨rfl,rfl,rfl⟩
          have kept : Kept parse warned := (look_marks parse 1).kept rfl |>.trans ((parse.look 1).report_kept _ _)
          have reported : warned.diagnostics ≠ [] := (parse.look 1).report_noted _ _ noted
          cases isSet with
          | true => exact .supplied head takes absent follows (.inl (alike.goto rest)) ⟨kept.1,kept.2,kept.3,kept.4⟩ reported
          | false =>
            exact .supplied head takes absent follows (.inr ⟨_,_,(alike.add _).goto rest⟩) ⟨kept.1,kept.2,kept.3,kept.4⟩ reported
        · have alike : Alike (parse.look 1) (parse.dropped 0) := ⟨rfl,rfl,rfl⟩
          exact fail_abandoned head named alike (look_marks parse 1) noted source .mismatched

-- What a decision at the head of the list leads to.
structure Leads (todo : Todo) (mayPass : Bool) (options : List Todo) : Prop where
  two : mayPass = true → options.length = 2
  proper : ∀ option ∈ options, (Todo.reach option).Proper
  opens : ∀ kind index, Chosen kind mayPass options index → Todo.Opens kind todo (options.getD (index - 1) [])

theorem follow_effect {parse next : Parse} (noted : parse.Noted)
    (head : parse.frame.todo = form :: rest) (named : form.label? = some label) {count : Nat}
    (alike : Alike next (parse.dropped count)) (marks : Marks parse next count) {decision : Decision}
    (between : decision.Between options) (leads : Leads (form :: rest) mayPass options)
    (source : List Token) : Effect parse (next.follow source label decision mayPass options) := by
  obtain ⟨looked,same⟩ := pick_looks next decision mayPass
  have fits : ∀ index, (next.pick decision mayPass).2 = .ok index →
      Chosen next.input.current.kind mayPass options index := fun index => pick_fits between leads.proper leads.two
  rw [follow]
  cases picked : next.pick decision mayPass with
  | mk after outcome =>
    rw [picked] at same fits
    dsimp only at same
    subst same
    -- Looking ahead changes neither the frames nor what was noted.
    have alike' : Alike { next with looked } (parse.dropped count) := ⟨alike.frame,alike.callers,alike.input⟩
    have marks' : Marks parse { next with looked } count := marks.calm ⟨⟨rfl,rfl,rfl,rfl⟩,rfl,rfl⟩
    cases outcome with
    | ok index =>
      have opens := leads.opens _ _ (fits index rfl)
      rw [← head] at opens
      exact .opened opens (alike'.goto _) (marks'.calm ⟨⟨rfl,rfl,rfl,rfl⟩,rfl,rfl⟩)
    | error cause => exact fail_abandoned head named alike' marks' noted source cause

theorem enter_effect {parse : Parse} (noted : parse.Noted)
    (head : parse.frame.todo = form :: rest) (named : form.label? = some label)
    (between : (Decision.get label).Between options) (leads : Leads (form :: rest) mayPass options)
    (source : List Token) : Effect parse (parse.enter source label mayPass options) := by
  rw [enter]
  cases checked : parse.checkEntry with
  | mk next passed =>
    cases passed with
    | true =>
      have facts := checkEntry_true noted (congrArg Prod.snd checked)
      rw [checked] at facts
      obtain ⟨count,alike,marks⟩ := facts
      exact follow_effect noted head named alike marks between leads source
    | false =>
      have same := checkEntry_false (congrArg Prod.snd checked)
      rw [checked] at same
      dsimp only at same ⊢
      subst same
      have alike : Alike (parse.look 1) (parse.dropped 0) := ⟨rfl,rfl,rfl⟩
      exact fail_abandoned head named alike (look_marks parse 1) noted source .mismatched

section Leading

variable {rest : Todo}

theorem choice_leads {label : Label} {options : List (Form Label)}
    (place : .choice label options :: rest ∈ Grammar.places) :
    Leads (.choice label options :: rest) false (Todo.options (.choice label options :: rest)) where
  two := fun passes => by cases passes
  proper := fun _ member => Grammar.options_proper place member
  opens := by
    rintro kind index ⟨option,found,fits | ⟨passes,_⟩⟩
    · obtain ⟨form,listed,rfl⟩ := List.mem_map.mp (List.mem_of_getElem? found)
      rw [List.getD_eq_getElem?_getD,found]
      exact .choice listed fits
    · cases passes

theorem pair_opens (enters : ∀ kind, Todo.Fits kind body → Todo.Opens kind todo body)
    (passes : ∀ kind, Todo.Fits kind rest ∨ (Todo.next body).kinds.contains kind = false → Todo.Opens kind todo rest)
    (kind : Kind) (index : Nat) (chosen : Chosen kind true [body,rest] index) :
    Todo.Opens kind todo ([body,rest].getD (index - 1) []) := by
  obtain ⟨option,found,reason⟩ := chosen
  rw [List.getD_eq_getElem?_getD,found]
  change Todo.Opens kind todo option
  match place : index - 1, found with
  | 0, found =>
    cases Option.some.inj found
    rcases reason with fits | ⟨_,second,_⟩
    · exact enters kind fits
    · omega
  | 1, found =>
    cases Option.some.inj found
    rcases reason with fits | ⟨_,_,absent⟩
    · exact passes kind (.inl fits)
    · exact passes kind (.inr (absent body rfl))

theorem optional_leads {label : Label} {body : Form Label} (place : .optional label body :: rest ∈ Grammar.places) :
    Leads (.optional label body :: rest) true (Todo.options (.optional label body :: rest)) where
  two := fun _ => rfl
  proper := fun _ member => Grammar.options_proper place member
  opens := pair_opens (fun _ fits => .enter fits) fun _ free => .pass free

theorem loop_leads (repeats : rounds ≠ .atLeastOne)
    (place : .loop .again entry back body :: rest ∈ Grammar.places) :
    Leads (.loop rounds entry back body :: rest) true (Todo.options (.loop rounds entry back body :: rest)) where
  two := fun _ => rfl
  proper := fun _ member => Grammar.options_proper place member
  opens := pair_opens (fun _ fits => .round repeats fits) fun _ free => .stop repeats free

end Leading

theorem again_mem_places (sited : Todo.Sited rule (.loop rounds entry back body :: rest)) :
    .loop .again entry back body :: rest ∈ Grammar.places :=
  Grammar.mem_places (sited.1 _ (by simp [Form.spots])) rfl

theorem step_effect {parse : Parse} (noted : parse.Noted) (sited : Todo.Sited parse.frame.rule parse.frame.todo)
    (source : List Token) :
    (∃ after, parse.step source = .more after ∧ Effect parse after) ∨
      (parse.step source = .finished (parse.frame.close parse.previous) parse ∧ parse.frame.todo = [] ∧
        parse.callers = []) := by
  rw [step]
  match head : parse.frame.todo, sited with
  | [], _ =>
    rw [leave]
    cases below : parse.callers with
    | nil => exact .inr ⟨rfl,rfl,rfl⟩
    | cons caller callers => exact .inl ⟨_,rfl,.left head below (.refl _) ⟨⟨rfl,rfl,rfl,rfl⟩,rfl,rfl⟩⟩
  | .skip :: rest, _ =>
    exact .inl ⟨_,rfl,.opened (head ▸ .skip) (.refl _) (.inl ⟨rfl,⟨rfl,rfl,rfl,rfl⟩,rfl,rfl⟩)⟩
  | .seq first second :: rest, _ =>
    exact .inl ⟨_,rfl,.opened (head ▸ .seq) (.refl _) (.inl ⟨rfl,⟨rfl,rfl,rfl,rfl⟩,rfl,rfl⟩)⟩
  | .token label kind :: rest, _ => exact .inl ⟨_,rfl,take_effect noted head (.token label kind) rfl source false⟩
  | .oneOf label kinds :: rest, _ => exact .inl ⟨_,rfl,take_effect noted head (.oneOf label kinds) rfl source true⟩
  | .call label rule level :: rest, _ =>
    exact .inl ⟨_,rfl,.called head (.refl _) ⟨⟨rfl,rfl,rfl,rfl⟩,rfl,rfl⟩⟩
  | .wrap label level :: rest, _ =>
    refine .inl ⟨_,rfl,?_⟩
    split
    · rename_i within
      exact .wrapped head within (.refl _) ⟨⟨rfl,rfl,rfl,rfl⟩,rfl,rfl⟩
    · obtain ⟨_,givesUp⟩ := fail_givesUp (show parse.wrap.Noted from noted) source label (.noOption parse.input.current)
      exact .abandoned head rfl (.inr rfl) givesUp (.inr ⟨level,rfl⟩)
  | .choice label options :: rest, sited =>
    have place := Grammar.mem_places sited.mem rfl
    exact .inl ⟨_,rfl,enter_effect noted head rfl (Decision.get_choice place) (choice_leads place) source⟩
  | .optional label body :: rest, sited =>
    have place := Grammar.mem_places sited.mem rfl
    exact .inl ⟨_,rfl,enter_effect noted head rfl (Decision.get_optional place) (optional_leads place) source⟩
  | .loop .many entry back body :: rest, sited =>
    have place := again_mem_places sited
    exact .inl ⟨_,rfl,enter_effect noted head rfl (Decision.get_loop place) (loop_leads (by decide) place) source⟩
  | .loop .atLeastOne entry back body :: rest, _ =>
    refine .inl ⟨_,rfl,?_⟩
    cases checked : parse.checkEntry with
    | mk next passed =>
      cases passed with
      | true =>
        have facts := checkEntry_true noted (congrArg Prod.snd checked)
        rw [checked] at facts
        obtain ⟨count,alike,marks⟩ := facts
        exact .opened (head ▸ .first) (alike.goto _) (marks.calm ⟨⟨rfl,rfl,rfl,rfl⟩,rfl,rfl⟩)
      | false =>
        have same := checkEntry_false (congrArg Prod.snd checked)
        rw [checked] at same
        dsimp only at same ⊢
        subst same
        have alike : Alike (parse.look 1) (parse.dropped 0) := ⟨rfl,rfl,rfl⟩
        exact fail_abandoned head rfl alike (look_marks parse 1) noted source .mismatched
  | .loop .again entry back body :: rest, sited =>
    have place := again_mem_places sited
    obtain ⟨count,alike,marks⟩ := checkRound_marks noted back
    exact .inl ⟨_,rfl,
      follow_effect noted head rfl alike marks (Decision.get_loop place) (loop_leads (by decide) place) source⟩

end Parse

end SolReader
