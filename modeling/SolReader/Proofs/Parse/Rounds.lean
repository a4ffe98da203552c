import Mathlib.Logic.Relation
import SolReader.Proofs.Parse.Onward

namespace SolReader

namespace Parse

variable {outer : List Frame} {title : Rule × Nat × Option Label}

-- A round is going on in the frame at some depth: a rule that it called is being read, or some of it is left to do before
-- the end of the round.
def Inside (depth : Nat) (tail : Todo) (parse : Parse) : Prop :=
  depth < parse.callers.length ∨ (parse.callers.length = depth ∧ ∃ form rest, parse.frame.todo = form :: (rest ++ tail))

-- What comes of a parse while the round goes on, up to the first state after it.
inductive Within (source : List Token) (depth : Nat) (tail : Todo) (first : Parse) : Parse → Prop where
  | start : Within source depth tail first first
  | step {before after : Parse} (within : Within source depth tail first before) (inside : before.Inside depth tail)
      (next : before.step source = .more after) : Within source depth tail first after

-- The frames below the loop's stay as they are, and its own is for the same.
def Based (outer : List Frame) (title : Rule × Nat × Option Label) (parse : Parse) : Prop :=
  ∃ upper frame, parse.frame :: parse.callers = upper ++ frame :: outer ∧ frame.title = title

theorem Effect.based (effect : Effect before after) (based : Based outer title before)
    (inside : before.Inside outer.length tail) : Based outer title after := by
  obtain ⟨upper,frame,stack,same⟩ := based
  rcases effect.stack with ⟨callers,goes⟩ | ⟨todo,callers⟩ | ⟨done,caller,tree,callers,closed⟩
  · cases upper with
    | nil =>
      obtain ⟨rfl,rfl⟩ := List.cons.inj stack
      exact ⟨[],after.frame,by rw [callers]; rfl,goes.trans same⟩
    | cons top upper =>
      obtain ⟨_,rest⟩ := List.cons.inj stack
      exact ⟨after.frame :: upper,frame,by rw [callers,rest]; rfl,same⟩
  · cases upper with
    | nil =>
      obtain ⟨rfl,rfl⟩ := List.cons.inj stack
      exact ⟨[after.frame],{ before.frame with todo },by rw [callers]; rfl,same⟩
    | cons top upper =>
      obtain ⟨_,rest⟩ := List.cons.inj stack
      exact ⟨after.frame :: { before.frame with todo } :: upper,frame,by rw [callers,rest]; rfl,same⟩
  · cases upper with
    | nil =>
      -- The loop's own frame is not closed while the round goes on.
      obtain ⟨rfl,rfl⟩ := List.cons.inj stack
      rcases inside with deeper | ⟨_,form,rest,todo⟩
      · exact absurd deeper (Nat.lt_irrefl _)
      · rw [done] at todo
        cases todo
    | cons top upper =>
      obtain ⟨_,rest⟩ := List.cons.inj stack
      rw [callers] at rest
      cases upper with
      | nil =>
        obtain ⟨rfl,rfl⟩ := List.cons.inj rest
        exact ⟨[],after.frame,rfl,by rw [closed]; exact same⟩
      | cons second upper =>
        obtain ⟨_,below⟩ := List.cons.inj rest
        exact ⟨after.frame :: upper,frame,by rw [below]; rfl,same⟩

theorem Based.same {parse : Parse} (based : Based outer title parse) (depth : parse.callers.length = outer.length) :
    parse.callers = outer ∧ parse.frame.title = title := by
  obtain ⟨upper,frame,stack,same⟩ := based
  have lengths := congrArg List.length stack
  rw [List.length_cons,List.length_append,List.length_cons,depth] at lengths
  have absent : upper = [] := List.length_eq_zero_iff.mp (by omega)
  rw [absent] at stack
  obtain ⟨rfl,below⟩ := List.cons.inj stack
  exact ⟨below,same⟩

section Round

variable {last one two before after : Parse}
variable {source : List Token} {tail : Todo} {first : Parse}

-- What holds at the start of a round and is kept as long as no token is taken holds at its end if none was taken.
theorem Within.keeps (Keeps : Parse → Prop)
    (step : ∀ {before after : Parse}, Placed before → before.input = first.input → Keeps before →
      before.step source = .more after → Effect before after → after.input = first.input → Keeps after)
    (placed : Placed first) (kept : Keeps first) (within : Within source first.callers.length tail first last) :
    Placed last ∧ Based first.callers first.frame.title last ∧
      (last.input = first.input ∧ Keeps last ∨ last.input.later.length < first.input.later.length) := by
  induction within with
  | start => exact ⟨placed,⟨[],first.frame,rfl,rfl⟩,.inl ⟨rfl,kept⟩⟩
  | @step before after _ inside next ih =>
    obtain ⟨placed,based,so_far⟩ := ih
    have effect := placed.effect next
    refine ⟨effect.placed placed,effect.based based inside,?_⟩
    rcases so_far with ⟨idle,keeps⟩ | shorter
    · rcases effect.ahead with stays | shorter
      · exact .inl ⟨stays.trans idle,step placed idle keeps next effect (stays.trans idle)⟩
      · exact .inr (idle ▸ shorter)
    · rcases effect.ahead with stays | further
      · exact .inr (stays ▸ shorter)
      · exact .inr (Nat.lt_trans further shorter)

-- The round has come closer to the token without anything going wrong, and any parse with the same work would.
structure Approaching (source : List Token) (tail : Todo) (first parse : Parse) : Prop where
  place : ∃ front suffix, parse.frame.todo = front ++ suffix ∧ Todo.Awaits first.input.current.kind front ∧
    first.callers.length ≤ parse.callers.length ∧ (parse.callers.length = first.callers.length → suffix = tail)
  replay : ∀ twin, Twin first twin → Placed twin → ∃ other, Within source first.callers.length tail twin other ∧
    Placed other ∧ Twin parse other ∧ Kept twin other

-- A rule has been given up in the round, and any parse with the same work would give it up at the same label.
structure Failed (source : List Token) (tail : Todo) (first parse : Parse) (label : Label) : Prop where
  recovering : parse.recovering = true
  failedAfter : parse.failedAfter = some parse.taken
  failedLabels : label ∈ parse.failedLabels
  replay : ∀ twin, Twin first twin → Placed twin → ∃ stuck after form rest,
    Within source first.callers.length tail twin stuck ∧ stuck.Inside first.callers.length tail ∧ Kept twin stuck ∧
      stuck.input = twin.input ∧ stuck.frame.todo = form :: rest ∧ form.label? = some label ∧
      stuck.step source = .more after ∧ Fails label stuck after

theorem Twin.depth (twin : Twin one two) : one.callers.length = two.callers.length := by
  have lengths := congrArg List.length twin.callers
  rwa [List.length_map,List.length_map] at lengths

theorem Approaching.inside {parse : Parse} (approaching : Approaching source tail first parse) :
    parse.Inside first.callers.length tail := by
  obtain ⟨front,suffix,todo,awaits,deep,atDepth⟩ := approaching.place
  rcases Nat.lt_or_eq_of_le deep with deeper | same
  · exact .inl deeper
  · cases front with
    | nil => exact absurd awaits Todo.not_awaits_nil
    | cons form front => exact .inr ⟨same.symm,form,front,atDepth same.symm ▸ todo⟩

theorem Twin.inside (twin : Twin one two) {depth : Nat} (inside : one.Inside depth tail) : two.Inside depth tail := by
  rw [Inside,twin.depth,twin.todo] at inside
  exact inside

theorem Approaching.step (approaching : Approaching source tail first before)
    (placed : Placed before) (idle : before.input = first.input) (more : first.input.atEnd = false)
    (next : before.step source = .more after) (stays : after.input = first.input) :
    Approaching source tail first after ∨ ∃ label, Failed source tail first after label := by
  have inside := approaching.inside
  obtain ⟨front,suffix,todo,awaits,deep,atDepth⟩ := approaching.place
  rw [← idle] at awaits more
  have same {other : Parse} (step : before.step source = .more other) : other = after := by
    rw [next] at step
    exact (Step.more.inj step).symm
  cases step_onward placed more todo awaits source with
  | taken step shorter =>
    rw [same step,stays,idle] at shorter
    exact absurd shorter (Nat.lt_irrefl _)
  | @failed label form rest head named all =>
    obtain ⟨other,step,fails⟩ := all before (.refl before) placed.noted
    cases same step
    obtain ⟨_,taken,failedAfter,failedLabels,_⟩ := fails.fresh (by rw [stays,idle])
    refine .inr ⟨label,fails.recovering,failedAfter.trans (by rw [taken]),failedLabels,fun twin alike ready => ?_⟩
    obtain ⟨stuck,within,placed',twins,kept⟩ := approaching.replay twin alike ready
    obtain ⟨reached,step',fails'⟩ := all stuck twins placed'.noted
    exact ⟨stuck,reached,form,rest,within,twins.inside inside,kept,
      (twins.input.symm.trans idle).trans alike.input,twins.todo ▸ head,named,step',fails'⟩
  | @closer other step input place all =>
    cases same step
    refine .inl ⟨?_,fun twin alike ready => ?_⟩
    · rw [idle] at place
      rcases place with ⟨callers,front',todo',awaits'⟩ | ⟨deeper,awaits'⟩
      · exact ⟨front',suffix,todo',awaits',callers ▸ deep,fun level => atDepth (callers ▸ level)⟩
      · exact ⟨_,[],(List.append_nil _).symm,awaits',by omega,fun level => by omega⟩
    · obtain ⟨other,within,placed',twins,kept⟩ := approaching.replay twin alike ready
      obtain ⟨reached,step',twins',kept'⟩ := all other twins placed'.noted
      exact ⟨reached,.step within (twins.inside inside) step',(placed'.effect step').placed placed',twins',
        kept.trans kept'⟩

theorem Failed.step {label : Label} (failed : Failed source tail first before label)
    (placed : Placed before) (idle : before.input = first.input) (more : first.input.atEnd = false)
    (next : before.step source = .more after) (stays : after.input = first.input) :
    Failed source tail first after label := by
  rw [← idle] at more stays
  obtain ⟨taken,keeps⟩ := (placed.effect next).kept more stays
  obtain ⟨failedAfter,failedLabels⟩ := keeps failed.failedAfter
  exact ⟨step_recovering placed.noted failed.recovering more next (by rw [stays]),taken ▸ failedAfter,
    failedLabels label failed.failedLabels,failed.replay⟩

-- A round for which the token fits and that takes no token ends with a rule given up.
theorem Within.failed (placed : Placed first) (more : first.input.atEnd = false) {body : Form Label}
    (todo : first.frame.todo = body :: tail) (awaits : Todo.Awaits first.input.current.kind [body])
    (within : Within source first.callers.length tail first last) (ended : last.frame.todo = tail)
    (depth : last.callers.length = first.callers.length) (idle : last.input = first.input) :
    ∃ label, Failed source tail first last label := by
  have started : Approaching source tail first first :=
    ⟨⟨[body],tail,todo,awaits,Nat.le_refl _,fun _ => rfl⟩,fun twin alike ready =>
      ⟨twin,.start,ready,alike,.refl twin⟩⟩
  obtain ⟨_,_,outcome⟩ := within.keeps
    (fun parse => Approaching source tail first parse ∨ ∃ label, Failed source tail first parse label)
    (fun placed idle stage next _ stays => by
      rcases stage with approaching | ⟨label,failed⟩
      · exact approaching.step placed idle more next stays
      · exact .inr ⟨label,failed.step placed idle more next stays⟩)
    placed (.inl started)
  rcases outcome with ⟨_,approaching | failed⟩ | shorter
  · -- Some of the round would be left to do.
    obtain ⟨front,suffix,todo,awaits,_,atDepth⟩ := approaching.place
    rw [atDepth depth,ended] at todo
    have absent : front = [] := by simpa using todo
    rw [absent] at awaits
    exact absurd awaits Todo.not_awaits_nil
  · exact failed
  · rw [idle] at shorter
    exact absurd shorter (Nat.lt_irrefl _)

end Round

-- One round of a loop, from the step that enters it to where the loop can begin another one or be left.
structure Round (source : List Token) (entry back : Label) (body : Form Label) (rest : Todo)
    (before first last : Parse) : Prop where
  head : ∃ rounds, before.frame.todo = .loop rounds entry back body :: rest
  enters : before.step source = .more first
  entered : first.frame.todo = body :: .loop .again entry back body :: rest
  within : Within source first.callers.length (.loop .again entry back body :: rest) first last
  depth : last.callers.length = first.callers.length
  ended : last.frame.todo = .loop .again entry back body :: rest

-- The rule is given up at a label where that has happened before at the same token, and a token is dropped.
def Failsafe (source : List Token) (parse : Parse) : Prop :=
  ∃ label form rest after, parse.frame.todo = form :: rest ∧ form.label? = some label ∧
    parse.failedAfter = some parse.taken ∧ label ∈ parse.failedLabels ∧ parse.step source = .more after ∧
    after.frame.todo = [] ∧ after.input.later.length < parse.input.later.length

-- After a round the loop is left, or another round begins at the same token, and a rule given up again in it drops one.
def Resolved (source : List Token) (entry back : Label) (body : Form Label) (rest : Todo) (last : Parse) : Prop :=
  ∃ next, last.step source = .more next ∧ next.callers = last.callers ∧
    (next.frame.todo = [] ∨ next.frame.todo = rest ∨
      (next.frame.todo = body :: .loop .again entry back body :: rest ∧ next.input = last.input ∧
        ∃ stuck, Within source next.callers.length (.loop .again entry back body :: rest) next stuck ∧
          stuck.Inside next.callers.length (.loop .again entry back body :: rest) ∧ stuck.input = next.input ∧
          Failsafe source stuck))

section Loops

variable {before after parse first last : Parse}
variable {source : List Token} {entry back : Label} {body : Form Label} {rest : Todo}

theorem Effect.looped (effect : Effect before after)
    (head : before.frame.todo = .loop rounds entry back body :: rest) : after.callers = before.callers ∧
      after.frame.title = before.frame.title ∧ (after.frame.todo = [] ∨ after.frame.todo = rest ∨
        (after.frame.todo = body :: .loop .again entry back body :: rest ∧
          (rounds ≠ .atLeastOne → Todo.Fits after.input.current.kind (body :: .loop .again entry back body :: rest)))) := by
  cases effect with
  | left done =>
    rw [head] at done
    cases done
  | @opened count todo opens alike =>
    have todo_eq : after.frame.todo = todo := by rw [alike.frame]; rfl
    refine ⟨alike.callers.trans (dropped_callers count before),alike.title.trans (dropped_title count before),?_⟩
    rw [todo_eq]
    rw [head] at opens
    cases opens with
    | first => exact .inr (.inr ⟨rfl,fun repeats => absurd rfl repeats⟩)
    | round repeats fits => exact .inr (.inr ⟨rfl,fun _ => fits⟩)
    | stop => exact .inr (.inl rfl)
  | called call =>
    rw [head] at call
    cases call
  | wrapped wrap =>
    rw [head] at wrap
    cases wrap
  | matched first takes =>
    rw [head] at first
    cases first
    cases takes
  | matchedLate first takes =>
    rw [head] at first
    cases first
    cases takes
  | supplied first takes =>
    rw [head] at first
    cases first
    cases takes
  | @abandoned _ _ _ base count _ _ origin givesUp =>
    have same := origin_same origin
    refine ⟨givesUp.alike.callers.trans ((dropped_callers count base).trans same.1),
      givesUp.alike.title.trans ((dropped_title count base).trans (origin_title origin)),.inl ?_⟩
    rw [givesUp.alike.frame]
    rfl

theorem round_ne_rest : rest ≠ body :: .loop .again entry back body :: rest := fun same => by
  have lengths := congrArg List.length same
  rw [List.length_cons,List.length_cons] at lengths
  omega

theorem next_first (head : parse.frame.todo = .loop .atLeastOne entry back body :: rest)
    (filled : (body.next Rule.next).ends = false) : parse.next = body.next Rule.next := by
  rw [Parse.next,head]
  change ((Form.loop .atLeastOne entry back body).next Rule.next).andThen (Todo.next rest) = _
  rw [Form.next,Next.andThen,filled]
  rfl

theorem checkEntry_first (noted : parse.Noted) (head : parse.frame.todo = .loop .atLeastOne entry back body :: rest)
    (filled : (body.next Rule.next).ends = false) (passed : parse.checkEntry.2 = true) :
    parse.checkEntry.1.recovering = true ∨
      (body.next Rule.next).kinds.contains parse.checkEntry.1.input.current.kind = true := by
  have next := next_first head filled
  rw [checkEntry] at passed ⊢
  rw [next,filled] at passed ⊢
  split
  · rename_i fit
    simpa using fit
  · rename_i unfit
    rw [if_neg unfit] at passed
    obtain ⟨alike,_,_,expected⟩ := dropOne_true noted passed
    rw [Parse.expected,next] at expected
    refine .inr ?_
    rw [alike.input,show parse.drop.input.current = parse.input.second from Input.current_advance parse.input]
    cases callers : parse.callers with
    | nil => simpa [expecting,filled,callers] using expected
    | cons caller callers' => simpa [expecting,filled,callers] using expected

theorem Round.fits (round : Round source entry back body rest before first last)
    (placed : Placed before) : first.recovering = true ∨
      Todo.Fits first.input.current.kind (body :: .loop .again entry back body :: rest) := by
  obtain ⟨rounds,head⟩ := round.head
  have entered := round.entered
  obtain ⟨_,_,outcome⟩ := (placed.effect round.enters).looped head
  rcases outcome with done | left | ⟨_,fits⟩
  · rw [entered] at done
    cases done
  · rw [entered] at left
    exact absurd left.symm round_ne_rest
  · cases rounds with
    | many => exact .inr (fits (by decide))
    | again => exact .inr (fits (by decide))
    | atLeastOne =>
      have filled := (head ▸ placed.top).filled.1
      have facts := checkEntry_first placed.noted head filled
      have step := round.enters
      rw [Parse.step,head] at step
      dsimp only at step
      cases checked : before.checkEntry with
      | mk next passed =>
        rw [checked] at step facts
        cases passed with
        | true =>
          cases step
          refine (facts rfl).imp_right fun starts => .inr ?_
          rw [Todo.next_cons,Next.contains_andThen,Bool.or_eq_true]
          exact .inl starts
        | false =>
          cases step
          rw [fail_todo] at entered
          cases entered

theorem again_kept (head : before.frame.todo = .loop .again entry back body :: rest)
    (recovering : before.recovering = true) (step : before.step source = .more after) (busy : after.frame.todo ≠ []) :
    after.input = before.input ∧ Kept before after := by
  rw [Parse.step,head] at step
  dsimp only at step
  rw [checkRound_recovering recovering,branch,follow] at step
  obtain ⟨looked,same⟩ := pick_looks before (Decision.get entry) true
  cases picked : before.pick (Decision.get entry) true with
  | mk next outcome =>
    rw [picked] at step same
    dsimp only at same
    subst same
    cases outcome with
    | ok index =>
      cases step
      exact ⟨rfl,rfl,rfl,rfl,rfl⟩
    | error cause =>
      cases step
      exact absurd (fail_todo ..) busy

theorem Round.recovering (round : Round source entry back body rest before first last)
    (placed : Placed before) (idle : last.input = first.input) (more : first.input.atEnd = false) :
    last.recovering = true ∧ (Todo.Fits first.input.current.kind (body :: .loop .again entry back body :: rest) →
      ∃ label, Failed source (.loop .again entry back body :: rest) first last label) := by
  have started := (placed.effect round.enters).placed placed
  obtain ⟨rounds,head⟩ := round.head
  have failed (fits : Todo.Fits first.input.current.kind (body :: .loop .again entry back body :: rest)) :=
    round.within.failed started more round.entered ((head ▸ placed.top).awaits fits) round.ended round.depth idle
  refine ⟨?_,failed⟩
  rcases round.fits placed with recovering | fits
  · obtain ⟨_,_,⟨_,stays⟩ | shorter⟩ := round.within.keeps (fun parse => parse.recovering = true)
      (fun placed idle recovering next _ stays => by
        rw [← idle] at more stays
        exact step_recovering placed.noted recovering more next (by rw [stays]))
      started recovering
    · exact stays
    · rw [idle] at shorter
      exact absurd shorter (Nat.lt_irrefl _)
  · obtain ⟨_,failed⟩ := failed fits
    exact failed.recovering

theorem Round.resolved (round : Round source entry back body rest before first last)
    (placed : Placed before) (idle : last.input = first.input) : Resolved source entry back body rest last := by
  have started := (placed.effect round.enters).placed placed
  obtain ⟨rounds,head⟩ := round.head
  obtain ⟨ready,based,_⟩ := round.within.keeps (fun _ => True) (fun _ _ _ _ _ _ => trivial) started trivial
  obtain ⟨below,title⟩ := based.same round.depth
  rcases step_effect ready.noted ready.top source with ⟨next,step,effect⟩ | ⟨_,done,_⟩
  · obtain ⟨callers,title',outcome⟩ := effect.looped round.ended
    refine ⟨next,step,callers,?_⟩
    rcases outcome with done | left | ⟨again,fits⟩
    · exact .inl done
    · exact .inr (.inl left)
    · have fits := fits (by decide)
      cases more : first.input.atEnd with
      | true =>
        -- No round begins at the end of the text.
        have stays : next.input = last.input := by
          have absent : last.input.later.length = 0 := by rw [idle]; exact List.length_eq_zero_iff.mpr (List.isEmpty_iff.mp more)
          exact effect.ahead.resolve_right fun shorter => by omega
        have held := (head ▸ placed.top).round_holds fits
        rw [stays,idle,(Input.atEnd_iff started.closed).mp more,Form.holds_eof] at held
        cases held
      | false =>
        obtain ⟨recovering,failed⟩ := round.recovering placed idle more
        have busy : next.frame.todo ≠ [] := fun done => by
          rw [again] at done
          cases done
        obtain ⟨stays,kept⟩ := again_kept round.ended recovering step busy
        rw [stays,idle] at fits
        obtain ⟨label,failed⟩ := failed fits
        have twin : Twin first next := by
          refine ⟨?_,?_,(stays.trans idle).symm⟩
          · rw [Frame.work,Frame.work,title',title,again,round.entered]
          · rw [callers,below]
        obtain ⟨stuck,after,form,left,within,inside,keeps,input,todo,named,step',fails⟩ :=
          failed.replay next twin (effect.placed ready)
        have depth : first.callers.length = next.callers.length := twin.depth
        rw [depth] at within inside
        -- Nothing was taken since the rule was given up there.
        have both := kept.trans keeps
        have failedAfter : stuck.failedAfter = some stuck.taken := by
          rw [both.failedAfter,both.taken]
          exact failed.failedAfter
        have failedLabels : label ∈ stuck.failedLabels := by
          rw [both.failedLabels]
          exact failed.failedLabels
        have shorter : after.input.later.length < stuck.input.later.length := by
          refine Nat.lt_of_le_of_ne fails.shorter fun same => ?_
          obtain ⟨_,_,_,_,unseen⟩ := fails.fresh same
          exact unseen ⟨failedAfter,failedLabels⟩
        exact .inr (.inr ⟨again,stays,stuck,within,inside,input,label,form,left,after,todo,named,failedAfter,
          failedLabels,step',fails.done,shorter⟩)
  · rw [round.ended] at done
    cases done

end Loops

-- What a parse can come to.
def Reaches (source : List Token) : Parse → Parse → Prop :=
  Relation.ReflTransGen fun before after => before.step source = .more after

theorem Reaches.placed (reaches : Reaches source first last) (placed : Placed first) : Placed last := by
  induction reaches with
  | refl => exact placed
  | tail _ step ih => exact (ih.effect step).placed ih

section Concrete

variable {count : Nat} {first last : Parse}
variable {source : List Token}

-- The state after so many steps.
def after? (source : List Token) : Nat → Parse → Option Parse
  | 0, parse => some parse
  | count + 1, parse => match parse.step source with
    | .more next => after? source count next
    | .finished _ _ => none

theorem reaches_of_after (found : after? source count first = some last) : Reaches source first last := by
  induction count generalizing first with
  | zero =>
    cases found
    exact .refl
  | succ count ih =>
    rw [after?] at found
    split at found
    · rename_i next step
      exact .head step (ih found)
    · cases found

-- The first state, within so many steps, in which the frames above some depth are closed.
def returned? (source : List Token) (depth : Nat) : Nat → Parse → Option Parse
  | 0, _ => none
  | count + 1, parse => match parse.step source with
    | .more next => if next.callers.length = depth then some next else returned? source depth count next
    | .finished _ _ => none

theorem within_of_returned {parse : Parse} {frame : Frame}
    (placed : Placed parse) (stack : parse.callers = upper ++ frame :: outer)
    (within : Within source outer.length tail first parse)
    (found : returned? source outer.length count parse = some last) :
    Within source outer.length tail first last ∧ last.callers = outer ∧ ∃ tree, last.frame = frame.add tree := by
  induction count generalizing parse upper with
  | zero => cases found
  | succ count ih =>
    rw [returned?] at found
    split at found
    · rename_i next step
      have deep : outer.length < parse.callers.length := by
        rw [stack,List.length_append,List.length_cons]
        omega
      have onward := within.step (.inl deep) step
      have effect := placed.effect step
      rcases effect.below stack with ⟨upper',below⟩ | ⟨below,closed⟩
      · have deeper : next.callers.length ≠ outer.length := by
          rw [below,List.length_append,List.length_cons]
          omega
        rw [if_neg deeper] at found
        exact ih (effect.placed placed) below onward found
      · rw [if_pos (congrArg List.length below)] at found
        cases found
        exact ⟨onward,below,closed⟩
    · cases found

-- The loop enters a round that calls a rule, and the round comes to its end at the same token.
def isIdle (source : List Token) (before : Parse) (count : Nat) : Bool :=
  match before.frame.todo, before.step source with
  | .loop _ _ _ _ :: rest, .more first =>
    match first.frame.todo, first.step source with
    | .call _ _ _ :: left, .more second => left.length == rest.length + 1 &&
        (returned? source before.callers.length count second).any fun last => last.input == first.input
    | _, _ => false
  | _, _ => false

theorem round_of_idle (placed : Placed before) (idle : isIdle source before count = true) :
    ∃ entry back body rest first last, Round source entry back body rest before first last ∧ last.input = first.input := by
  rw [isIdle] at idle
  split at idle
  · rename_i rounds entry back body rest first head enters
    split at idle
    · rename_i label rule level left second call next
      rw [Bool.and_eq_true,beq_iff_eq] at idle
      obtain ⟨longer,idle⟩ := idle
      obtain ⟨last,found,same⟩ := (Option.any_eq_true ..).mp idle
      have effect := placed.effect enters
      obtain ⟨callers,_,outcome⟩ := effect.looped head
      have entered : first.frame.todo = body :: .loop .again entry back body :: rest := by
        have lengths := congrArg List.length call
        rw [List.length_cons,longer] at lengths
        rcases outcome with absent | passed | ⟨entered,_⟩
        · rw [absent] at lengths
          cases lengths
        · rw [passed] at lengths
          omega
        · exact entered
      have tail : left = .loop .again entry back body :: rest :=
        (List.cons.inj (call.symm.trans entered)).2
      have started := effect.placed placed
      have inside : first.Inside first.callers.length left := .inr ⟨rfl,_,[],call⟩
      have within : Within source first.callers.length left first second := .step .start inside next
      have below : second.callers = [] ++ { first.frame with todo := left } :: first.callers := by
        rw [Parse.step,call] at next
        cases next
        rfl
      rw [← callers] at found
      obtain ⟨within,depth,tree,frame⟩ := within_of_returned ((started.effect next).placed started) below within found
      subst tail
      refine ⟨entry,back,body,rest,first,last,⟨⟨rounds,head⟩,enters,entered,within,?_,?_⟩,beq_iff_eq.mp same⟩
      · rw [depth]
      · rw [frame]
        rfl
    · cases idle
  · cases idle

-- A block that holds nothing but a word, which is no statement.
def wordBlock : Input :=
  ⟨⟨.lbrace,"\x7b",⟨1,0⟩,0,1⟩,[⟨.identifier,"a",⟨1,1⟩,1,1⟩,⟨.rbrace,"\x7d",⟨1,2⟩,2,1⟩,.endOfText ⟨1,3⟩ 3]⟩

set_option maxRecDepth 100000 in
theorem wordBlock_idle : ((after? [] 3 (start .block wordBlock)).any fun before => isIdle [] before 6) = true := by
  decide +kernel

end Concrete

-- Whatever the tokens are, the parse comes to its end, and a round of a loop that takes no token is not repeated for ever.
theorem outcome_halts (source : List Token) (rule : Rule) (input : Input) (closed : Token.Closed input.ahead) :
    (outcome source rule input).2.2 = true ∧
      ∀ entry back body rest before first last, Reaches source (start rule input) before →
        Round source entry back body rest before first last → last.input = first.input →
          Resolved source entry back body rest last :=
  ⟨outcome_complete source rule closed,fun _ _ _ _ _ _ _ reaches round idle =>
    round.resolved (reaches.placed (start_placed closed)) idle⟩

theorem wordBlock_halts : (outcome [] .block wordBlock).2.2 = true ∧ ∃ entry back body rest before first last,
    Round [] entry back body rest before first last ∧ last.input = first.input ∧
      Resolved [] entry back body rest last := by
  have closed : Token.Closed wordBlock.ahead := ⟨by decide,by decide,by decide,rfl⟩
  obtain ⟨halts,rounds⟩ := outcome_halts [] .block wordBlock closed
  obtain ⟨before,found,idle⟩ := (Option.any_eq_true ..).mp wordBlock_idle
  have reaches := reaches_of_after found
  obtain ⟨entry,back,body,rest,first,last,round,idle⟩ := round_of_idle (reaches.placed (start_placed closed)) idle
  exact ⟨halts,entry,back,body,rest,before,first,last,round,idle,rounds _ _ _ _ _ _ _ reaches round idle⟩

end Parse

end SolReader
