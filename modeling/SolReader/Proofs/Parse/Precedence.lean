import SolReader.Proofs.Ast.Known
import SolReader.Proofs.Grammar.Binding
import SolReader.Proofs.Parse.Clean
import SolReader.Proofs.Prediction.Seam
import SolReader.Proofs.Reading.Leaves

namespace SolReader

namespace Expression

-- The label under which it is decided whether an expression goes on.
def entry : Label :=
  match Rule.expression.form with
  | .seq _ (.loop _ entry _ _) => entry
  | _ => 0

-- A round that begins with this kind can have this level.
def tells (bound : Nat) (kind : Kind) : Bool :=
  (Rule.expression.rounds.any fun head => head.kinds.contains kind && head.level == some bound) &&
    if bound ≤ 14 then kind.binding? == some bound && !kind.isPostfix else kind.binding?.isNone && 20 ≤ bound

-- The list stands in the middle of a part: neither is a round decided on, nor has one just begun.
def isInside : Todo → Bool
  | [] => false
  | .loop _ _ _ _ :: _ => false
  | form :: _ => !form.grows

-- The next token is one of these kinds, whatever the callers are.
def isAmong (todo : Todo) (kinds : Kind → Bool) : Bool :=
  let next := Todo.reach todo
  next.calls.isEmpty && !next.ends && next.heads.all fun head =>
    Kind.all.all fun kind => !head.kinds.contains kind || kinds kind

def isOrdinary : Todo → Bool
  | .loop rounds label back body :: rest =>
    let round := Todo.reach (body :: .loop .again label back body :: rest)
    label == entry && body.grows && rest.isEmpty && rounds != .atLeastOne && round.isLeveled &&
      round.heads == Rule.expression.rounds
  | .wrap _ bound :: rest => isInside rest && isAmong rest (tells bound)
  | .call _ callee _ :: rest => !rest.isEmpty &&
    (callee != .expression || (Todo.reach rest).isLeveled ||
      isAmong rest fun kind => kind.binding?.isNone && !kind.isPostfix)
  | .skip :: _ => false
  | .optional _ _ :: rest => isInside rest
  | .seq _ _ :: _ => true
  | _ :: rest => !rest.isEmpty
  | [] => true

theorem spots_checked : (Rule.expression.spots.all fun spot =>
    isOrdinary spot && (!isInside spot || !(Todo.reach spot).isLeveled)) = true := by
  decide +kernel

-- Two rounds that begin with the same token are allowed by the same levels, of those that are asked for.
theorem ranks_checked : (Rule.expression.callers.all fun call => Rule.expression.rounds.all fun one =>
    Rule.expression.rounds.all fun two => (one.kinds.inter two.kinds).isEmpty ||
      (one.level.all (call.2 ≤ ·) == two.level.all (call.2 ≤ ·))) = true := by
  decide

theorem heads_checked : (Rule.expression.rounds.all fun head =>
    !head.kinds.contains .eof && head.level.all fun bound => bound ≤ 14 || 20 ≤ bound) = true := by
  decide

section Facts

variable {label back : Label} {rounds : Rounds} {body form : Form Label} {rest todo : Todo} {kind : Kind}

theorem ordinary (sited : Todo.Sited .expression (form :: rest)) :
    isOrdinary (form :: rest) = true ∧ (isInside (form :: rest) = true → (Todo.reach (form :: rest)).isLeveled = false) := by
  have checked := List.all_eq_true.mp spots_checked _ sited.mem
  rw [Bool.and_eq_true,Bool.or_eq_true,Bool.not_eq_true',Bool.not_eq_true'] at checked
  exact ⟨checked.1,fun inside => checked.2.resolve_left (by simp [inside])⟩

theorem loop_facts (sited : Todo.Sited .expression (.loop rounds label back body :: rest)) :
    label = entry ∧ body.grows = true ∧ rest = [] ∧ rounds ≠ .atLeastOne ∧
      (Todo.reach (body :: .loop .again label back body :: rest)).isLeveled = true ∧
      (Todo.reach (body :: .loop .again label back body :: rest)).heads = Rule.expression.rounds := by
  have checked := (ordinary sited).1
  simp only [isOrdinary,Bool.and_eq_true,beq_iff_eq,List.isEmpty_iff,bne_iff_ne] at checked
  obtain ⟨⟨⟨⟨⟨same,grows⟩,last⟩,repeats⟩,leveled⟩,heads⟩ := checked
  exact ⟨same,grows,last,repeats,leveled,heads⟩

theorem grows_of_inside (inside : isInside (form :: rest) = true) : form.grows = false := by
  cases form <;> simp_all [isInside]

theorem among_reads {kinds : Kind → Bool} (among : isAmong todo kinds = true)
    (reads : (Todo.reach todo).Reads level sites (kind :: others)) : kinds kind = true := by
  simp only [isAmong,Bool.and_eq_true,List.isEmpty_iff,Bool.not_eq_true',List.all_eq_true,Bool.or_eq_true] at among
  obtain ⟨⟨calls,ends⟩,heads⟩ := among
  cases reads with
  | take meets taken _ =>
    cases meets with
    | own member _ => exact (heads _ member kind (Kind.mem_all kind)).resolve_left (by simp [taken])
    | call member _ =>
      rw [calls] at member
      cases member
    | up spent _ => simp [ends] at spent

theorem ranks (called : (site,bound) ∈ Rule.expression.callers)
    (first : one ∈ Rule.expression.rounds) (second : two ∈ Rule.expression.rounds)
    (inFirst : one.kinds.contains kind = true) (inSecond : two.kinds.contains kind = true)
    (allowed : one.level.all (bound ≤ ·) = true) : two.level.all (bound ≤ ·) = true := by
  have checked := List.all_eq_true.mp (List.all_eq_true.mp (List.all_eq_true.mp ranks_checked _ called) one first) two second
  rw [Bool.or_eq_true,beq_iff_eq] at checked
  rcases checked with apart | same
  · simp [KindSet.apart_of_isEmpty apart inFirst] at inSecond
  · exact same ▸ allowed

theorem head_facts (member : head ∈ Rule.expression.rounds) :
    head.kinds.contains .eof = false ∧ ∀ bound ∈ head.level, bound ≤ 14 ∨ 20 ≤ bound := by
  have checked := List.all_eq_true.mp heads_checked head member
  rw [Bool.and_eq_true,Bool.not_eq_true'] at checked
  refine ⟨checked.1,fun bound same => ?_⟩
  have either := checked.2
  rw [Option.mem_def.mp same] at either
  simpa using either

theorem opens_facts (sited : Todo.Sited .expression before) (opens : Todo.Opens kind before after) :
    ((isInside after = true → isInside before = true) ∧ (Todo.renews after = true → Todo.renews before = true) ∧
        after ≠ [] ∧ ∀ rounds label back body, after ≠ [.loop rounds label back body]) ∨
      ∃ rounds label back body, before = [.loop rounds label back body] := by
  cases opens with
  | skip => cases (ordinary sited).1
  | @seq first second rest =>
    refine .inl ⟨fun inside => ?_,id,List.cons_ne_nil _ _,fun _ _ _ _ same => by cases same⟩
    simpa [isInside,Form.grows] using grows_of_inside inside
  | @choice label options option rest member fits =>
    have same : option.grows = (Form.choice label options).grows :=
      beq_iff_eq.mp (List.all_eq_true.mp sited.wraps.2 _ member)
    have more : rest ≠ [] := by simpa [isOrdinary] using (ordinary sited).1
    refine .inl ⟨fun inside => ?_,fun renews => same.symm.trans renews,List.cons_ne_nil _ _,fun _ _ _ _ spent => ?_⟩
    · simpa [isInside,← same] using grows_of_inside inside
    · exact more (List.cons.inj spent).2
  | @enter label body rest fits =>
    have steady : body.grows = false := by simpa [Rule.wrapsAt] using sited.wraps.2
    have inside : isInside rest = true := by simpa [isOrdinary] using (ordinary sited).1
    refine .inl ⟨fun _ => rfl,fun renews => ?_,List.cons_ne_nil _ _,fun _ _ _ _ spent => ?_⟩
    · cases steady.symm.trans renews
    · rw [(List.cons.inj spent).2] at inside
      cases inside
  | @pass label body _ free =>
    have inside : isInside after = true := by simpa [isOrdinary] using (ordinary sited).1
    refine .inl ⟨fun _ => rfl,fun renews => ?_,fun spent => ?_,fun _ _ _ _ spent => ?_⟩
    · cases sited.wraps.1.symm.trans renews
    · rw [spent] at inside
      cases inside
    · rw [spent] at inside
      cases inside
  | first => exact absurd rfl (loop_facts sited).2.2.2.1
  | round repeats fits =>
    cases (loop_facts sited).2.2.1
    exact .inr ⟨_,_,_,_,rfl⟩
  | stop repeats free =>
    cases (loop_facts sited).2.2.1
    exact .inr ⟨_,_,_,_,rfl⟩

end Facts

end Expression

namespace Tree

-- An operation of this level can take the phrase as its first operand.
def Defers (phrase : Tree) (bound : Nat) : Prop :=
  (∀ inner ∈ phrase.binding?, bound ≤ inner) ∧ (phrase.isPrefixed = true → bound ≤ 14)

theorem Defers.precedes {phrase : Tree} (defers : phrase.Defers bound)
    (tells : Expression.tells bound kind = true) : phrase.Precedes kind := by
  rw [Expression.tells,Bool.and_eq_true] at tells
  have known := tells.2
  split at known
  · rw [Bool.and_eq_true,beq_iff_eq,Bool.not_eq_true'] at known
    refine ⟨fun level binds inner own => ?_,fun after => by simp [known.2] at after⟩
    cases Option.some.inj (known.1.symm.trans binds)
    exact defers.1 inner own
  · rw [Bool.and_eq_true,Option.isNone_iff_eq_none,decide_eq_true_eq] at known
    refine ⟨fun level binds => by simp [known.1] at binds,fun _ => ⟨?_,?_⟩⟩
    · refine Option.eq_none_iff_forall_not_mem.mpr fun inner own => ?_
      have := defers.1 inner own
      have := binding?_le own
      omega
    · refine Bool.eq_false_iff.mpr fun first => ?_
      have := defers.2 first
      omega

end Tree

namespace Frame

variable {frame : Frame}

-- In everything that has been read in the frame the first operands bind tightly enough.
def Sorted (frame : Frame) : Prop :=
  (∀ tree ∈ frame.built, ∀ phrase ∈ tree.phrases, phrase.LeftBinds) ∧ (frame.close none).LeftBinds

theorem Sorted.close (sorted : frame.Sorted) (stop : Option Token) :
    ∀ phrase ∈ (frame.close stop).phrases, phrase.LeftBinds := by
  intro phrase inside
  rcases List.mem_cons.mp inside with rfl | below
  · exact sorted.2
  · obtain ⟨tree,member,deeper⟩ := Tree.mem_allPhrases.mp below
    exact sorted.1 tree (List.mem_reverse.mp member) phrase deeper

theorem Sorted.add (sorted : frame.Sorted) {tree : Tree} (inside : ∀ phrase ∈ tree.phrases, phrase.LeftBinds)
    (second : ∀ first token, frame.built = [first] → tree = .leaf token → frame.rule = .expression →
      first.isExpression = true → first.Precedes token.kind) : (frame.add tree).Sorted := by
  refine ⟨List.forall_mem_cons.mpr ⟨inside,sorted.1⟩,fun kind operator first head => ?_⟩
  obtain ⟨own,_,token,rest,same,begins,rfl⟩ := Tree.operator?_node.mp operator
  change (tree :: frame.built).reverse.head? = some first at head
  change (tree :: frame.built).reverse = _ at same
  rw [same] at head
  cases Option.some.inj head
  rw [List.reverse_cons] at same
  match before : frame.built.reverse with
  | [] =>
    rw [before] at same
    cases same
  | [other] =>
    rw [before] at same
    obtain ⟨rfl,leaf,_⟩ : other = first ∧ tree = .leaf token ∧ [] = rest := by simpa using same
    exact second other token (by rw [← List.reverse_reverse frame.built,before]; rfl) leaf own begins
  | other :: next :: others =>
    rw [before] at same
    obtain ⟨rfl,rfl,_⟩ : other = first ∧ next = .leaf token ∧ others ++ [tree] = rest := by simpa using same
    refine sorted.2 token.kind (Tree.operator?_node.mpr ⟨own,other,token,others,before,begins,rfl⟩) other ?_
    change frame.built.reverse.head? = some other
    rw [before]
    rfl

end Frame

namespace Parse

-- What has been read in the innermost frame.
def phrase (parse : Parse) : Tree := parse.frame.close parse.previous

-- The state of an expression that is being read.
structure Poised (parse : Parse) : Prop where
  -- behind its first operand, what comes next binds no more tightly than that
  begun : ∀ first, parse.frame.built = [first] → first.isExpression = true →
    Expression.isInside parse.frame.todo = true → ∀ {level sites kinds},
      (Todo.reach parse.frame.todo).Reads level sites (parse.input.current.kind :: kinds) →
        first.Precedes parse.input.current.kind
  -- where a round is decided on, the expression at the end of the last round was left by looking ahead
  pausing : ∀ {rounds label back body}, parse.frame.todo = [.loop rounds label back body] →
    (parse.phrase.binding?.isSome = true ∨ parse.phrase.isPrefixed = true) → ∃ site bound,
      site.isClosing = true ∧ (site,bound) ∈ Rule.expression.callers ∧ site.after = Todo.reach parse.frame.todo ∧
        ((Decision.get Expression.entry).forecast bound (parse.pending.call site) parse.input.ahead).option = some 2 ∧
        (∀ inner ∈ parse.phrase.binding?, bound = inner + 1) ∧ bound ≤ 19
  -- where a round begins, it can take what has been read as its first operand
  renewing : Todo.renews parse.frame.todo = true → ∀ head ∈ Rule.expression.rounds,
    head.kinds.contains parse.input.current.kind = true → ∀ bound ∈ head.level, parse.frame.level ≤ bound →
      parse.phrase.Defers bound
  leaving : parse.frame.todo = [] →
    ((Decision.get Expression.entry).forecast parse.frame.level parse.pending parse.input.ahead).option = some 2

structure Ordered (parse : Parse) : Prop where
  sorted : ∀ frame ∈ parse.frame :: parse.callers, frame.Sorted
  waiting : ∀ caller ∈ parse.callers, Todo.renews caller.todo = false ∧ (caller.rule = .expression → caller.todo ≠ [])
  poised : parse.frame.rule = .expression → parse.Poised

theorem Ordered.of_alike (alike : Alike after other) (previous : after.previous = other.previous)
    (ordered : Ordered other) : Ordered after := by
  obtain ⟨frame,callers,input⟩ := alike
  obtain ⟨sorted,waiting,poised⟩ := ordered
  refine ⟨?_,?_,fun own => ?_⟩
  · rwa [frame,callers]
  · rwa [callers]
  · have before := poised (frame ▸ own)
    have same : after.phrase = other.phrase := by rw [phrase,phrase,frame,previous]
    have pending : after.pending = other.pending := by rw [Parse.pending,Parse.pending,frame,callers]
    refine ⟨?_,?_,?_,?_⟩
    · rw [frame,input]
      exact before.begun
    · rw [frame,input,same,pending]
      exact before.pausing
    · rw [frame,input,same]
      exact before.renewing
    · rw [frame,input,pending]
      exact before.leaving

section Seam

variable {base : Rule} {parse : Parse} {sites : List Label} {count : Nat} {rounds : Rounds} {label back : Label}
  {body : Form Label}

theorem expression_decision (sited : Todo.Sited .expression [.loop rounds label back body]) :
    Decision.get label = .make .expression true [Todo.reach [body,.loop .again label back body],.nothing] := by
  have again : [.loop .again label back body] ∈ Rule.expression.form.places [] := (Todo.sited_loop sited).2.place rfl
  rw [Decision.get_of_place (again_mem_places sited) rfl,Decision.key_rule again rfl,(Expression.loop_facts sited).2.2.2.2.1]
  rfl

theorem expression_picked (placed : Placed parse)
    (own : parse.frame.rule = .expression) (here : parse.frame.todo = [.loop rounds label back body])
    (next : parse.step source = .more after) (clean : after.diagnostics = []) :
    (((Decision.get label).forecast parse.frame.level parse.pending parse.input.ahead).option = some 1 ∧
        after.frame.todo = [body,.loop .again label back body]) ∨
      (((Decision.get label).forecast parse.frame.level parse.pending parse.input.ahead).option = some 2 ∧
        after.frame.todo = []) := by
  have sited := placed.top
  rw [own,here] at sited
  obtain ⟨_,_,_,repeats,leveled,_⟩ := Expression.loop_facts sited
  have made := expression_decision sited
  have untested : (Decision.get label).tests = none := by
    rw [made]
    simp [Decision.make,Decision.tokenTests,leveled]
  obtain ⟨option,picked,same⟩ := round_picked placed here repeats untested next clean
  rw [made] at picked ⊢
  have proper : ∀ reach ∈ [Todo.reach [body,.loop .again label back body],.nothing], reach.Proper := by
    refine List.forall_mem_cons.mpr ⟨?_,List.forall_mem_singleton.mpr fun head inside => by cases inside⟩
    exact Grammar.options_proper (again_mem_places sited) List.mem_cons_self
  obtain ⟨_,counted,found,_⟩ := Decision.forecast_fits proper picked
  have few := (List.getElem?_eq_some_iff.mp found).1
  rw [List.length_cons,List.length_singleton] at few
  rcases (show option = 1 ∨ option = 2 by omega) with rfl | rfl
  · exact .inl ⟨picked,same⟩
  · exact .inr ⟨picked,same⟩

-- A round is begun only if the operand before it was not left too early.
theorem Poised.goesOn (poised : parse.Poised) (own : parse.frame.rule = .expression) (placed : Placed parse)
    (framed : Framed base parse.frame parse.callers sites) (reads : parse.ReadsFor sites count)
    (here : parse.frame.todo = [.loop rounds label back body])
    (picked : ((Decision.get label).forecast parse.frame.level parse.pending parse.input.ahead).option = some 1)
    (member : head ∈ Rule.expression.rounds) (taken : head.kinds.contains parse.input.current.kind = true)
    (level : bound ∈ head.level) (within : parse.frame.level ≤ bound) : parse.phrase.Defers bound := by
  by_cases filled : parse.phrase.binding?.isSome = true ∨ parse.phrase.isPrefixed = true
  case neg =>
    rw [not_or,Option.not_isSome_iff_eq_none] at filled
    exact ⟨fun inner binds => by simp [filled.1] at binds,fun first => absurd first filled.2⟩
  obtain ⟨site,asked,closes,called,after,left,operand,small⟩ := poised.pausing here filled
  have sited := placed.top
  rw [own,here] at sited
  obtain ⟨rfl,_,_,repeats,leveled,heads⟩ := Expression.loop_facts sited
  have below : bound < asked := by
    by_contra above
    obtain ⟨round,same,calls,ends,rounds⟩ := Decision.repeats_loop (again_mem_places sited) leveled
    obtain ⟨rfl,_⟩ := List.cons.inj same
    have allowed : ∀ other ∈ (Todo.reach [body,.loop .again Expression.entry back body]).heads,
        other.kinds.contains parse.input.current.kind = true →
          other.level.all (parse.frame.level ≤ ·) = true ∧ other.level.all (asked ≤ ·) = true := by
      intro other listed also
      rw [heads] at listed
      have meets (level : Nat) (enough : level ≤ bound) : head.level.all (level ≤ ·) = true := by
        rw [Option.mem_def.mp ‹bound ∈ head.level›]
        simpa using enough
      refine ⟨?_,Expression.ranks called member listed taken also (meets asked (by omega))⟩
      rcases framed.asked with bottom | ⟨_,calls⟩
      · cases other.level <;> simp [bottom]
      · exact Expression.ranks (own ▸ calls) member listed taken also (meets _ within)
    have made := expression_decision sited
    rw [made,framed.pending] at picked
    rw [made,framed.pending] at left
    refine Decision.seam (Todo.reach_located (Todo.sited_loop sited)) calls ends rounds (own ▸ framed.linked) closes called
      ?_ ?_ placed.closed ?_ allowed (by simpa [kindsAhead,Input.ahead] using reads.1) ?_ picked left
    · intro level kinds
      rw [after,here]
      exact Todo.reads_loop sited repeats
    · intro kinds reads
      exact framed.raised (((Rule.caller_facts called).1 closes).trans own.symm) reads
    · intro ended
      rw [ended,(Expression.head_facts member).1] at taken
      cases taken
    · rw [after]
      exact reads.2
  refine ⟨fun inner binds => ?_,fun _ => ?_⟩
  · have := operand inner binds
    omega
  · rcases (Expression.head_facts member).2 bound level with low | high
    · exact low
    · omega

end Seam

section Steps

variable {label : Label} {level bound count : Nat} {last : Tree} {kind : Kind} {start : Token} {source : List Token}
  {after : Parse}
variable {base : Rule} {parse : Parse} {sites : List Label} {caller : Frame} {callers : List Frame} {rest : Todo}

theorem draft_allows {accepts : Rule → Nat → Tree → Prop} {frame : Frame} (draft : frame.Draft accepts)
    (own : frame.rule = .expression) (sited : Todo.Sited frame.rule frame.todo)
    (here : frame.todo = [.loop rounds label back body]) :
    Rule.expression.Allows accepts frame.level frame.built.reverse := by
  rw [own,here] at sited
  have repeats := (Expression.loop_facts sited).2.2.2.1
  have allowed := draft.steady (by rw [here]; rfl) (by rw [here]; exact Todo.spells_empty (.stop repeats) rfl)
  rwa [List.append_nil,own] at allowed

theorem last_expression (derives : Tree.Derives .expression level tree)
    (filled : tree.binding?.isSome = true ∨ tree.isPrefixed = true)
    (ends : tree.children.getLast? = .some last) : last.isExpression = true := by
  have operation := derives.operation filled
  rcases filled with binds | first
  · obtain ⟨inner,binds⟩ := Option.isSome_iff_exists.mp binds
    obtain ⟨_,_,other,same,right⟩ := operation.binding? derives.isExpression binds
    cases Option.some.inj (same.symm.trans ends)
    exact right.isExpression
  · obtain ⟨other,same,_,_,operand⟩ := operation.operand derives.isExpression first
    cases Option.some.inj (same.symm.trans ends)
    exact operand.isExpression

theorem call_facts (called : (site,level) ∈ Rule.expression.callers)
    (own : site.rule = .expression) (after : site.after = Todo.reach todo)
    (sited : Todo.Sited .expression todo) (inside : Expression.isInside todo = true) {kinds : List Kind}
    (reads : (Todo.reach todo).Reads bound sites (kind :: kinds)) : kind.binding? = none ∧ kind.isPostfix = false := by
  obtain ⟨rest,listed⟩ := Rule.mem_callers.mp called
  obtain ⟨owner,_,place⟩ := List.mem_flatMap.mp listed
  cases (Label.rule_of_mark place rfl).symm.trans own
  have behind : site.after = Todo.reach rest := Label.after_eq place rfl
  have checked := (Expression.ordinary (Rule.sited_place place)).1
  simp only [Expression.isOrdinary,bne_self_eq_false,Bool.false_or,Bool.and_eq_true,Bool.or_eq_true] at checked
  rcases checked.2 with leveled | among
  · cases todo with
    | nil => cases inside
    | cons form others =>
      have never := (Expression.ordinary sited).2 inside
      rw [← after,behind,leveled] at never
      cases never
  · rw [← after,behind] at reads
    have known := Expression.among_reads among reads
    rwa [Bool.and_eq_true,Option.isNone_iff_eq_none,Bool.not_eq_true'] at known

theorem operation_level
    (gapped : Rule.expression.Allows (Expression.Gapped bound) level (children ++ [.error hole]))
    (filled : (Tree.node .expression start stop (children ++ [last])).binding?.isSome = true ∨
      (Tree.node .expression start stop (children ++ [last])).isPrefixed = true) : bound ≠ 0 ∧ bound ≤ 19 ∧
      ∀ inner ∈ (Tree.node .expression start stop (children ++ [last])).binding?, bound = inner + 1 := by
  rcases Expression.before_gap (Expression.allows_shape gapped) with
    ⟨⟨operator,rfl⟩,low,high⟩ | ⟨first,operator,rest,inner,rfl,binds,rfl⟩
  · refine ⟨by omega,high,fun inner binds => ?_⟩
    obtain ⟨kind,found,_⟩ := Option.bind_eq_some_iff.mp binds
    obtain ⟨_,_,_,_,same,begins,_⟩ := Tree.operator?_node.mp found
    cases (List.cons.inj same).1
    cases begins
  · refine ⟨by omega,?_,fun inner other => ?_⟩
    · have := Kind.binding?_le binds
      omega
    · obtain ⟨kind,found,known⟩ := Option.bind_eq_some_iff.mp other
      obtain ⟨_,_,token,_,same,_,rfl⟩ := Tree.operator?_node.mp found
      cases (List.cons.inj (List.cons.inj same).2).1
      rw [Option.some.inj (binds.symm.trans known)]

theorem Ordered.left (ordered : Ordered parse) (placed : Placed parse)
    (framed : Framed base parse.frame parse.callers sites) (gapped : ∀ bound, Sound (Expression.Gapped bound) parse)
    (done : parse.frame.todo = []) (below : parse.callers = caller :: callers)
    (sound : (caller.add (parse.frame.close parse.previous)).Draft Tree.Derives) :
    Ordered { parse with frame := caller.add (parse.frame.close parse.previous), callers } := by
  have waits := ordered.waiting
  have sited := placed.below caller (by rw [below]; exact List.mem_cons_self)
  rw [below] at waits framed
  have own := List.forall_mem_cons.mp ordered.sorted
  rw [below] at own
  have outer := List.forall_mem_cons.mp own.2
  have added := outer.1.add (own.1.close parse.previous) fun _ _ _ leaf => by cases leaf
  refine ⟨List.forall_mem_cons.mpr ⟨added,outer.2⟩,(List.forall_mem_cons.mp waits).2,fun rule => ?_⟩
  change caller.rule = .expression at rule
  rw [rule] at sited
  cases framed with
  | @called _ _ _ site _ opened calls there after _ =>
    refine ⟨fun first only begins inside _ _ _ reads => ?_,fun here filled => ?_,fun renews => ?_,fun nothing => ?_⟩
    · cases (List.cons.inj only).1
      have inner : parse.frame.rule = .expression := beq_iff_eq.mp begins
      obtain ⟨loose,free⟩ := call_facts (inner ▸ calls) (there.trans rule) after sited inside reads
      exact ⟨fun level binds => by simp [loose] at binds,fun postfixed => by simp [free] at postfixed⟩
    · have derives : Tree.Derives .expression caller.level _ :=
        Tree.derives_stable (draft_allows sound rule (rule ▸ sited) here) caller.start parse.previous
      have whole : phrase { parse with frame := caller.add (parse.frame.close parse.previous), callers } =
          .node .expression caller.start parse.previous (caller.built.reverse ++ [parse.frame.close parse.previous]) := by
        rw [← rule,← List.reverse_cons]
        rfl
      rw [whole] at filled
      rw [show (caller.add (parse.frame.close parse.previous)).built.reverse =
        caller.built.reverse ++ [parse.frame.close parse.previous] from List.reverse_cons] at derives
      have inner : parse.frame.rule = .expression := beq_iff_eq.mp (last_expression derives filled List.getLast?_concat)
      have gap := (gapped parse.frame.level).2
      rw [below] at gap
      have missing := draft_allows (gap.1 (.error default) (.inr ⟨inner,rfl⟩)) rule (rule ▸ sited) here
      rw [show (caller.add (.error default)).built.reverse = caller.built.reverse ++ [.error default] from
        List.reverse_cons] at missing
      obtain ⟨asks,small,levels⟩ := operation_level missing filled
      refine ⟨site,parse.frame.level,(Rule.caller_facts calls).2 asks,inner ▸ calls,after,?_,whole ▸ levels,small⟩
      have pending : parse.pending = (pending
          { parse with frame := caller.add (parse.frame.close parse.previous), callers }).call site := by
        rw [Parse.pending,below,List.foldr_cons,opened]
        rfl
      rw [← pending]
      exact (ordered.poised inner).leaving done
    · have steady := (waits caller List.mem_cons_self).1
      exact absurd renews (by simpa [Frame.add] using steady)
    · exact absurd nothing ((waits caller List.mem_cons_self).2 rule)

theorem Ordered.opened (ordered : Ordered parse) (placed : Placed parse)
    (framed : Framed base parse.frame parse.callers sites) (reads : parse.ReadsFor sites count)
    (next : parse.step source = .more after) (clean : after.diagnostics = [])
    (opens : Todo.Opens kind parse.frame.todo after.frame.todo) : Ordered (parse.goto after.frame.todo) := by
  have sorted := List.forall_mem_cons.mp ordered.sorted
  refine ⟨List.forall_mem_cons.mpr ⟨sorted.1,sorted.2⟩,ordered.waiting,fun own => ?_⟩
  change parse.frame.rule = .expression at own
  have poised := ordered.poised own
  have sited := placed.top
  rw [own] at sited
  rcases Expression.opens_facts sited opens with
    ⟨inside,renews,going,unpaused⟩ | ⟨rounds,label,back,body,here⟩
  · refine ⟨fun first only begins within _ _ _ reads => ?_,fun paused => absurd paused (unpaused _ _ _ _),
      fun again => poised.renewing (renews again),fun spent => absurd spent going⟩
    exact poised.begun first only begins (inside within) (opens.reads sited reads)
  · rw [here] at sited
    obtain ⟨same,grows,_⟩ := Expression.loop_facts sited
    rcases expression_picked placed own here next clean with ⟨picked,there⟩ | ⟨picked,there⟩
    · rw [there]
      refine ⟨fun _ _ _ within => ?_,fun paused => ?_,fun _ head member taken bound level within => ?_,fun spent => ?_⟩
      · cases grows.symm.trans (Expression.grows_of_inside within)
      · cases paused
      · exact poised.goesOn own placed framed reads here picked member taken level within
      · cases spent
    · rw [there]
      refine ⟨fun _ _ _ within => ?_,fun paused => ?_,fun again => ?_,fun _ => ?_⟩
      · cases within
      · cases paused
      · cases again
      · exact same ▸ picked

theorem start_inside : Expression.isInside [Rule.expression.form] = true := by
  decide

theorem open_poised (opened : parse.frame = .open .expression level site start) : parse.Poised := by
  refine ⟨fun _ only => ?_,fun paused => ?_,fun renews => ?_,fun spent => ?_⟩
  · rw [opened] at only
    cases only
  · have inside := start_inside
    rw [opened] at paused
    change [Rule.expression.form] = _ at paused
    rw [paused] at inside
    cases inside
  · rw [opened] at renews
    cases Rule.expression.form_facts.2.symm.trans renews
  · rw [opened] at spent
    cases spent

theorem open_sorted (rule : Rule) (level : Nat) (site : Option Label) (start : Token) :
    (Frame.open rule level site start).Sorted := by
  refine ⟨fun _ member => (by cases member),fun kind operator => ?_⟩
  obtain ⟨_,_,_,_,same,_⟩ := Tree.operator?_node.mp operator
  cases same

theorem Ordered.called {rule : Rule} (ordered : Ordered parse) (placed : Placed parse)
    (head : parse.frame.todo = .call label rule level :: rest) : Ordered { parse with
      frame := .open rule level (some label) parse.input.current,
      callers := { parse.frame with todo := rest } :: parse.callers } := by
  have sorted := List.forall_mem_cons.mp ordered.sorted
  have sited := placed.top
  rw [head] at sited
  refine ⟨List.forall_mem_cons.mpr ⟨open_sorted ..,List.forall_mem_cons.mpr ⟨sorted.1,sorted.2⟩⟩,
    List.forall_mem_cons.mpr ⟨⟨sited.wraps.1,fun own spent => ?_⟩,ordered.waiting⟩,fun own => ?_⟩
  · change parse.frame.rule = .expression at own
    change rest = [] at spent
    rw [own] at sited
    have known := (Expression.ordinary sited).1
    simp [Expression.isOrdinary,spent] at known
  · cases (show rule = .expression from own)
    exact open_poised rfl

theorem Ordered.wrapped (ordered : Ordered parse) (placed : Placed parse)
    (head : parse.frame.todo = .wrap label bound :: rest) (within : parse.frame.level ≤ bound) :
    Ordered (parse.wrap.goto rest) := by
  have sorted := List.forall_mem_cons.mp ordered.sorted
  have sited := placed.top
  rw [head] at sited
  refine ⟨List.forall_mem_cons.mpr ⟨⟨?_,fun kind operator => ?_⟩,sorted.2⟩,ordered.waiting,fun own => ?_⟩
  · exact List.forall_mem_singleton.mpr (sorted.1.close parse.previous)
  · obtain ⟨_,_,_,_,same,_⟩ := Tree.operator?_node.mp operator
    cases same
  · change parse.frame.rule = .expression at own
    rw [own] at sited
    have known := (Expression.ordinary sited).1
    rw [Expression.isOrdinary,Bool.and_eq_true] at known
    refine ⟨fun first only _ _ _ _ _ reads => ?_,fun paused => ?_,fun renews => ?_,fun spent => ?_⟩
    · cases (List.cons.inj only).1
      have tells := Expression.among_reads known.2 reads
      have begins := tells
      rw [Expression.tells,Bool.and_eq_true] at begins
      obtain ⟨round,member,taken⟩ := List.any_eq_true.mp begins.1
      rw [Bool.and_eq_true,beq_iff_eq] at taken
      exact ((ordered.poised own).renewing (by rw [head]; rfl) round member taken.1 bound taken.2 within).precedes tells
    · have inside := known.1
      change rest = _ at paused
      rw [paused] at inside
      cases inside
    · cases sited.wraps.1.symm.trans renews
    · have inside := known.1
      change rest = _ at spent
      rw [spent] at inside
      cases inside

theorem Ordered.matched {form : Form Label} {kinds : KindSet} (ordered : Ordered parse) (placed : Placed parse)
    (reads : parse.ReadsFor sites count) (head : parse.frame.todo = form :: rest) (takes : form.Takes kinds)
    (sound : (parse.shift.goto rest).frame.Draft Tree.Derives) (previous : Option Token) :
    Ordered { parse.shift.goto rest with previous } := by
  have sorted := List.forall_mem_cons.mp ordered.sorted
  have sited := placed.top
  rw [head] at sited
  refine ⟨List.forall_mem_cons.mpr ⟨sorted.1.add (fun _ inside => by cases inside) ?_,sorted.2⟩,ordered.waiting,
    fun own => ?_⟩
  · intro first token only leaf own begins
    cases leaf
    obtain ⟨_,reads⟩ := reads
    obtain ⟨_,_,same,behind,_⟩ := takes.marked sited
    have inside : Expression.isInside parse.frame.todo = true := by
      rw [head]
      cases takes with
      | token _ _ => rfl
      | oneOf _ _ => rfl
    cases count with
    | zero =>
      rw [head,List.take_zero,Todo.reads_head same behind] at reads
      obtain ⟨_,_,impossible,_⟩ := reads
      cases impossible
    | succ count => exact (ordered.poised own).begun first only begins inside reads
  · change parse.frame.rule = .expression at own
    refine ⟨fun first only begins => ?_,fun here filled => ?_,fun renews => ?_,fun spent => ?_⟩
    · cases (List.cons.inj only).1
      cases begins
    · have derives : Tree.Derives .expression parse.frame.level _ :=
        Tree.derives_stable (draft_allows sound own sited.2 here) parse.frame.start previous
      have whole : phrase { parse.shift.goto rest with previous } =
          .node .expression parse.frame.start previous (.leaf parse.input.current :: parse.frame.built).reverse := by
        rw [← own]
        rfl
      rw [whole] at filled
      have last := last_expression derives filled (List.getLast?_reverse.trans List.head?_cons)
      cases last
    · cases sited.wraps.1.symm.trans renews
    · change rest = [] at spent
      rw [own] at sited
      have known := (Expression.ordinary sited).1
      cases takes with
      | token _ _ => simp [Expression.isOrdinary,spent] at known
      | oneOf _ _ => simp [Expression.isOrdinary,spent] at known

theorem Ordered.step (ordered : Ordered parse) (placed : Placed parse)
    (framed : Framed base parse.frame parse.callers sites) (reads : parse.ReadsFor sites count)
    (gapped : ∀ bound, Sound (Expression.Gapped bound) parse) (sound : Sound Tree.Derives after)
    (next : parse.step source = .more after) (effect : Effect parse after) (clean : after.diagnostics = []) :
    Ordered after := by
  have draft := sound.1
  cases effect with
  | left done below alike calm =>
    rw [alike.frame] at draft
    exact (ordered.left placed framed gapped done below draft).of_alike alike calm.previous
  | @opened _ todo opens alike marks =>
    rcases marks with ⟨rfl,calm⟩ | ⟨reported,_⟩
    · have same : after.frame.todo = todo := congrArg Frame.todo alike.frame
      have moved := ordered.opened placed framed reads next clean (same ▸ opens)
      rw [same] at moved
      exact moved.of_alike alike calm.previous
    · exact absurd clean reported
  | called head alike calm => exact (ordered.called placed head).of_alike alike calm.previous
  | wrapped head within alike calm => exact (ordered.wrapped placed head within).of_alike alike calm.previous
  | matched head takes _ alike _ _ _ =>
    rw [alike.frame] at draft
    have same : Alike after { parse.shift.goto _ with previous := after.previous } :=
      ⟨alike.frame,alike.callers,alike.input⟩
    exact (ordered.matched placed reads head takes draft after.previous).of_alike same rfl
  | matchedLate _ _ _ _ reported => exact absurd clean reported
  | supplied _ _ _ _ _ _ reported => exact absurd clean reported
  | abandoned _ _ _ givesUp => exact absurd clean givesUp.noted

end Steps

theorem start_ordered (rule : Rule) (input : Input) : Ordered (start rule input) := by
  refine ⟨List.forall_mem_singleton.mpr (open_sorted ..),fun _ member => (by cases member),fun own => ?_⟩
  cases (show rule = .expression from own)
  exact open_poised rfl

section Outcome

variable {source : List Token} {rule : Rule} {input : Input} {tree : Tree} {final : Parse}

theorem outcome_leftBinds (closed : Token.Closed input.ahead) (ran : outcome source rule input = (tree,final,true))
    (clean : final.diagnostics = []) : ∀ phrase ∈ tree.phrases, phrase.LeftBinds := by
  obtain ⟨_,⟨_,_,_,ordered,_⟩,rfl,done⟩ := run_follows
    (fun parse => (∃ sites, Framed rule parse.frame parse.callers sites) ∧ Sound Tree.Derives parse ∧
      (∀ bound, Sound (Expression.Gapped bound) parse) ∧ Ordered parse ∧
      ∃ fuel, parse.run source fuel = (tree,final,true)) source
    (fun {before after} placed ⟨⟨sites,framed⟩,sound,gapped,ordered,fuel,ran⟩ next effect => by
      obtain ⟨count,reads⟩ := run_reads placed framed ran clean
      cases fuel with
      | zero => cases ran
      | succ fuel =>
        rw [run,next] at ran
        have quiet := clean_of_run (effect.placed placed) ran clean
        have still := effect.sound Tree.derives_stable placed quiet fun _ => sound
        exact ⟨effect.framed placed framed,still,
          fun bound => effect.sound (Expression.gapped_stable bound) placed quiet fun _ => gapped bound,
          ordered.step placed framed reads gapped still next effect quiet,fuel,ran⟩)
    _ (start_placed closed)
    ⟨⟨[],.outermost rfl rfl rfl⟩,⟨Frame.open_draft ..,trivial⟩,fun _ => ⟨Frame.open_draft ..,trivial⟩,
      start_ordered rule input,_,ran⟩ ran
  obtain ⟨_,outermost⟩ := done rfl
  rw [collapsed,outermost]
  exact (List.forall_mem_cons.mp ordered.sorted).1.close final.previous

end Outcome

-- Whatever tokens are given and whatever rule they are read as: if nothing is reported, no operation in the tree has an
-- operand that binds less tightly and stands in no brackets.
theorem outcome_binds (source : List Token) (rule : Rule) (input : Input) (closed : Token.Closed input.ahead)
    (clean : (outcome source rule input).2.1.diagnostics = []) :
    ∀ phrase ∈ (outcome source rule input).1.phrases, phrase.Binds := by
  have finished := outcome_complete source rule closed
  cases ran : outcome source rule input with
  | mk tree rest =>
    obtain ⟨final,complete⟩ := rest
    rw [ran] at clean finished
    cases finished
    intro phrase inside
    obtain ⟨_,_,derives,_⟩ := outcome_last closed ran clean
    exact Tree.binds_of (outcome_leftBinds closed ran clean phrase inside) (derives.rightBinds_phrase inside)

-- A product, assigned in a chain of assignments.
def assignedProduct : String := "a = b = c * d"

-- The text is read without a report, and both its parse tree and its abstract tree are assignments with an assignment for
-- their first operand.
def assignedTwice (reading : Reading) : Bool :=
  reading.diagnostics.isEmpty && reading.tree.binding? == some 2 &&
    (reading.tree.children.head?.bind Tree.binding?) == some 2 &&
    reading.tree.meaning false matches .ok (.node (("type",.text "BinaryOperation") :: ("operator",.text "=") ::
      ("left",.node (("type",.text "BinaryOperation") :: ("operator",.text "=") :: _)) :: ("right",.node _) :: []))

set_option maxRecDepth 100000 in
theorem assignedProduct_read : assignedTwice (Reading.ofText .expression assignedProduct) = true := by
  decide +kernel

theorem assignedProduct_binds : ∃ input, input.ahead = (tokens assignedProduct).filter (!·.kind.isHidden) ∧
    Token.Closed input.ahead ∧ (outcome (tokens assignedProduct) .expression input).2.1.diagnostics = [] ∧
    (outcome (tokens assignedProduct) .expression input).1.binding? = some 2 ∧
    (outcome (tokens assignedProduct) .expression input).1.Binds := by
  obtain ⟨input,tree,final,ahead,ran,result⟩ := Reading.ofText_ran .expression assignedProduct
  have closed : Token.Closed input.ahead := ahead ▸ closed_visible assignedProduct
  have read := assignedProduct_read
  rw [result,assignedTwice,Bool.and_eq_true,Bool.and_eq_true,Bool.and_eq_true,List.isEmpty_iff,beq_iff_eq] at read
  obtain ⟨⟨⟨silent,binds⟩,_⟩,_⟩ := read
  have clean : final.diagnostics = [] := List.reverse_eq_nil_iff.mp (List.append_eq_nil_iff.mp silent).2
  have itself : ∀ tree : Tree, tree.binding? = some 2 → tree ∈ tree.phrases
    | .leaf _, binds => by cases binds
    | .error _, binds => by cases binds
    | .node _ _ _ _, _ => List.mem_cons_self
  refine ⟨input,ahead,closed,?_⟩
  have bound := outcome_binds (tokens assignedProduct) .expression input closed (by rw [ran]; exact clean)
  rw [ran] at bound ⊢
  exact ⟨clean,binds,bound tree (itself tree binds)⟩

end Parse

end SolReader
