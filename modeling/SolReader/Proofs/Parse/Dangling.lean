import Mathlib.Data.List.Chain
import SolReader.Proofs.Ast.Known
import SolReader.Proofs.Parse.Clean

namespace SolReader

open List Bool

namespace Label

-- The second stack is the first one with calls put in that can be left without another token.
inductive Widens : List Label → List Label → Prop where
  | refl (sites : List Label) : Widens sites sites
  | insert {site : Label} {one two : List Label} (ends : site.after.ends = true) (widens : Widens one two) :
      Widens one (site :: two)
  | under {site : Label} {one two : List Label} (widens : Widens one two) : Widens (site :: one) (site :: two)

end Label

namespace Reach

open Label (Widens)

variable {level : Nat} {reach : Reach} {head : Head} {one two under : List Label}

theorem Enters.widened (enters : reach.Enters one head under) (widens : Widens one two) :
    ∃ under', reach.Enters two head under' ∧ Widens under under' := by
  induction enters generalizing two with
  | own member => exact ⟨two,.own member,widens⟩
  | call member _ ih =>
    obtain ⟨under',enters,wider⟩ := ih (.under widens)
    exact ⟨under',.call member enters,wider⟩

theorem Meets.widened (meets : reach.Meets level one head under) (widens : Widens one two) :
    ∃ under', reach.Meets level two head under' ∧ Widens under under' := by
  induction widens generalizing level reach with
  | refl sites => exact ⟨under,meets,.refl _⟩
  | @insert site one two ends widens ih =>
    cases meets with
    | own member within => exact ⟨_,.own member within,.insert ends widens⟩
    | call member enters =>
      obtain ⟨under',enters,wider⟩ := enters.widened (.under (.insert ends widens))
      exact ⟨under',.call member enters,wider⟩
    | up spent outer =>
      obtain ⟨under',meets,wider⟩ := ih (.up ends outer : site.after.Meets 0 _ head under)
      exact ⟨under',.up spent meets,wider⟩
  | @under site one two widens ih =>
    cases meets with
    | own member within => exact ⟨_,.own member within,.under widens⟩
    | call member enters =>
      obtain ⟨under',enters,wider⟩ := enters.widened (.under (.under widens))
      exact ⟨under',.call member enters,wider⟩
    | up spent outer =>
      obtain ⟨under',meets,wider⟩ := ih outer
      exact ⟨under',.up spent meets,wider⟩

theorem Finishes.other {other : Reach} (finishes : reach.Finishes one) (ends : other.ends = true) : other.Finishes one := by
  cases finishes with
  | bottom _ => exact .bottom ends
  | up _ outer => exact .up ends outer

theorem Finishes.widened (finishes : reach.Finishes one) (widens : Widens one two) : reach.Finishes two := by
  induction widens generalizing reach with
  | refl sites => exact finishes
  | insert ends _ ih => exact .up finishes.ends (ih (finishes.other ends))
  | under _ ih =>
    cases finishes with
    | up spent outer => exact .up spent (ih outer)

theorem Reads.widened {kinds : List Kind} (reads : reach.Reads level one kinds) (widens : Widens one two) :
    reach.Reads level two kinds := by
  induction reads generalizing two with
  | done finishes => exact .done (finishes.widened widens)
  | take meets taken _ ih =>
    obtain ⟨under',meets,wider⟩ := meets.widened widens
    exact .take meets taken (ih wider)

end Reach

namespace Tree

mutual

-- The phrase, its last part, the last part of that, and so on.
def rightEdge : Tree → List Tree
  | .leaf _ | .error _ => []
  | .node rule start stop children => .node rule start stop children :: lastEdge children

def lastEdge : List Tree → List Tree
  | [] => []
  | [tree] => tree.rightEdge
  | _ :: trees => lastEdge trees

end

-- A conditional statement without an `else`.
def isHalf (tree : Tree) : Bool :=
  tree.isMember (.phrase .ifStatement) && !tree.children.any (isMember (.token .kwElse))

-- An `else` behind the phrase could belong to a conditional statement at its end.
def dangles (tree : Tree) : Bool :=
  tree.rightEdge.any isHalf

-- What stands before an `else` is closed.
def ElseNearest (phrase : Tree) : Prop :=
  phrase.children.IsChain fun first second => second.isMember (.token .kwElse) = true → first.dangles = false

theorem lastEdge_eq : (trees : List Tree) → lastEdge trees = (trees.getLast?.map rightEdge).getD []
  | [] => rfl
  | [_] => rfl
  | _ :: second :: trees => by
    rw [lastEdge,lastEdge_eq (second :: trees),List.getLast?_cons_cons]
    nofun

theorem dangles_node (rule : Rule) (start : Token) (stop : Option Token) (children : List Tree) :
    (node rule start stop children).dangles =
      ((node rule start stop children).isHalf || children.getLast?.any dangles) := by
  rw [dangles,rightEdge,any_cons,lastEdge_eq]
  cases children.getLast? <;> rfl

end Tree

namespace Conditional

-- The place of the token `else`.
def word : Label :=
  (Rule.ifStatement.spots.findSome? fun spot => match spot with
    | .token label kind :: _ => if kind = .kwElse then some label else none
    | _ => none).getD 0

-- Where an `else` can be read behind a call, it is that of a conditional statement, which could also be left.
theorem calls_checked : (Grammar.places.all fun
    | .call _ _ _ :: rest =>
      let behind := Todo.reach rest
      (behind.heads.all fun head => !head.kinds.contains .kwElse || (head.label == word && behind.ends)) &&
        behind.calls.all fun inner => !inner.2.kinds.contains .kwElse
    | _ => true) = true := by
  decide +kernel

def isCall (todo : Todo) : Bool :=
  todo.length == 1 && todo.head?.any fun form => match form with
    | .call _ _ _ => true
    | _ => false

-- What a conditional statement still has to do: only behind the `else` is a call the last thing, and only the `else` and
-- what belongs to it may be left out.
def isOrdinary : Todo → Bool
  | .optional _ body :: rest =>
    let decision := Decision.make .ifStatement false [Todo.reach (body :: rest),Todo.reach rest]
    rest.isEmpty && decision.tests.isNone && Decision.turns decision.start [.kwElse] && !isCall [body] &&
      (Todo.reach (body :: rest)).heads.any fun head =>
        head.label == word && head.kinds.contains .kwElse && head.level.isNone
  | .token _ kind :: rest => !rest.isEmpty && (!isCall rest || kind == .kwElse)
  | .call _ _ _ :: rest => !isCall rest
  | .seq _ _ :: _ => true
  | [] => true
  | _ => false

theorem spots_checked : (Rule.ifStatement.spots.all isOrdinary) = true := by
  decide +kernel

end Conditional

namespace Frame

-- In everything that has been read in the frame what stands before an `else` is closed.
def ElseNearest (frame : Frame) : Prop :=
  (∀ tree ∈ frame.built, ∀ phrase ∈ tree.phrases, phrase.ElseNearest) ∧ (frame.close none).ElseNearest

-- What has been read ends with a conditional statement that has no `else`, or is one.
def Dangles (frame : Frame) : Prop :=
  frame.built.head?.any Tree.dangles = true ∨ (frame.todo = [] ∧ (frame.close none).isHalf = true)

end Frame

namespace Parse

-- Nothing more can be read from here.
def Stuck (base : Rule) (parse : Parse) : Prop :=
  ∀ sites count, Framed base parse.frame parse.callers sites → parse.ReadsFor sites count → count = 0

-- As far as it has been read, every `else` belongs to the nearest `if` that has none.
structure Nearest (base : Rule) (parse : Parse) : Prop where
  nearest : ∀ frame ∈ parse.frame :: parse.callers, frame.ElseNearest
  waiting : ∀ caller ∈ parse.callers, caller.rule = .ifStatement → Conditional.isCall caller.todo = false ∧
    (caller.todo = [] → (caller.close none).isHalf = false)
  entered : parse.frame.rule = .ifStatement → Conditional.isCall parse.frame.todo = true →
    (parse.frame.close none).isHalf = false
  edge : parse.input.current.kind = .kwElse → parse.frame.Dangles → parse.Stuck base

end Parse

namespace Conditional

section Look

variable {base rule : Rule} {site : Label} {sites under : List Label} {head : Head} {level : Nat} {kinds : List Kind}

theorem caller_facts (called : (site,level) ∈ rule.callers) (taken : head.kinds.contains .kwElse = true) :
    (head ∈ site.after.heads → head.label = word ∧ site.after.ends = true) ∧
      ∀ inner ∈ site.after.calls, inner.2.kinds.contains .kwElse = false := by
  obtain ⟨rest,place⟩ := Rule.mem_callers.mp called
  have checked := List.all_eq_true.mp calls_checked _ place
  obtain ⟨_,_,own⟩ := List.mem_flatMap.mp place
  have behind : site.after = Todo.reach rest := Label.after_eq own rfl
  simp only [← behind,Bool.and_eq_true,List.all_eq_true] at checked
  refine ⟨fun member => ?_,fun inner member => by simpa using checked.2 inner member⟩
  have own := checked.1 head member
  rwa [taken,Bool.not_true,Bool.false_or,Bool.and_eq_true,beq_iff_eq] at own

theorem not_inside {inner : Label × Reach} (called : (site,level) ∈ rule.callers) (taken : head.kinds.contains .kwElse = true)
    (member : inner ∈ site.after.calls) : ¬inner.2.Enters (inner.1 :: sites) head under := by
  intro enters
  cases (Decision.contains_of_enters enters taken).symm.trans ((caller_facts called taken).2 inner member)

theorem meets_else (linked : Linked base rule (site :: sites)) (meets : site.after.Meets 0 sites head under)
    (taken : head.kinds.contains .kwElse = true) :
    head.label = word ∧ site.after.ends = true ∧ Label.Widens under sites := by
  induction sites generalizing site rule with
  | nil =>
    obtain ⟨⟨level,called⟩,_⟩ := linked
    cases meets with
    | own member _ =>
      obtain ⟨label,ends⟩ := (caller_facts called taken).1 member
      exact ⟨label,ends,.refl _⟩
    | call member enters => exact absurd enters (not_inside called taken member)
  | cons next sites ih =>
    obtain ⟨⟨level,called⟩,outer⟩ := linked
    cases meets with
    | own member _ =>
      obtain ⟨label,ends⟩ := (caller_facts called taken).1 member
      exact ⟨label,ends,.refl _⟩
    | call member enters => exact absurd enters (not_inside called taken member)
    | up ends meets =>
      obtain ⟨label,left,widens⟩ := ih outer meets
      exact ⟨label,ends,.insert left widens⟩

-- What an outer statement reads behind its `else` can be read here behind the `else`, too.
theorem else_within (linked : Linked base rule sites) (reads : Reach.nothing.Reads level sites (.kwElse :: kinds)) :
    word.after.Reads 0 sites kinds := by
  cases reads with
  | take meets taken reads =>
    cases meets with
    | own member _ => cases member
    | call member _ => cases member
    | up _ meets =>
      obtain ⟨label,left,widens⟩ := meets_else linked meets taken
      exact label ▸ reads.widened (.insert left widens)

end Look

section Facts

variable {form : Form Label} {rest : Todo} {kind : Kind}

theorem ordinary (sited : Todo.Sited .ifStatement (form :: rest)) : isOrdinary (form :: rest) = true :=
  all_eq_true.mp spots_checked _ sited.mem

theorem opens_facts {after : Todo} (sited : Todo.Sited .ifStatement before) (opens : Todo.Opens kind before after) :
    isCall after = false ∧ (after = [] → ∃ label body, before = [.optional label body]) := by
  cases opens with
  | skip => cases ordinary sited
  | seq => exact ⟨rfl,nofun⟩
  | choice => cases ordinary sited
  | enter =>
    have known := ordinary sited
    simp only [isOrdinary,Bool.and_eq_true,List.isEmpty_iff,Bool.not_eq_true'] at known
    obtain ⟨⟨⟨⟨rfl,_⟩,_⟩,single⟩,_⟩ := known
    exact ⟨single,nofun⟩
  | @pass label body =>
    have known := ordinary sited
    simp only [isOrdinary,Bool.and_eq_true,List.isEmpty_iff] at known
    obtain ⟨⟨⟨⟨rfl,_⟩,_⟩,_⟩,_⟩ := known
    exact ⟨rfl,fun _ => ⟨label,body,rfl⟩⟩
  | first => cases ordinary sited
  | round => cases ordinary sited
  | stop => cases ordinary sited

theorem takes_facts {kinds : KindSet} (sited : Todo.Sited .ifStatement (form :: rest)) (takes : form.Takes kinds)
    (fits : kinds.contains kind = true) : rest ≠ [] ∧ (isCall rest = true → kind = .kwElse) := by
  have known := ordinary sited
  cases takes with
  | token label own =>
    simp only [isOrdinary,and_eq_true,or_eq_true,not_eq_true',beq_iff_eq] at known
    refine ⟨by simpa using known.1,fun last => ?_⟩
    have same : kind = own := by simpa using fits
    exact same.trans (known.2.resolve_left (by simp [last]))
  | oneOf _ _ => cases known

end Facts

end Conditional

namespace Parse

variable {base : Rule} {parse after : Parse} {sites : List Label} {source : List Token}

-- If a conditional statement is left before an `else`, nothing more can be read at all.
theorem passed_stuck (placed : Placed parse) (own : parse.frame.rule = .ifStatement)
    (head : parse.frame.todo = [.optional label body]) (next : parse.step source = .more after)
    (clean : after.diagnostics = []) (passed : after.frame.todo = []) (word : parse.input.current.kind = .kwElse) :
    (parse.goto []).Stuck base := by
  have sited := placed.top
  rw [own,head] at sited
  have known := Conditional.ordinary sited
  simp only [Conditional.isOrdinary,and_eq_true,Option.isNone_iff_eq_none] at known
  obtain ⟨⟨⟨⟨_,untested⟩,turns⟩,_⟩,heads⟩ := known
  obtain ⟨first,member,facts⟩ := any_eq_true.mp heads
  simp only [and_eq_true,beq_iff_eq,Option.isNone_iff_eq_none] at facts
  obtain ⟨⟨isWord,takes⟩,free⟩ := facts
  have place : [.optional label body] ∈ Grammar.places := Grammar.mem_places sited.mem rfl
  have made : Decision.get label = .make .ifStatement false [Todo.reach [body],Todo.reach []] := by
    rw [Decision.get_of_place place rfl,Decision.key_rule (sited.place rfl) rfl]
  obtain ⟨option,picked,todo⟩ := optional_picked placed head (by rw [made]; exact untested) next clean
  have ahead : parse.input.ahead = parse.input.current :: parse.input.later := rfl
  rw [made,ahead] at picked
  rw [Decision.forecast_turned turns ⟨_,by rw [map_cons,word]; rfl⟩] at picked
  rintro sites count left ⟨within,reads⟩
  have framed : Framed base parse.frame parse.callers sites := left.same rfl
  have linked : Linked base .ifStatement sites := own ▸ framed.linked
  have located : ∀ reach ∈ [Todo.reach [body],Todo.reach []], reach.Located .ifStatement :=
    forall_mem_cons.mpr ⟨Todo.reach_located (Todo.sited_body sited),
      forall_mem_singleton.mpr (Todo.reach_located sited.tail)⟩
  have viable : Decision.Viable parse.frame.level [Todo.reach [body],Todo.reach []] sites parse.kindsAhead 2 count :=
    ⟨_,by omega,rfl,within,reads⟩
  obtain ⟨_,seen,longest,⟨_,counted,known,bound,reads⟩,least⟩ :=
    Decision.foresee_prime located linked false placed.closed viable 0
  rw [framed.pending] at picked
  cases Option.some.inj (seen.symm.trans picked)
  have further := least 2 count viable
  cases longest with
  | zero => omega
  | succ longest =>
    have second : option = 2 := by
      rcases option with _ | _ | _ | _
      · omega
      · cases todo.symm.trans passed
      · rfl
      · cases known
    subst second
    cases known
    -- what is read by leaving the statement is read by taking the `else` just as well
    have kinds : parse.kindsAhead = .kwElse :: parse.input.later.map (·.kind) := by
      rw [kindsAhead,ahead,map_cons,word]
    have taken : (Todo.reach [body]).Reads parse.frame.level sites (parse.kindsAhead.take (longest + 1)) := by
      change Reach.nothing.Reads _ _ (parse.kindsAhead.take (longest + 1)) at reads
      rw [kinds,take_succ_cons] at reads ⊢
      exact .take (.own member (by rw [free]; rfl)) takes (isWord ▸ Conditional.else_within linked reads)
    have first := least 1 (longest + 1) ⟨_,by omega,rfl,bound,taken⟩
    omega

end Parse

namespace Frame

variable {frame : Frame} {tree : Tree}

theorem ElseNearest.close (nearest : frame.ElseNearest) (stop : Option Token) :
    ∀ phrase ∈ (frame.close stop).phrases, phrase.ElseNearest := by
  intro phrase inside
  rcases mem_cons.mp inside with rfl | below
  · exact nearest.2
  · obtain ⟨tree,member,deeper⟩ := Tree.mem_allPhrases.mp below
    exact nearest.1 tree (mem_reverse.mp member) phrase deeper

theorem ElseNearest.add (nearest : frame.ElseNearest) (inside : ∀ phrase ∈ tree.phrases, phrase.ElseNearest)
    (before : tree.isMember (.token .kwElse) = true → frame.built.head?.any Tree.dangles = false) :
    (frame.add tree).ElseNearest := by
  refine ⟨forall_mem_cons.mpr ⟨inside,nearest.1⟩,?_⟩
  change (tree :: frame.built).reverse.IsChain _
  rw [reverse_cons]
  refine nearest.2.append (.singleton tree) fun last ends second same word => ?_
  cases same
  have closed := before word
  rw [← List.getLast?_reverse,show frame.built.reverse.getLast? = some last from ends] at closed
  exact closed

theorem open_elseNearest (rule : Rule) (level : Nat) (site : Option Label) (start : Token) :
    (Frame.open rule level site start).ElseNearest :=
  ⟨fun _ member => (nomatch member),.nil⟩

theorem isHalf_rule (half : (frame.close none).isHalf = true) : frame.rule = .ifStatement := by
  simp only [close,Tree.isHalf,Tree.isMember,and_eq_true,decide_eq_true_eq,Member.phrase.injEq] at half
  exact half.1.symm

theorem isHalf_add (whole : (frame.close none).isHalf = false) : ((frame.add tree).close none).isHalf = false := by
  simp only [close,add,Tree.isHalf,Tree.isMember,Tree.children,any_reverse,any_cons,and_eq_false_iff,
    not_eq_false',or_eq_true] at whole ⊢
  exact whole.imp id .inr

theorem dangles_close (dangles : (frame.close stop).dangles = true) :
    (frame.close none).isHalf = true ∨ frame.built.head?.any Tree.dangles = true := by
  rw [close,Tree.dangles_node,List.getLast?_reverse,or_eq_true] at dangles
  exact dangles

end Frame

namespace Parse

variable {base : Rule} {parse after : Parse} {sites : List Label} {source : List Token}

theorem Nearest.of_alike (alike : Alike after other) (nearest : Nearest base other) : Nearest base after := by
  obtain ⟨frame,callers,input⟩ := alike
  obtain ⟨closed,waiting,entered,edge⟩ := nearest
  refine ⟨by rwa [frame,callers],by rwa [callers],by rwa [frame],fun word dangles sites count framed reads => ?_⟩
  rw [input] at word
  rw [frame] at dangles
  rw [frame,callers] at framed
  rw [ReadsFor,kindsAhead,frame,input] at reads
  exact edge word dangles sites count framed reads

section Steps

variable {label : Label} {count : Nat}
variable {caller : Frame} {callers : List Frame} {rest : Todo}

theorem Nearest.left (nearest : Nearest base parse) (framed : Framed base parse.frame parse.callers sites)
    (done : parse.frame.todo = []) (below : parse.callers = caller :: callers) :
    Nearest base { parse with frame := caller.add (parse.frame.close parse.previous), callers } := by
  have waits := nearest.waiting
  have closed := nearest.nearest
  rw [below] at waits closed framed
  obtain ⟨own,outer⟩ := forall_mem_cons.mp closed
  obtain ⟨next,others⟩ := forall_mem_cons.mp outer
  obtain ⟨waiting,later⟩ := forall_mem_cons.mp waits
  have added := next.add (own.close parse.previous) fun isWord => by cases isWord
  refine ⟨forall_mem_cons.mpr ⟨added,others⟩,later,fun rule call => ?_,fun word dangles => ?_⟩
  · cases call.symm.trans (waiting rule).1
  · have before : parse.frame.Dangles := by
      rcases dangles with last | ⟨spent,half⟩
      · exact (Frame.dangles_close last).elim (fun half => .inr ⟨done,half⟩) .inl
      · have rule : (caller.add (parse.frame.close parse.previous)).rule = .ifStatement := Frame.isHalf_rule half
        cases half.symm.trans (Frame.isHalf_add ((waiting rule).2 spent))
    intro _ count outer reads
    cases framed with
    | called opened calls there behind _ =>
      refine nearest.edge word before _ count ?_ (reads.left done behind rfl)
      rw [below]
      exact .called opened calls there behind (outer.same rfl)

theorem Nearest.opened {kind : Kind} (nearest : Nearest base parse) (placed : Placed parse)
    (next : parse.step source = .more after) (clean : after.diagnostics = [])
    (opens : Todo.Opens kind parse.frame.todo after.frame.todo) : Nearest base (parse.goto after.frame.todo) := by
  obtain ⟨own,others⟩ := forall_mem_cons.mp nearest.nearest
  have sited := placed.top
  refine ⟨forall_mem_cons.mpr ⟨own,others⟩,nearest.waiting,fun rule call => ?_,fun word dangles => ?_⟩
  · rw [show parse.frame.rule = .ifStatement from rule] at sited
    cases call.symm.trans (Conditional.opens_facts sited opens).1
  · rcases dangles with last | ⟨spent,half⟩
    · intro sites count framed reads
      exact nearest.edge word (.inl last) sites count (framed.same rfl) (reads.opened placed rfl rfl opens)
    · have rule : parse.frame.rule = .ifStatement := Frame.isHalf_rule half
      rw [rule] at sited
      have passed : after.frame.todo = [] := spent
      obtain ⟨label,body,head⟩ := (Conditional.opens_facts sited opens).2 passed
      rw [passed]
      exact passed_stuck placed rule head next clean passed word

theorem Nearest.called {rule : Rule} {level : Nat} (nearest : Nearest base parse) (placed : Placed parse)
    (head : parse.frame.todo = .call label rule level :: rest) : Nearest base { parse with
      frame := .open rule level (some label) parse.input.current,
      callers := { parse.frame with todo := rest } :: parse.callers } := by
  obtain ⟨own,others⟩ := forall_mem_cons.mp nearest.nearest
  have sited := placed.top
  rw [head] at sited
  refine ⟨forall_mem_cons.mpr ⟨Frame.open_elseNearest ..,forall_mem_cons.mpr ⟨own,others⟩⟩,
    forall_mem_cons.mpr ⟨fun conditional => ⟨?_,fun spent => ?_⟩,nearest.waiting⟩,fun conditional call => ?_,
    fun _ dangles => ?_⟩
  · rw [show parse.frame.rule = .ifStatement from conditional] at sited
    simpa [Conditional.isOrdinary] using Conditional.ordinary sited
  · have last : rest = [] := spent
    exact nearest.entered conditional (by rw [head,last]; rfl)
  · cases (show rule = .ifStatement from conditional)
    cases call
  · rcases dangles with last | ⟨spent,_⟩
    · cases last
    · cases spent

theorem Nearest.wrapped {bound : Nat} (nearest : Nearest base parse) (placed : Placed parse)
    (head : parse.frame.todo = .wrap label bound :: rest) (within : parse.frame.level ≤ bound) :
    Nearest base (parse.wrap.goto rest) := by
  obtain ⟨own,others⟩ := forall_mem_cons.mp nearest.nearest
  have sited := placed.top
  rw [head] at sited
  have other : parse.frame.rule ≠ .ifStatement := by
    intro conditional
    rw [conditional] at sited
    cases Conditional.ordinary sited
  have whole : (parse.wrap.goto rest).frame.ElseNearest :=
    ⟨forall_mem_singleton.mpr (own.close parse.previous),.singleton _⟩
  refine ⟨forall_mem_cons.mpr ⟨whole,others⟩,nearest.waiting,fun conditional => absurd conditional other,
    fun word dangles sites count framed reads => ?_⟩
  have before : parse.frame.Dangles := by
    rcases dangles with last | ⟨_,half⟩
    · exact (Frame.dangles_close last).elim (fun half => absurd (Frame.isHalf_rule half) other) .inl
    · exact absurd (Frame.isHalf_rule half) other
  exact nearest.edge word before sites count (framed.same rfl) (reads.wrapped placed rfl rfl head within)

theorem Nearest.matched {form : Form Label} {kinds : KindSet} (nearest : Nearest base parse)
    (placed : Placed parse) (framed : Framed base parse.frame parse.callers sites) (reads : parse.ReadsFor sites count)
    (head : parse.frame.todo = form :: rest) (takes : form.Takes kinds)
    (fits : kinds.contains parse.input.current.kind = true) : Nearest base (parse.shift.goto rest) := by
  obtain ⟨own,others⟩ := forall_mem_cons.mp nearest.nearest
  have sited := placed.top
  rw [head] at sited
  have added : (parse.frame.add (.leaf parse.input.current)).ElseNearest := by
    refine own.add (fun _ inside => by cases inside) fun isWord => ?_
    -- where nothing more can be read, no `else` is taken either
    by_contra last
    have word : parse.input.current.kind = .kwElse := by simpa [Tree.isMember,eq_comm] using isWord
    have absent := nearest.edge word (.inl (by simpa using last)) sites count framed reads
    obtain ⟨_,reads⟩ := reads
    obtain ⟨_,_,same,behind,_⟩ := takes.marked sited
    rw [absent,head,take_zero,Todo.reads_head same behind] at reads
    obtain ⟨_,_,impossible,_⟩ := reads
    cases impossible
  refine ⟨forall_mem_cons.mpr ⟨added,others⟩,nearest.waiting,fun conditional call => ?_,fun _ dangles => ?_⟩
  · rw [show parse.frame.rule = .ifStatement from conditional] at sited
    have word := (Conditional.takes_facts sited takes fits).2 call
    simp [Frame.close,goto,shift,Frame.add,Tree.isHalf,Tree.children,Tree.isMember,word]
  · rcases dangles with last | ⟨spent,half⟩
    · cases last
    · have conditional : (parse.shift.goto rest).frame.rule = .ifStatement := Frame.isHalf_rule half
      rw [show parse.frame.rule = .ifStatement from conditional] at sited
      exact absurd spent (Conditional.takes_facts sited takes fits).1

theorem Nearest.step (nearest : Nearest base parse) (placed : Placed parse)
    (framed : Framed base parse.frame parse.callers sites) (reads : parse.ReadsFor sites count)
    (next : parse.step source = .more after) (effect : Effect parse after) (clean : after.diagnostics = []) :
    Nearest base after := by
  cases effect with
  | left done below alike _ => exact (nearest.left framed done below).of_alike alike
  | @opened _ todo opens alike marks =>
    rcases marks with ⟨rfl,_⟩ | ⟨reported,_⟩
    · have same : after.frame.todo = todo := congrArg Frame.todo alike.frame
      have moved := nearest.opened placed next clean (same ▸ opens)
      rw [same] at moved
      exact moved.of_alike alike
    · exact absurd clean reported
  | called head alike _ => exact (nearest.called placed head).of_alike alike
  | wrapped head within alike _ => exact (nearest.wrapped placed head within).of_alike alike
  | matched head takes fits alike _ _ _ => exact (nearest.matched placed framed reads head takes fits).of_alike alike
  | matchedLate _ _ _ _ reported => exact absurd clean reported
  | supplied _ _ _ _ _ _ reported => exact absurd clean reported
  | abandoned _ _ _ givesUp => exact absurd clean givesUp.noted

end Steps

theorem start_nearest (rule : Rule) (input : Input) : Nearest base (start rule input) := by
  refine ⟨forall_mem_singleton.mpr (Frame.open_elseNearest ..),fun _ member => (nomatch member),fun own call => ?_,
    fun _ dangles => ?_⟩
  · cases (show rule = .ifStatement from own)
    cases call
  · rcases dangles with last | ⟨spent,_⟩
    · cases last
    · cases spent

theorem outcome_nearest {rule : Rule} {input : Input} {final : Parse} (closed : Token.Closed input.ahead)
    (ran : outcome source rule input = (tree,final,true)) (clean : final.diagnostics = []) :
    ∀ phrase ∈ tree.phrases, phrase.ElseNearest := by
  obtain ⟨_,⟨_,nearest,_⟩,rfl,done⟩ := run_follows
    (fun parse => (∃ sites, Framed rule parse.frame parse.callers sites) ∧ Nearest rule parse ∧
      ∃ fuel, parse.run source fuel = (tree,final,true)) source
    (fun {before after} placed ⟨⟨sites,framed⟩,nearest,fuel,ran⟩ next effect => by
      obtain ⟨count,reads⟩ := run_reads placed framed ran clean
      cases fuel with
      | zero => cases ran
      | succ fuel =>
        rw [run,next] at ran
        have quiet := clean_of_run (effect.placed placed) ran clean
        exact ⟨effect.framed placed framed,nearest.step placed framed reads next effect quiet,fuel,ran⟩)
    _ (start_placed closed) ⟨⟨[],.outermost rfl rfl rfl⟩,start_nearest rule input,_,ran⟩ ran
  obtain ⟨_,outermost⟩ := done rfl
  rw [collapsed,outermost]
  exact (forall_mem_cons.mp nearest.nearest).1.close final.previous

end Parse

end SolReader
