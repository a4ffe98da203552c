import SolReader.Proofs.Reading.Leaves
import SolReader.Proofs.Parse.Outcome
import SolReader.Proofs.Ast.Nodes

namespace SolReader

-- The rules whose phrases may be children of a phrase of the rule: those it asks for, and the rule itself if it begins
-- with itself.
def Rule.parts (rule : Rule) : List Rule :=
  rule.spots.filterMap fun
    | .call _ inner _ :: _ => some inner
    | .wrap _ _ :: _ => some rule
    | _ => none

namespace Rule

variable {level : Nat}
variable {rule : Rule} {label : Label} {rest : Todo}

theorem mem_parts_call {inner : Rule} (sited : Todo.Sited rule (.call label inner level :: rest)) : inner ∈ rule.parts :=
  List.mem_filterMap.mpr ⟨_,sited.mem,rfl⟩

theorem mem_parts_wrap (sited : Todo.Sited rule (.wrap label level :: rest)) : rule ∈ rule.parts :=
  List.mem_filterMap.mpr ⟨_,sited.mem,rfl⟩

end Rule

namespace Tree

-- The tree may be a child of a phrase of the rule.
def Suits (rule : Rule) (tree : Tree) : Prop :=
  ∀ inner, tree.rule? = some inner → inner ∈ rule.parts

def Fitted (tree : Tree) : Prop :=
  ∀ phrase ∈ tree.phrases, ∀ rule, phrase.rule? = some rule → ∀ child ∈ phrase.children, child.Suits rule

theorem Fitted.phrase {tree phrase : Tree} (fitted : tree.Fitted) (inside : phrase ∈ tree.phrases) : phrase.Fitted :=
  fun inner below => fitted inner (phrases_trans inside below)

theorem Fitted.child {tree child : Tree} (fitted : tree.Fitted) (member : child ∈ tree.children) : child.Fitted :=
  fun inner below => fitted inner (phrases_child member below)

theorem Fitted.suits {tree child : Tree} {rule : Rule} (fitted : tree.Fitted) (found : tree.rule? = some rule)
    (member : child ∈ tree.children) : child.Suits rule := by
  cases tree with
  | leaf token => cases member
  | error token => cases member
  | node own start stop children => exact fitted _ List.mem_cons_self rule found child member

-- If the tree is of a rule of a set that is closed under asking for parts, so is every phrase in it.
theorem Fitted.within {holds : Rule → Bool} (closed : ∀ rule, holds rule = true → ∀ inner ∈ rule.parts, holds inner = true)
    {tree : Tree} (fitted : tree.Fitted) (root : ∀ rule, tree.rule? = some rule → holds rule = true) {phrase : Tree}
    (inside : phrase ∈ tree.phrases) (found : phrase.rule? = some rule) : holds rule = true := by
  induction tree using by_size with
  | step tree ih =>
    cases tree with
    | leaf token => cases inside
    | error token => cases inside
    | node own start stop children =>
      rcases List.mem_cons.mp inside with rfl | below
      · exact root rule found
      · obtain ⟨child,member,deeper⟩ := mem_allPhrases.mp below
        have held : child ∈ (node own start stop children).children := member
        refine ih child (size_child held) (fitted.child held) (fun inner isInner => ?_) deeper
        exact closed own (root own rfl) inner (fitted.suits rfl held inner isInner)

end Tree

namespace Frame

variable {frame : Frame}

def Fitted (frame : Frame) : Prop :=
  ∀ tree ∈ frame.built, tree.Fitted ∧ tree.Suits frame.rule

theorem Fitted.add (fitted : frame.Fitted) {tree : Tree} (inside : tree.Fitted)
    (suits : tree.Suits frame.rule) : (frame.add tree).Fitted :=
  List.forall_mem_cons.mpr ⟨⟨inside,suits⟩,fitted⟩

theorem Fitted.close (fitted : frame.Fitted) (stop : Option Token) : (frame.close stop).Fitted := by
  intro phrase inside rule found child member
  rcases List.mem_cons.mp inside with rfl | below
  · cases found
    exact (fitted child (List.mem_reverse.mp member)).2
  · obtain ⟨tree,held,deeper⟩ := Tree.mem_allPhrases.mp below
    exact (fitted tree (List.mem_reverse.mp held)).1 phrase deeper rule found child member

end Frame

namespace Parse

-- The rule was asked for by the frame below it, and so on down.
def Chained : Rule → List Frame → Prop
  | _, [] => True
  | rule, caller :: callers => rule ∈ caller.rule.parts ∧ Chained caller.rule callers

structure Fitted (parse : Parse) : Prop where
  top : parse.frame.Fitted
  below : ∀ caller ∈ parse.callers, caller.Fitted
  chained : Chained parse.frame.rule parse.callers

namespace Fitted

variable {before after : Parse}

theorem alike (fitted : Fitted before) (alike : Alike after before) : Fitted after where
  top := by
    rw [alike.frame]
    exact fitted.top
  below := by
    rw [alike.callers]
    exact fitted.below
  chained := by
    rw [alike.frame,alike.callers]
    exact fitted.chained

theorem goto (fitted : Fitted before) (todo : Todo) : Fitted (before.goto todo) :=
  ⟨fitted.top,fitted.below,fitted.chained⟩

theorem leaf (fitted : Fitted before) {tree : Tree} (empty : tree.phrases = []) (bare : tree.rule? = none) (input : Input) :
    Fitted { before with frame := before.frame.add tree, input } where
  top := by
    refine fitted.top.add (fun phrase inside => ?_) (fun rule found => ?_)
    · rw [empty] at inside
      cases inside
    · rw [bare] at found
      cases found
  below := fitted.below
  chained := fitted.chained

theorem drop (fitted : Fitted before) : Fitted before.drop := fitted.leaf rfl rfl _

theorem shift (fitted : Fitted before) : Fitted before.shift := fitted.leaf rfl rfl _

theorem dropped (fitted : Fitted before) (count : Nat) : Fitted (before.dropped count) := by
  induction count generalizing before with
  | zero => exact fitted
  | succ count ih => exact ih fitted.drop

theorem wrap (fitted : Fitted before) (wraps : before.frame.rule ∈ before.frame.rule.parts) : Fitted before.wrap where
  top := by
    refine List.forall_mem_singleton.mpr ⟨fitted.top.close _,?_⟩
    rintro rule ⟨⟩
    exact wraps
  below := fitted.below
  chained := fitted.chained

theorem left (fitted : Fitted before) {caller : Frame} {callers : List Frame}
    (below : before.callers = caller :: callers) :
    Fitted { before with frame := caller.add (before.frame.close before.previous), callers } := by
  obtain ⟨top,others,chained⟩ := fitted
  rw [below] at others chained
  obtain ⟨own,rest⟩ := List.forall_mem_cons.mp others
  refine ⟨own.add (top.close _) ?_,rest,chained.2⟩
  rintro rule ⟨⟩
  exact chained.1

theorem called (fitted : Fitted before) {rule : Rule} (asked : rule ∈ before.frame.rule.parts) (level : Nat)
    (site : Option Label) (rest : Todo) :
    Fitted { before with
      frame := .open rule level site before.input.current,
      callers := { before.frame with todo := rest } :: before.callers } where
  top := List.forall_mem_nil _
  below := List.forall_mem_cons.mpr ⟨fitted.top,fitted.below⟩
  chained := ⟨asked,fitted.chained⟩

end Fitted

theorem Effect.fitted (effect : Effect before after) (placed : Placed before)
    (fitted : Fitted before) : Fitted after := by
  cases effect with
  | left _ below alike => exact (fitted.left below).alike alike
  | opened _ alike => exact ((fitted.dropped _).goto _).alike alike
  | called head alike => exact (fitted.called (Rule.mem_parts_call (head ▸ placed.top)) ..).alike alike
  | wrapped head _ alike => exact ((fitted.wrap (Rule.mem_parts_wrap (head ▸ placed.top))).goto _).alike alike
  | matched _ _ _ alike => exact (fitted.shift.goto _).alike alike
  | matchedLate _ _ _ alike => exact (fitted.drop.shift.goto _).alike alike
  | supplied _ _ _ _ alike =>
    rcases alike with alike | ⟨kind,place,alike⟩
    · exact (fitted.goto _).alike alike
    · have added : Fitted (before.add (.error (.madeUp kind place))) := fitted.leaf rfl rfl _
      exact (added.goto _).alike alike
  | @abandoned form label rest base count head _ origin givesUp steady =>
    have based : Fitted base := by
      rcases steady with rfl | ⟨level,rfl⟩
      · exact fitted
      · rcases origin with rfl | rfl
        · exact fitted
        · exact fitted.wrap (Rule.mem_parts_wrap (head ▸ placed.top))
    exact ((based.dropped count).goto _).alike givesUp.alike

end Parse

theorem Reading.ofText_fitted (rule : Rule) (text : String) :
    (ofText rule text).tree.Fitted ∧ (ofText rule text).tree.rule? = some rule := by
  obtain ⟨input,tree,final,ahead,ran,result⟩ := ofText_ran rule text
  have closed : Token.Closed input.ahead := ahead ▸ closed_visible text
  obtain ⟨_,⟨fitted,rooted⟩,whole,done⟩ := Parse.run_keeps
    (fun parse => Parse.Fitted parse ∧ Parse.Rooted rule parse.frame parse.callers)
    (fun placed kept effect => ⟨effect.fitted placed kept.1,effect.rooted placed kept.2⟩)
    (tokens text) _ (Parse.start_placed closed) ⟨⟨List.forall_mem_nil _,List.forall_mem_nil _,trivial⟩,rfl,rfl⟩ ran
  obtain ⟨_,outermost⟩ := done rfl
  rw [outermost] at rooted
  rw [result]
  change tree.Fitted ∧ tree.rule? = some rule
  rw [whole,Parse.collapsed,outermost]
  exact ⟨fitted.top.close _,congrArg some rooted.1⟩

end SolReader
