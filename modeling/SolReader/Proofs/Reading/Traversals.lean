import SolReader.Parse.Step
import SolReader.Proofs.KindSet
import SolReader.Tree.Visit

namespace SolReader

open List

-- A tree without the places of its tokens.
inductive Skeleton where
  | leaf (text : String)
  | error (text : String)
  | node (rule : Rule) (children : List Skeleton)

namespace Tree

mutual

def skeleton : Tree → Skeleton
  | .leaf token => .leaf token.text
  | .error token => .error token.text
  | .node rule _ _ children => .node rule (skeletons children)

def skeletons : List Tree → List Skeleton
  | [] => []
  | tree :: trees => tree.skeleton :: skeletons trees

end

mutual

-- The leaves from left to right, each with a mark that says whether it is an error.
def markedLeaves : Tree → List (Bool × Token)
  | .leaf token => [(false,token)]
  | .error token => [(true,token)]
  | .node _ _ _ children => allMarkedLeaves children

def allMarkedLeaves : List Tree → List (Bool × Token)
  | [] => []
  | tree :: trees => tree.markedLeaves ++ allMarkedLeaves trees

end

end Tree

def Rule.ofTitle? (title : String) : Option Rule :=
  all.find? (·.title == title)

set_option maxRecDepth 100000 in
theorem Rule.titles_checked : (all.all fun rule => ofTitle? rule.title == some rule) = true := by
  decide

theorem Rule.ofTitle?_title (rule : Rule) : ofTitle? rule.title = some rule :=
  beq_iff_eq.mp (all_eq_true.mp titles_checked rule (mem_all rule))

namespace Event

-- The event that a line reports.
def ofLine? (line : String) : Option Event :=
  match line.toList with
  | 't' :: ' ' :: text => some (.token (.ofList text))
  | 'e' :: ' ' :: text => some (.error (.ofList text))
  | 'e' :: 'n' :: 't' :: 'e' :: 'r' :: ' ' :: title => (Rule.ofTitle? (.ofList title)).map .enter
  | 'e' :: 'x' :: 'i' :: 't' :: ' ' :: title => (Rule.ofTitle? (.ofList title)).map .exit
  | _ => none

theorem ofLine?_line (event : Event) : ofLine? event.line = some event := by
  cases event with
  | enter rule => simp [line,ofLine?,Rule.ofTitle?_title]
  | exit rule => simp [line,ofLine?,Rule.ofTitle?_title]
  | token text => simp [line,ofLine?]
  | error text => simp [line,ofLine?]

theorem mapM_ofLine? (events : List Event) : (events.map line).mapM ofLine? = some events := by
  induction events with
  | nil => rfl
  | cons event events ih =>
    rw [map_cons,mapM_cons,ofLine?_line,ih]
    rfl

-- Whether every rule that is entered is left again, the last one entered first, and no other is left.
def nested : (entered : List Rule) → List Event → Bool
  | entered, [] => entered.isEmpty
  | entered, .enter rule :: events => nested (rule :: entered) events
  | inner :: entered, .exit rule :: events => inner == rule && nested entered events
  | [], .exit _ :: _ => false
  | entered, .token _ :: events | entered, .error _ :: events => nested entered events

-- Builds trees from events.  `outer` holds the rules that were entered, each with what was built before it, and `built`
-- what has been built since, the last first.
def build : (outer : List (Rule × List Skeleton)) → (built : List Skeleton) → List Event → Option (List Skeleton)
  | [], built, [] => some built.reverse
  | _ :: _, _, [] => none
  | outer, built, .enter rule :: events => build ((rule,built) :: outer) [] events
  | (inner,before) :: outer, built, .exit rule :: events =>
    if inner = rule then build outer (.node rule built.reverse :: before) events else none
  | [], _, .exit _ :: _ => none
  | outer, built, .token text :: events => build outer (.leaf text :: built) events
  | outer, built, .error text :: events => build outer (.error text :: built) events

-- The only tree that the lines of a report tell of.
def decode (lines : List String) : Option Skeleton :=
  match (lines.mapM ofLine?).bind (build [] []) with
  | some [skeleton] => some skeleton
  | _ => none

end Event

namespace Tree

mutual

theorem nested_events (entered : List Rule) (later : List Event) (tree : Tree) :
    Event.nested entered (tree.events ++ later) = Event.nested entered later := by
  cases tree with
  | leaf token => rfl
  | error token => rfl
  | node rule start stop children =>
    simp only [events,cons_append,append_assoc,nil_append]
    rw [Event.nested,nested_allEvents,Event.nested,beq_self_eq_true,Bool.true_and]

theorem nested_allEvents (entered : List Rule) (later : List Event) (trees : List Tree) :
    Event.nested entered (allEvents trees ++ later) = Event.nested entered later := by
  cases trees with
  | nil => rfl
  | cons tree trees => rw [allEvents,append_assoc,nested_events entered,nested_allEvents entered]

end

mutual

theorem build_events (outer : List (Rule × List Skeleton)) (built : List Skeleton) (later : List Event) (tree : Tree) :
    Event.build outer built (tree.events ++ later) = Event.build outer (tree.skeleton :: built) later := by
  cases tree with
  | leaf token => rw [events,singleton_append,Event.build,skeleton]
  | error token => rw [events,singleton_append,Event.build,skeleton]
  | node rule start stop children =>
    simp only [events,cons_append,append_assoc,nil_append]
    rw [Event.build,build_allEvents,Event.build,if_pos rfl,append_nil,reverse_reverse,skeleton]

theorem build_allEvents (outer : List (Rule × List Skeleton)) (built : List Skeleton) (later : List Event)
    (trees : List Tree) : Event.build outer built (allEvents trees ++ later) =
      Event.build outer ((skeletons trees).reverse ++ built) later := by
  cases trees with
  | nil => rfl
  | cons tree trees =>
    rw [allEvents,append_assoc,build_events,build_allEvents,skeletons,reverse_cons,append_assoc,
      singleton_append]

end

theorem nested_walk (tree : Tree) : Event.nested [] tree.events = true := by
  have whole := nested_events [] [] tree
  rw [append_nil] at whole
  exact whole

theorem decode_lines (tree : Tree) : Event.decode (tree.events.map Event.line) = some tree.skeleton := by
  have built := build_events [] [] [] tree
  rw [append_nil] at built
  rw [Event.decode,Event.mapM_ofLine?,Option.bind_some,built]
  rfl

section Visit

variable {α : Type}

mutual

theorem accept_hooked {visitor : Visitor α} (free : ∀ title, visitor.hook? title = none) (tree : Tree) :
    tree.accept visitor.hooked = tree.accept visitor := by
  cases tree with
  | leaf token => rfl
  | error token => rfl
  | node rule start stop children =>
    have below := acceptAll_hooked free visitor.nothing children
    have hook : visitor.hooked.hook? rule.title = some fun _ below => below := by
      change (visitor.hook? rule.title).or ((Rule.ofTitle? rule.title).map _) = _
      rw [free,Rule.ofTitle?_title]
      rfl
    rw [accept,accept,hook,free]
    exact below

theorem acceptAll_hooked {visitor : Visitor α} (free : ∀ title, visitor.hook? title = none) (result : α)
    (trees : List Tree) : acceptAll visitor.hooked result trees = acceptAll visitor result trees := by
  cases trees with
  | nil => rfl
  | cons tree trees =>
    rw [acceptAll,acceptAll,accept_hooked free tree]
    exact acceptAll_hooked free _ trees

end

-- A leaf as a visit shows it.
def shown (leaf : Bool × Token) : String :=
  if leaf.1 then "!" ++ leaf.2.text else leaf.2.text

mutual

theorem accept_texts (tree : Tree) : tree.accept .texts = tree.markedLeaves.map shown := by
  cases tree with
  | leaf token => rfl
  | error token => rfl
  | node rule start stop children => exact acceptAll_texts [] children

theorem acceptAll_texts (before : List String) (trees : List Tree) :
    acceptAll .texts before trees = before ++ (allMarkedLeaves trees).map shown := by
  cases trees with
  | nil => rw [acceptAll,allMarkedLeaves,map_nil,append_nil]
  | cons tree trees =>
    rw [acceptAll,acceptAll_texts,accept_texts tree,allMarkedLeaves,map_append,← append_assoc]
    rfl

end

theorem stopping_none (visitor : Visitor (List String)) : visitor.stopping [] = visitor := by
  cases visitor
  rfl

end Visit

end Tree

-- Whatever text is read as whatever rule, with errors or without: the walk through its tree is properly nested and tells the
-- whole tree, and a visit that collects texts gives the leaves from left to right, with hooks for the rules or without.
theorem Reading.traversals_agree (rule : Rule) (text : String) :
    Event.nested [] (ofText rule text).tree.events = true ∧
      Event.decode ((ofText rule text).tree.events.map Event.line) = some (ofText rule text).tree.skeleton ∧
      (ofText rule text).tree.flat [] = (ofText rule text).tree.markedLeaves.map Tree.shown ∧
      (ofText rule text).tree.accept .texts = (ofText rule text).tree.flat [] := by
  have same (tree : Tree) : tree.flat [] = tree.accept .texts := by
    rw [Tree.flat,Tree.stopping_none,Tree.accept_hooked fun _ => rfl]
  refine ⟨Tree.nested_walk _,Tree.decode_lines _,?_,(same _).symm⟩
  rw [same,Tree.accept_texts]

end SolReader
