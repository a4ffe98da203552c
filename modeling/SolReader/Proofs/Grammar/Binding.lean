import SolReader.Proofs.Ast.Known
import SolReader.Proofs.Grammar.Expression
import SolReader.Proofs.Parse.Soundness

namespace SolReader

open List

theorem Kind.binding?_checked : ∀ kind : Kind, (kind.binding?.all (· ≤ 14)) = true := by
  decide

theorem Kind.binding?_le {kind : Kind} (binds : level ∈ kind.binding?) : level ≤ 14 := by
  have checked := Kind.binding?_checked kind
  rw [Option.mem_def.mp binds] at checked
  exact of_decide_eq_true checked

-- The token can come right after the operand that it is applied to.
def Kind.isPostfix (kind : Kind) : Bool :=
  [.plusPlus,.minusMinus,.lbracket,.dot,.lbrace,.lparen].contains kind

namespace Tree

def isExpression (tree : Tree) : Bool := tree.rule? == some .expression

-- What follows the first operand of an expression that begins with one.
def operator? (tree : Tree) : Option Kind :=
  if tree.isExpression then
    match tree.children with
    | first :: .leaf token :: _ => if first.isExpression then some token.kind else none
    | _ => none
  else none

-- The level of a binary operation, an assignment or a conditional that stands in no brackets.
def binding? (tree : Tree) : Option Nat := tree.operator?.bind Kind.binding?

-- The expression is an operator with its operand after it.
def isPrefixed (tree : Tree) : Bool :=
  tree.isExpression && match tree.children with
    | [.leaf _,operand] => operand.isExpression
    | _ => false

-- The expression begins with the operand of a postfix operator, a member access, an index or a call.
def isPostfixed (tree : Tree) : Bool := tree.operator?.any Kind.isPostfix

-- No operand binds less tightly than the operation it stands in.  Of a conditional, the operand in the middle stands
-- between its two tokens and is not restricted.
structure Binds (tree : Tree) : Prop where
  first : ∀ level ∈ tree.binding?, ∀ operand ∈ tree.children.head?, ∀ inner ∈ operand.binding?, level ≤ inner
  last : ∀ level ∈ tree.binding?, ∀ operand ∈ tree.children.getLast?, ∀ inner ∈ operand.binding?, level ≤ inner
  prefixed : tree.isPrefixed = true → ∀ operand ∈ tree.children.getLast?, operand.binding? = none
  postfixed : tree.isPostfixed = true → ∀ base ∈ tree.children.head?, base.binding? = none ∧ base.isPrefixed = false

-- The tree can stand before an operator of this kind.
def Precedes (tree : Tree) (kind : Kind) : Prop :=
  (∀ level ∈ kind.binding?, ∀ inner ∈ tree.binding?, level ≤ inner) ∧
    (kind.isPostfix = true → tree.binding? = none ∧ tree.isPrefixed = false)

-- The first operand binds tightly enough for the operator that follows it.
def LeftBinds (tree : Tree) : Prop :=
  ∀ kind ∈ tree.operator?, ∀ first ∈ tree.children.head?, first.Precedes kind

-- The last operand does.
def RightBinds (tree : Tree) : Prop :=
  ∀ last ∈ tree.children.getLast?, ∀ inner ∈ last.binding?, tree.isPrefixed = false ∧ ∀ level ∈ tree.binding?, level < inner

@[simp] theorem isExpression_leaf (token : Token) : (Tree.leaf token).isExpression = false := rfl

@[simp] theorem isExpression_node (rule : Rule) (start : Token) (stop : Option Token) (children : List Tree) :
    (Tree.node rule start stop children).isExpression = (rule == .expression) := rfl

theorem operator?_node {children : List Tree} :
    (Tree.node rule start stop children).operator? = some kind ↔ rule = .expression ∧ ∃ first token rest,
      children = first :: .leaf token :: rest ∧ first.isExpression = true ∧ token.kind = kind := by
  simp only [operator?,isExpression_node,beq_iff_eq]
  constructor
  · intro found
    split at found
    · rename_i own
      split at found
      · rename_i first token rest same
        split at found
        · rename_i begins
          exact ⟨own,first,token,rest,same,begins,Option.some.inj found⟩
        · cases found
      · cases found
    · cases found
  · rintro ⟨own,first,token,rest,same,begins,rfl⟩
    rw [if_pos own]
    simp only [Tree.children,same,begins,if_true]

theorem Derives.isExpression (derives : Derives .expression level tree) : tree.isExpression = true := by
  cases derives with
  | node _ _ => rfl

end Tree

namespace Expression

-- The parts of an expression that is read with a level; what is accepted as a part is left open.
inductive Shape (accepts : Rule → Nat → Tree → Prop) (level : Nat) : List Tree → Prop where
  | atom {tree : Tree} (accepted : accepts .primaryExpression 0 tree) : Shape accepts level [tree]
  | creation {word : Token} {type : Tree} (accepted : accepts .typeName 0 type) : Shape accepts level [.leaf word,type]
  | parentheses {opening closing : Token} {inner : Tree} : Shape accepts level [.leaf opening,inner,.leaf closing]
  | before {operator : Token} {operand : Tree} {bound : Nat} (tight : 15 ≤ bound ∧ bound ≤ 19)
      (accepted : accepts .expression bound operand) : Shape accepts level [.leaf operator,operand]
  | between {operator : Token} {first last : Tree} {bound : Nat} (middle : List Tree)
      (binds : operator.kind.binding? = some bound) (within : level ≤ bound) (left : accepts .expression level first)
      (right : accepts .expression (bound + 1) last) : Shape accepts level (first :: .leaf operator :: (middle ++ [last]))
  | after {operator : Token} {first : Tree} {rest : List Tree} (loose : operator.kind.binding? = none)
      (left : accepts .expression level first)
      (ended : ∀ last ∈ rest.getLast?, (∃ token, last = .leaf token) ∨ accepts .identifier 0 last) :
      Shape accepts level (first :: .leaf operator :: rest)

variable {accepts : Rule → Nat → Tree → Prop} {level : Nat} {trees : List Tree}

theorem Made.shape (made : Made accepts level trees) : Shape accepts level trees := by
  cases made with
  | primary accepted => exact .atom accepted
  | creation _ accepted => exact .creation accepted
  | parentheses => exact .parentheses
  | before _ accepted tight => exact .before tight accepted
  | after kind left =>
    have loose : ∀ kind ∈ stepKinds, kind.binding? = none := by decide
    exact .after (loose _ kind) left (by simp)
  | between _ left right binds within => exact .between [] binds within left right
  | @conditional _ colon _ yes _ asks _ left _ right within =>
    exact .between [yes,.leaf colon] (by rw [asks]; rfl) within left right
  | index kind _ left => exact .after (by rw [kind]; rfl) left (by simp)
  | @slice opening colon closing base start stop kind _ _ left =>
    have sliced : Shape accepts level (base :: .leaf opening :: ((start ++ .leaf colon :: stop) ++ [.leaf closing])) := by
      refine .after (by rw [kind]; rfl) left fun last ends => .inl ⟨closing,?_⟩
      rw [List.getLast?_concat] at ends
      exact (Option.some.inj ends).symm
    simpa using sliced
  | member kind left accepted => exact .after (by rw [kind]; rfl) left (by simp [accepted])
  | options kind _ left => exact .after (by rw [kind]; rfl) left (by simp)
  | call kind _ left => exact .after (by rw [kind]; rfl) left (by simp)

theorem allows_shape (allowed : Rule.expression.Allows accepts level trees) : Shape accepts level trees := by
  obtain ⟨variant,listed,spells⟩ := allowed
  exact (spells_made listed spells).shape

section Levels

variable {level bound : Nat} {children : List Tree}

-- Nothing but a hole is missing: a tree that is no error, or a hole for an expression that is read with the given level.
def Gapped (bound : Nat) (rule : Rule) (level : Nat) (tree : Tree) : Prop :=
  (∀ token, tree ≠ .error token) ∨ (rule = .expression ∧ level = bound)

theorem gapped_stable (bound : Nat) : Rule.Stable (Gapped bound) :=
  fun _ _ _ _ _ _ => .inl fun _ => by simp

-- What stands before an operand at the end of an expression tells the level with which the operand is read.
theorem before_gap (shape : Shape (Gapped bound) level (children ++ [.error hole])) :
    ((∃ operator, children = [.leaf operator]) ∧ 15 ≤ bound ∧ bound ≤ 19) ∨
      ∃ first operator rest inner, children = first :: .leaf operator :: rest ∧
        operator.kind.binding? = some inner ∧ bound = inner + 1 := by
  have gap {rule : Rule} {level : Nat} (accepted : Gapped bound rule level (.error hole)) :
      rule = .expression ∧ level = bound := accepted.resolve_left fun never => never hole rfl
  generalize whole : children ++ [.error hole] = trees at shape
  have last : trees.getLast? = some (.error hole) := by rw [← whole,List.getLast?_concat]
  have front : children = trees.dropLast := by rw [← whole,dropLast_concat]
  cases shape with
  | atom accepted =>
    cases Option.some.inj last
    cases (gap accepted).1
  | creation accepted =>
    cases Option.some.inj last
    cases (gap accepted).1
  | parentheses => cases Option.some.inj last
  | @before operator _ inner tight accepted =>
    cases Option.some.inj last
    exact .inl ⟨⟨operator,front⟩,(gap accepted).2 ▸ tight⟩
  | @between operator first final inner middle binds _ _ right =>
    have same : first :: .leaf operator :: (middle ++ [final]) = (first :: .leaf operator :: middle) ++ [final] := rfl
    rw [same,List.getLast?_concat] at last
    rw [same,dropLast_concat] at front
    cases Option.some.inj last
    exact .inr ⟨first,operator,middle,inner,front,binds,(gap right).2.symm⟩
  | @after operator first rest _ _ ended =>
    cases rest with
    | nil => cases Option.some.inj last
    | cons next rest =>
      rw [List.getLast?_cons_cons,List.getLast?_cons_cons] at last
      rcases ended _ last with ⟨_,same⟩ | accepted
      · cases same
      · cases (gap accepted).1

end Levels

end Expression

namespace Tree

variable {inner : Nat} {rule : Rule} {phrase : Tree}
variable {level : Nat} {tree : Tree}

theorem derives_shape (derives : Derives .expression level tree) : Expression.Shape Derives level tree.children := by
  cases derives with
  | node listed spells => exact Expression.allows_shape ⟨_,listed,spells⟩

-- An operation that stands in no brackets ends with an operand.
inductive Operated (level : Nat) (children : List Tree) : Prop where
  | prefixed {operator : Token} {operand : Tree} {bound : Nat} (same : children = [.leaf operator,operand])
      (tight : 15 ≤ bound) (derives : Derives .expression bound operand)
  | binary {operator : Token} {first last : Tree} {middle : List Tree} {bound : Nat}
      (same : children = first :: .leaf operator :: (middle ++ [last])) (binds : operator.kind.binding? = some bound)
      (within : level ≤ bound) (left : Derives .expression level first) (right : Derives .expression (bound + 1) last)

theorem Derives.operation (derives : Derives .expression level tree)
    (filled : tree.binding?.isSome = true ∨ tree.isPrefixed = true) : Operated level tree.children := by
  have shape := derives_shape derives
  rw [binding?,operator?,isPrefixed,derives.isExpression,if_pos rfl,Bool.true_and] at filled
  generalize tree.children = children at shape filled
  cases shape with
  | atom _ => simp at filled
  | creation accepted =>
    cases accepted with
    | node _ _ => simp at filled
  | @parentheses opening closing inner =>
    cases inner with
    | _ => simp at filled
  | before tight accepted => exact .prefixed rfl tight.1 accepted
  | between middle known within left right => exact .binary rfl known within left right
  | @after operator first rest loose left ended =>
    cases left with
    | node _ _ => simp [loose] at filled

theorem Operated.binding? (operation : Operated level tree.children) (own : tree.isExpression = true)
    (binds : inner ∈ tree.binding?) : level ≤ inner ∧ tree.isPrefixed = false ∧
      ∃ last ∈ tree.children.getLast?, Derives .expression (inner + 1) last := by
  rw [Option.mem_def,Tree.binding?,operator?,own,if_pos rfl] at binds
  cases operation with
  | @prefixed operator operand _ same _ _ =>
    rw [same] at binds
    cases operand <;> simp at binds
  | @binary operator first last middle bound same known within left right =>
    simp only [same,left.isExpression,if_true,Option.bind_some,known,Option.some.injEq] at binds
    subst binds
    refine ⟨within,?_,last,?_,right⟩
    · cases left with
      | node _ _ => rw [isPrefixed,same,own]; rfl
    · rw [same,← cons_append,← cons_append]
      exact List.getLast?_concat

theorem Derives.level_le (derives : Derives .expression level tree) (binds : inner ∈ tree.binding?) : level ≤ inner := by
  have operation := derives.operation (.inl (by rw [Option.mem_def.mp binds]; rfl))
  exact (operation.binding? derives.isExpression binds).1

theorem binding?_le (binds : inner ∈ tree.binding?) : inner ≤ 14 := by
  obtain ⟨kind,_,known⟩ := Option.bind_eq_some_iff.mp binds
  exact Kind.binding?_le known

theorem Operated.operand (operation : Operated level tree.children) (own : tree.isExpression = true)
    (first : tree.isPrefixed = true) :
    ∃ last ∈ tree.children.getLast?, ∃ bound, 15 ≤ bound ∧ Derives .expression bound last := by
  cases operation with
  | prefixed same tight derives =>
    rw [same]
    exact ⟨_,rfl,_,tight,derives⟩
  | binary same _ _ left _ =>
    rw [isPrefixed,same,own] at first
    cases left with
    | node _ _ => cases first

theorem binds_of (left : tree.LeftBinds) (right : tree.RightBinds) : tree.Binds where
  first level binds operand first inner own := by
    obtain ⟨kind,operator,known⟩ := Option.bind_eq_some_iff.mp binds
    exact (left kind operator operand first).1 level known inner own
  last level binds operand last inner own := Nat.le_of_lt ((right operand last inner own).2 level binds)
  prefixed first operand last := by
    refine Option.eq_none_iff_forall_not_mem.mpr fun inner own => ?_
    cases first.symm.trans (right operand last inner own).1
  postfixed after base first := by
    obtain ⟨kind,operator,known⟩ := (Option.any_eq_true ..).mp after
    exact (left kind operator base first).2 known

theorem Derives.rightBinds (derives : Derives .expression level tree) : tree.RightBinds := by
  intro last ends inner binds
  constructor
  · by_contra first
    rw [Bool.not_eq_false] at first
    obtain ⟨_,also,bound,tight,operand⟩ := (derives.operation (.inr first)).operand derives.isExpression first
    cases Option.some.inj (also.symm.trans ends)
    have := operand.level_le binds
    have := binding?_le binds
    omega
  · intro level binding
    have operation := derives.operation (.inl (by rw [Option.mem_def.mp binding]; rfl))
    obtain ⟨_,_,same,also,right⟩ := operation.binding? derives.isExpression binding
    cases Option.some.inj (also.symm.trans ends)
    exact right.level_le binds

theorem Derives.phrases (derives : Derives rule level tree) (inside : phrase ∈ tree.phrases) :
    ∃ rule level, Derives rule level phrase := by
  induction tree using by_size generalizing rule level with
  | step tree ih =>
    cases derives with
    | node listed spells =>
      rcases mem_cons.mp inside with rfl | below
      · exact ⟨_,_,.node listed spells⟩
      · obtain ⟨child,member,deeper⟩ := mem_allPhrases.mp below
        rcases spells.child member with ⟨_,rfl⟩ | ⟨_,_,inner⟩
        · cases deeper
        · exact ih child (size_child member) inner deeper

theorem Derives.rightBinds_phrase (derives : Derives rule level tree)
    (inside : phrase ∈ tree.phrases) : phrase.RightBinds := by
  obtain ⟨own,_,inner⟩ := derives.phrases inside
  by_cases expression : own = .expression
  · subst expression
    exact inner.rightBinds
  · cases inner with
    | node _ _ =>
      have other : (own == .expression) = false := by simpa using expression
      intro last _ inner _
      simp [isPrefixed,Tree.binding?,operator?,other]

end Tree

end SolReader
