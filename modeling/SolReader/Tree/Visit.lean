import SolReader.Tree.Events

namespace SolReader

structure Visitor (α : Type) where
  token : String → α
  error : String → α
  nothing : α
  aggregate : α → α → α
  -- What is done at a phrase of the rule with the given title: it has the phrase and the result for its children.
  hook? : String → Option (Tree → α → α)

namespace Tree

mutual

def accept {α : Type} (visitor : Visitor α) : Tree → α
  | .leaf token => visitor.token token.text
  | .error token => visitor.error token.text
  | .node rule start stop children =>
    let below := acceptAll visitor visitor.nothing children
    match visitor.hook? rule.title with
    | some hook => hook (.node rule start stop children) below
    | none => below

def acceptAll {α : Type} (visitor : Visitor α) (result : α) : List Tree → α
  | [] => result
  | tree :: trees => acceptAll visitor (visitor.aggregate result (tree.accept visitor)) trees

end

end Tree

namespace Visitor

def texts : Visitor (List String) where
  token text := [text]
  error text := ["!" ++ text]
  nothing := []
  aggregate := (· ++ ·)
  hook? _ := none

def lastText : Visitor (Option String) where
  token := some
  error _ := none
  nothing := none
  aggregate _ last := last
  hook? _ := none

def hooked {α : Type} (visitor : Visitor α) : Visitor α :=
  { visitor with hook? := fun title =>
      (visitor.hook? title).or ((Rule.all.find? (·.title == title)).map fun _ _ below => below) }

-- Does not enter the phrases of the given rules: their rule and text stand for them.
def stopping (visitor : Visitor (List String)) (closed : List Rule) : Visitor (List String) :=
  { visitor with hook? := fun title =>
      ((closed.find? (·.title == title)).map fun rule tree _ =>
        ["<" ++ rule.name ++ ":" ++ tree.text ++ ">"]).or (visitor.hook? title) }

end Visitor

namespace Tree

def flat (closed : List Rule) (tree : Tree) : List String :=
  tree.accept ((Visitor.hooked .texts).stopping closed)

def lastText (tree : Tree) : Option String :=
  tree.accept (.hooked .lastText)

end Tree

end SolReader
