import SolReader.Proofs.Parse.Run

namespace SolReader

-- A leaf made up in recovery shows it by its text.
def Token.isConjured (token : Token) : Bool :=
  "<missing ".toList.isPrefixOf token.text.toList

def Token.isOwn (token : Token) : Bool :=
  token.kind != .eof && !token.isConjured

theorem Token.madeUp_isOwn (kind : Kind) (place : Place) : (Token.madeUp kind place).isOwn = false := by
  have conjured : (Token.madeUp kind place).isConjured = true := by
    rw [isConjured,madeUp,String.append_assoc,String.toList_append]
    exact List.isPrefixOf_iff_prefix.mpr (List.prefix_append ..)
  rw [isOwn,conjured,Bool.not_true,Bool.and_false]

theorem Token.isOwn_of_eof {token : Token} (ended : token.kind = .eof) : token.isOwn = false := by
  simp [isOwn,ended]

-- The leaves of a tree from left to right that stand for tokens of the text.
def Tree.leaves (tree : Tree) : List Token :=
  tree.tokens.filter Token.isOwn

theorem Tree.allTokens_append (first second : List Tree) :
    allTokens (first ++ second) = allTokens first ++ allTokens second := by
  induction first with
  | nil => rw [allTokens,List.nil_append,List.nil_append]
  | cons tree first ih => rw [List.cons_append,allTokens,allTokens,ih,List.append_assoc]

namespace Frame

def tokens (frame : Frame) : List Token :=
  Tree.allTokens frame.built.reverse

theorem tokens_add (frame : Frame) (tree : Tree) : (frame.add tree).tokens = frame.tokens ++ tree.tokens := by
  rw [tokens,add,List.reverse_cons,Tree.allTokens_append]
  simp [Tree.allTokens,tokens]

theorem tokens_close (frame : Frame) (stop : Option Token) : (frame.close stop).tokens = frame.tokens := by
  rw [close,Tree.tokens,tokens]

end Frame

namespace Parse

variable {parse : Parse} {tree : Tree}

-- The tokens below all the frames, the outermost first.
def gathered (parse : Parse) : List Token :=
  parse.callers.reverse.flatMap Frame.tokens ++ parse.frame.tokens

def story (parse : Parse) : List Token :=
  (parse.gathered ++ parse.input.ahead).filter Token.isOwn

theorem Alike.story_eq {left : Parse} (alike : Alike left right) : left.story = right.story := by
  rw [story,story,gathered,gathered,alike.frame,alike.callers,alike.input]

theorem story_goto (parse : Parse) (todo : Todo) : (parse.goto todo).story = parse.story := rfl

theorem story_take (closed : Token.Closed parse.input.ahead) (leaf : tree.tokens = [parse.input.current]) :
    ({ parse with frame := parse.frame.add tree, input := parse.input.advance } : Parse).story = parse.story := by
  simp only [story,gathered,Frame.tokens_add,leaf]
  cases ended : parse.input.atEnd with
  | true =>
    have last := (Input.atEnd_iff closed).mp ended
    rw [Input.advance_of_atEnd ended]
    simp [Token.isOwn_of_eof last]
  | false =>
    rw [Input.ahead_advance ended]
    simp

theorem story_dropped (count : Nat) (closed : Token.Closed parse.input.ahead) :
    (parse.dropped count).story = parse.story := by
  induction count generalizing parse with
  | zero => rfl
  | succ count ih =>
    have first : parse.drop.story = parse.story := story_take closed rfl
    exact (ih (Input.closed_advance closed)).trans first

theorem tokens_wrap (parse : Parse) : parse.wrap.frame.tokens = parse.frame.tokens := by
  rw [wrap,Frame.tokens,List.reverse_singleton,Tree.allTokens,Tree.allTokens,List.append_nil,Frame.tokens_close]

theorem story_wrap (parse : Parse) : parse.wrap.story = parse.story := by
  rw [story,story,gathered,gathered,tokens_wrap]
  rfl

theorem Effect.story_eq (effect : Effect before after)
    (closed : Token.Closed before.input.ahead) : after.story = before.story := by
  cases effect with
  | left _ below alike =>
    rw [alike.story_eq]
    simp [story,gathered,below,Frame.tokens_add,Frame.tokens_close]
  | opened _ alike => rw [alike.story_eq,story_goto,story_dropped _ closed]
  | called _ alike =>
    rw [alike.story_eq]
    simp [story,gathered,Frame.open,Frame.tokens,Tree.allTokens]
  | wrapped _ _ alike => rw [alike.story_eq,story_goto,story_wrap]
  | matched _ _ _ alike =>
    have shifted : before.shift.story = before.story := story_take closed rfl
    rw [alike.story_eq,story_goto,shifted]
  | matchedLate _ _ _ alike =>
    have dropped : before.drop.story = before.story := story_take closed rfl
    have shifted : before.drop.shift.story = before.drop.story := story_take (Input.closed_advance closed) rfl
    rw [alike.story_eq,story_goto,shifted,dropped]
  | supplied _ _ _ _ alike =>
    rcases alike with alike | ⟨kind,place,alike⟩
    · rw [alike.story_eq,story_goto]
    · rw [alike.story_eq,story_goto]
      simp [story,gathered,add,Frame.tokens_add,Tree.tokens,Token.madeUp_isOwn]
  | abandoned _ _ origin givesUp =>
    rw [givesUp.alike.story_eq,story_goto,story_dropped _ ((origin_same origin).2 ▸ closed)]
    rcases origin with rfl | rfl
    · rfl
    · exact story_wrap before

theorem tokens_collapsed (parse : Parse) : parse.collapsed.tokens = parse.gathered := by
  have general (callers : List Frame) (tree : Tree) :
      (callers.foldl (fun tree caller => (caller.add tree).close parse.previous) tree).tokens =
        callers.reverse.flatMap Frame.tokens ++ tree.tokens := by
    induction callers generalizing tree with
    | nil => rfl
    | cons caller callers ih =>
      rw [List.foldl_cons,ih,Frame.tokens_close,Frame.tokens_add]
      simp
  rw [collapsed,general,Frame.tokens_close,gathered]

theorem run_leaves {input : Input} (closed : Token.Closed input.ahead)
    (ran : (start rule input).run source fuel = (tree,final,complete)) :
    tree.leaves ++ final.input.ahead.filter Token.isOwn = input.ahead.filter Token.isOwn := by
  obtain ⟨_,same,rfl,_⟩ := run_keeps (fun parse => parse.story = (start rule input).story)
    (fun placed kept effect => (effect.story_eq placed.closed).trans kept) source fuel (start_placed closed) rfl ran
  rw [Tree.leaves,tokens_collapsed,← List.filter_append]
  exact same

end Parse

end SolReader
