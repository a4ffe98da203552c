import SolReader.Proofs.Parse.Outcome
import SolReader.Proofs.Ast.Known

namespace SolReader

namespace Token

variable {last : Token} {tokens : List Token}

-- The last of some tokens, the end of the text left aside.
def lastOf (tokens : List Token) : Option Token :=
  (tokens.filter (·.kind != .eof)).getLast?

theorem lastOf_append (found : lastOf second = some last) : lastOf (first ++ second) = some last := by
  rw [lastOf] at found
  simp [lastOf,List.getLast?_append,found]

theorem lastOf_concat (tokens : List Token) (token : Token) :
    lastOf (tokens ++ [token]) = if token.kind = .eof then lastOf tokens else some token := by
  by_cases ended : token.kind = .eof
  · simp [lastOf,ended]
  · simp [lastOf,ended]

theorem lastOf_mem (found : lastOf tokens = some last) : last ∈ tokens ∧ last.kind ≠ .eof := by
  simpa using List.mem_filter.mp (List.mem_of_getLast? found)

theorem lastOf_isSome (member : token ∈ tokens) (genuine : token.kind ≠ .eof) : ∃ last, lastOf tokens = some last := by
  refine Option.ne_none_iff_exists'.mp fun absent => ?_
  have nothing := List.getLast?_eq_none_iff.mp absent
  exact List.ne_nil_of_mem (List.mem_filter.mpr ⟨member,by simpa using genuine⟩) nothing

end Token

namespace Tree

-- A node keeps its first and its last token.
def Marked : Tree → Prop
  | .node _ start stop children =>
    (∀ token, (allTokens children).head? = some token → start = token) ∧
      ∀ token, Token.lastOf (allTokens children) = some token → stop = some token
  | _ => True

def AllMarked (tree : Tree) : Prop :=
  ∀ phrase ∈ tree.phrases, phrase.Marked

end Tree

namespace Frame

theorem close_marked {frame : Frame}
    (begun : frame.start = frame.tokens.headD next) (last : previous = Token.lastOf (before ++ frame.tokens))
    (built : ∀ tree ∈ frame.built, tree.AllMarked) : (frame.close previous).AllMarked := by
  intro phrase inside
  rcases List.mem_cons.mp inside with rfl | below
  · refine ⟨fun token first => ?_,fun token found => ?_⟩
    · rw [begun,Frame.tokens,List.headD_eq_head?_getD,first]
      rfl
    · rw [last]
      exact Token.lastOf_append found
  · obtain ⟨tree,member,deeper⟩ := Tree.mem_allPhrases.mp below
    exact built tree (List.mem_reverse.mp member) phrase deeper

end Frame

namespace Parse

-- Every frame begins with the first token found since it was opened, or with the next one if there is none yet.
def Begun : Token → List Frame → Prop
  | _, [] => True
  | next, frame :: callers => frame.start = frame.tokens.headD next ∧ Begun frame.start callers

structure Spanned (parse : Parse) : Prop where
  begun : Begun parse.input.current (parse.frame :: parse.callers)
  top : ∀ tree ∈ parse.frame.built, tree.AllMarked
  below : ∀ caller ∈ parse.callers, ∀ tree ∈ caller.built, tree.AllMarked
  previous : parse.previous = Token.lastOf parse.gathered

namespace Spanned

variable {before after : Parse}

theorem closed (spanned : Spanned before) : (before.frame.close before.previous).AllMarked :=
  Frame.close_marked spanned.begun.1 spanned.previous spanned.top

theorem alike (spanned : Spanned before) (alike : Alike after before) (previous : after.previous = before.previous) :
    Spanned after where
  begun := by
    rw [alike.input,alike.frame,alike.callers]
    exact spanned.begun
  top := by
    rw [alike.frame]
    exact spanned.top
  below := by
    rw [alike.callers]
    exact spanned.below
  previous := by
    rw [previous,alike.gathered_eq]
    exact spanned.previous

theorem goto (spanned : Spanned before) (todo : Todo) : Spanned (before.goto todo) :=
  ⟨spanned.begun,spanned.top,spanned.below,spanned.previous⟩

theorem left (spanned : Spanned before) {caller : Frame} {callers : List Frame}
    (below : before.callers = caller :: callers) :
    Spanned { before with frame := caller.add (before.frame.close before.previous), callers } where
  begun := by
    have begun := spanned.begun
    rw [below] at begun
    obtain ⟨own,outer,others⟩ := begun
    refine ⟨?_,others⟩
    change caller.start = _
    rw [outer,own,Frame.tokens_add,Frame.tokens_close]
    cases caller.tokens <;> rfl
  top := by
    have older := spanned.below caller (by simp [below])
    exact List.forall_mem_cons.mpr ⟨spanned.closed,older⟩
  below := fun frame older => spanned.below frame (by simp [below,older])
  previous := by
    rw [spanned.previous]
    simp [gathered,below,Frame.tokens_add,Frame.tokens_close]

theorem called (spanned : Spanned before) (rule : Rule) (level : Nat) (site : Option Label) (rest : Todo) :
    Spanned { before with
      frame := .open rule level site before.input.current,
      callers := { before.frame with todo := rest } :: before.callers } where
  begun := ⟨rfl,spanned.begun⟩
  top := List.forall_mem_nil _
  below := List.forall_mem_cons.mpr ⟨spanned.top,spanned.below⟩
  previous := by
    rw [spanned.previous]
    simp [gathered,Frame.open,Frame.tokens,Tree.allTokens]

theorem wrap (spanned : Spanned before) : Spanned before.wrap where
  begun := by
    refine ⟨?_,spanned.begun.2⟩
    rw [tokens_wrap]
    exact spanned.begun.1
  top := List.forall_mem_singleton.mpr spanned.closed
  below := spanned.below
  previous := by
    rw [gathered_wrap]
    exact spanned.previous

theorem shift (spanned : Spanned before) (closed : Token.Closed before.input.ahead) {previous : Option Token}
    (taken : previous = if before.input.atEnd then before.previous else some before.input.current) :
    Spanned { before.shift with previous } where
  begun := by
    refine ⟨?_,spanned.begun.2⟩
    change before.frame.start = (before.frame.add (.leaf before.input.current)).tokens.headD _
    rw [spanned.begun.1,Frame.tokens_add]
    cases before.frame.tokens <;> rfl
  top := List.forall_mem_cons.mpr ⟨nofun,spanned.top⟩
  below := spanned.below
  previous := by
    have added : gathered { before.shift with previous } = before.gathered ++ [before.input.current] := by
      simp [gathered,Parse.shift,Frame.tokens_add,Tree.tokens]
    rw [added,Token.lastOf_concat,← spanned.previous,taken]
    simp only [Input.atEnd_iff closed]

end Spanned

theorem start_spanned (rule : Rule) (input : Input) : Spanned (start rule input) where
  begun := ⟨rfl,trivial⟩
  top := List.forall_mem_nil _
  below := List.forall_mem_nil _
  previous := rfl

theorem Effect.spanned (effect : Effect before after) (placed : Placed before)
    (clean : after.diagnostics = []) (kept : before.diagnostics = [] → Spanned before) : Spanned after := by
  cases effect with
  | left _ below alike calm => exact ((kept (calm.diagnostics ▸ clean)).left below).alike alike calm.previous
  | opened _ alike marks =>
    rcases marks with ⟨rfl,calm⟩ | ⟨reported,_⟩
    · exact ((kept (calm.diagnostics ▸ clean)).goto _).alike alike calm.previous
    · exact absurd clean reported
  | called _ alike calm => exact ((kept (calm.diagnostics ▸ clean)).called ..).alike alike calm.previous
  | wrapped _ _ alike calm => exact ((kept (calm.diagnostics ▸ clean)).wrap.goto _).alike alike calm.previous
  | matched _ _ _ alike _ diagnostics previous =>
    have shifted := (kept (diagnostics ▸ clean)).shift placed.closed previous
    exact (shifted.goto _).alike ⟨alike.frame,alike.callers,alike.input⟩ rfl
  | matchedLate _ _ _ _ reported => exact absurd clean reported
  | supplied _ _ _ _ _ _ reported => exact absurd clean reported
  | abandoned _ _ _ givesUp => exact absurd clean givesUp.noted

theorem outcome_marked {input : Input}
    (closed : Token.Closed input.ahead) (ran : outcome source rule input = (tree,final,complete))
    (clean : final.diagnostics = []) : tree.AllMarked ∧ tree = final.frame.close (Token.lastOf tree.tokens) := by
  obtain ⟨_,spanned,_,_⟩ := run_keeps (fun parse => parse.diagnostics = [] → Spanned parse)
    (fun placed kept effect clean => effect.spanned placed clean kept)
    source _ (start_placed closed) (fun _ => start_spanned rule input) ran
  obtain ⟨whole,tokens,_⟩ := outcome_last closed ran clean
  refine ⟨?_,?_⟩
  · rw [whole]
    exact (spanned clean).closed
  · rw [tokens,← (spanned clean).previous]
    exact whole

end Parse

end SolReader
