import SolReader.Proofs.Parse.Soundness

namespace SolReader

open List

namespace Parse

variable {rule : Rule} {before after : Parse} {level : Nat}

-- The outermost frame is the one the parse began with, and a whole source is not part of anything.
def Rooted (rule : Rule) : Frame → List Frame → Prop
  | frame, [] => frame.rule = rule ∧ frame.level = 0
  | frame, caller :: callers => frame.rule ≠ .sourceUnit ∧ Rooted rule caller callers

theorem Rooted.same {frame other : Frame} {callers : List Frame} (rooted : Rooted rule frame callers)
    (rule_eq : other.rule = frame.rule) (level_eq : other.level = frame.level) : Rooted rule other callers := by
  cases callers with
  | nil => exact ⟨rule_eq.trans rooted.1,level_eq.trans rooted.2⟩
  | cons caller callers => exact ⟨rule_eq ▸ rooted.1,rooted.2⟩

theorem dropped_level (count : Nat) (parse : Parse) : (parse.dropped count).frame.level = parse.frame.level := by
  induction count generalizing parse with
  | zero => rfl
  | succ count ih => exact ih parse.drop

set_option maxRecDepth 100000 in
theorem calls_checked : (Grammar.places.all fun
    | .call _ rule _ :: _ => rule != .sourceUnit
    | _ => true) = true := by
  decide

theorem Effect.rooted (effect : Effect before after) (placed : Placed before)
    (rooted : Rooted rule before.frame before.callers) : Rooted rule after.frame after.callers := by
  cases effect with
  | left _ below alike =>
    rw [below] at rooted
    rw [alike.frame,alike.callers]
    exact rooted.2.same rfl rfl
  | opened _ alike =>
    rw [alike.frame,alike.callers]
    rw [← dropped_callers] at rooted
    exact rooted.same (dropped_rule ..) (dropped_level ..)
  | called head alike =>
    have place := Grammar.mem_places (head ▸ placed.top).mem rfl
    have inner := all_eq_true.mp calls_checked _ place
    rw [alike.frame,alike.callers]
    exact ⟨bne_iff_ne.mp inner,rooted.same rfl rfl⟩
  | wrapped _ _ alike =>
    rw [alike.frame,alike.callers]
    exact rooted.same rfl rfl
  | matched _ _ _ alike =>
    rw [alike.frame,alike.callers]
    exact rooted.same rfl rfl
  | matchedLate _ _ _ alike =>
    rw [alike.frame,alike.callers]
    exact rooted.same rfl rfl
  | supplied _ _ _ _ alike =>
    rcases alike with alike | ⟨_,_,alike⟩
    · rw [alike.frame,alike.callers]
      exact rooted.same rfl rfl
    · rw [alike.frame,alike.callers]
      exact rooted.same rfl rfl
  | @abandoned _ _ _ base count _ _ origin givesUp =>
    have below : (base.dropped count).callers = before.callers := (dropped_callers ..).trans (origin_same origin).1
    rw [givesUp.alike.frame,givesUp.alike.callers]
    change Rooted rule _ (base.dropped count).callers
    rw [below]
    refine rooted.same ?_ ?_
    · change (base.dropped count).frame.rule = _
      rw [dropped_rule]
      rcases origin with rfl | rfl <;> rfl
    · change (base.dropped count).frame.level = _
      rw [dropped_level]
      rcases origin with rfl | rfl <;> rfl

-- The tokens in the tree and the tokens ahead are the whole text; once a whole source has taken the end, the tree has
-- them all.
def Exact (whole : List Token) (parse : Parse) : Prop :=
  parse.gathered ++ parse.input.ahead = whole ∨
    (parse.gathered = whole ∧ parse.callers = [] ∧ parse.frame.todo = [] ∧ parse.frame.rule = .sourceUnit)

theorem end_checked : ∀ rule : Rule, (rule.spots.all fun
    | .token _ kind :: rest => kind != .eof || (rest.isEmpty && rule == .sourceUnit)
    | .oneOf _ kinds :: _ => !kinds.contains .eof
    | _ => true) = true := by
  decide

theorem takes_last (sited : Todo.Sited rule (form :: rest))
    {kinds : KindSet} (takes : form.Takes kinds) (fits : kinds.contains .eof = true) : rest = [] ∧ rule = .sourceUnit := by
  have checked := all_eq_true.mp (end_checked rule) _ sited.mem
  cases takes with
  | token label kind =>
    have last : kind = .eof := by simpa [eq_comm] using fits
    simpa [last] using checked
  | oneOf label kinds => simp [fits] at checked

theorem Alike.gathered_eq {left : Parse} (alike : Alike left right) : left.gathered = right.gathered := by
  rw [gathered,gathered,alike.frame,alike.callers]

theorem gathered_wrap (parse : Parse) : parse.wrap.gathered = parse.gathered := by
  rw [gathered,gathered,tokens_wrap]
  rfl

theorem Effect.exact (effect : Effect before after)
    (placed : Placed before) (rooted : Rooted rule before.frame before.callers) (clean : after.diagnostics = [])
    (kept : before.diagnostics = [] → Exact whole before) : Exact whole after := by
  -- After the end has been taken there is nothing left to do.
  have going (quiet : before.diagnostics = []) (busy : before.frame.todo ≠ [] ∨ before.callers ≠ []) :
      before.gathered ++ before.input.ahead = whole := by
    rcases kept quiet with same | ⟨_,outermost,done,_⟩
    · exact same
    · rcases busy with more | below
      · exact absurd done more
      · exact absurd outermost below
  cases effect with
  | left _ below alike calm =>
    have same := going (calm.diagnostics ▸ clean) (.inr (by simp [below]))
    left
    rw [alike.gathered_eq,alike.input,← same]
    simp [gathered,below,Frame.tokens_add,Frame.tokens_close]
  | opened opens alike marks =>
    rcases marks with ⟨rfl,calm⟩ | ⟨reported,_⟩
    · have busy : before.frame.todo ≠ [] := fun done => by
        rw [done] at opens
        cases opens
      have same := going (calm.diagnostics ▸ clean) (.inl busy)
      left
      rw [alike.gathered_eq,alike.input,← same]
      rfl
    · exact absurd clean reported
  | called head alike calm =>
    have same := going (calm.diagnostics ▸ clean) (.inl (by simp [head]))
    left
    rw [alike.gathered_eq,alike.input,← same]
    simp [gathered,Frame.open,Frame.tokens,Tree.allTokens]
  | wrapped head _ alike calm =>
    have same := going (calm.diagnostics ▸ clean) (.inl (by simp [head]))
    left
    rw [alike.gathered_eq,alike.input,← same]
    exact congrArg (· ++ _) (gathered_wrap before)
  | @matched form kinds rest head takes fits alike _ diagnostics =>
    have same := going (diagnostics ▸ clean) (.inl (by simp [head]))
    have added : after.gathered = before.gathered ++ [before.input.current] := by
      rw [alike.gathered_eq]
      simp [gathered,goto,shift,Frame.tokens,Frame.add,Tree.allTokens_append,Tree.allTokens,Tree.tokens]
    cases ended : before.input.atEnd with
    | false =>
      left
      rw [added,alike.input,← same,Input.ahead_advance ended,append_assoc]
      rfl
    | true =>
      right
      have last : before.input.current.kind = .eof := (Input.atEnd_iff placed.closed).mp ended
      obtain ⟨nothing,outer⟩ := takes_last (head ▸ placed.top) takes (last ▸ fits)
      have alone : before.callers = [] := by
        cases below : before.callers with
        | nil => rfl
        | cons caller callers =>
          rw [below] at rooted
          exact absurd outer rooted.1
      refine ⟨?_,alike.callers.trans alone,by rw [alike.frame]; exact nothing,by rw [alike.frame]; exact outer⟩
      rw [added,← same,Input.ahead,List.isEmpty_iff.mp ended]
  | matchedLate _ _ _ _ reported => exact absurd clean reported
  | supplied _ _ _ _ _ _ reported => exact absurd clean reported
  | abandoned _ _ _ givesUp => exact absurd clean givesUp.noted

theorem spells_end {α : Type} {accepts : Rule → Nat → Tree → Prop} :
    (form : Form α) → form.awaitsEnd = true → {trees : List Tree} → form.Spells accepts self level trees →
      ∃ before last, trees = before ++ [.leaf last] ∧ last.kind = .eof
  | .token _ _, awaits, _, spells => by
    cases spells with
    | token token => exact ⟨[],token,rfl,by simpa [Form.awaitsEnd] using awaits⟩
  | .seq first second, awaits, _, spells => by
    cases spells with
    | seq one two =>
      obtain ⟨before,last,rfl,ended⟩ := spells_end second awaits two
      exact ⟨_,last,(append_assoc ..).symm,ended⟩

theorem whole_ends : ∀ variant ∈ Rule.sourceUnit.variants, variant.awaitsEnd = true := by
  decide

theorem derives_end (derives : Tree.Derives .sourceUnit level tree) :
    ∃ before last, tree.tokens = before ++ [last] ∧ last.kind = .eof := by
  cases derives with
  | @node _ _ _ _ _ variant listed spells =>
    obtain ⟨before,last,rfl,ended⟩ := spells_end variant (whole_ends variant listed) spells
    refine ⟨Tree.allTokens before,last,?_,ended⟩
    rw [Tree.tokens,Tree.allTokens_append]
    simp [Tree.allTokens,Tree.tokens]

theorem closed_once {before : List Token} {token next : Token} {rest : List Token}
    (closed : Token.Closed (before ++ token :: next :: rest)) : token.kind ≠ .eof := by
  induction before with
  | nil => exact closed.1
  | cons first before ih =>
    cases before with
    | nil => exact ih closed.2
    | cons second before => exact ih closed.2

section Clean

variable {source : List Token} {rule : Rule} {input : Input} {tree : Tree} {final : Parse} {complete : Bool}

theorem outcome_last (closed : Token.Closed input.ahead) (ran : outcome source rule input = (tree,final,complete))
    (clean : final.diagnostics = []) :
    tree = final.frame.close final.previous ∧ tree.tokens = final.gathered ∧ Tree.Derives rule 0 tree ∧
      final.frame.rule = rule ∧ Exact input.ahead final := by
  have finished : complete = true := by
    have done := outcome_complete source rule closed
    rwa [ran] at done
  obtain ⟨_,⟨rooted,good⟩,rfl,done⟩ := run_keeps
    (fun parse => Rooted rule parse.frame parse.callers ∧
      (parse.diagnostics = [] → Sound Tree.Derives parse ∧ Exact input.ahead parse))
    (fun placed kept effect => ⟨effect.rooted placed kept.1,fun clean =>
      ⟨effect.sound Tree.derives_stable placed clean fun quiet => (kept.2 quiet).1,
        effect.exact placed kept.1 clean fun quiet => (kept.2 quiet).2⟩⟩)
    source _ (start_placed closed)
    ⟨⟨rfl,rfl⟩,fun _ => ⟨⟨Frame.open_draft ..,trivial⟩,.inl rfl⟩⟩ ran
  obtain ⟨nothing,outermost⟩ := done finished
  obtain ⟨⟨draft,_⟩,exact⟩ := good clean
  rw [outermost] at rooted
  have whole : final.collapsed = final.frame.close final.previous := by
    rw [collapsed,outermost]
    rfl
  refine ⟨whole,tokens_collapsed final,?_,rooted.1,exact⟩
  rw [whole,← rooted.1,← rooted.2]
  exact draft.closes Tree.derives_stable nothing final.previous

theorem outcome_part (closed : Token.Closed input.ahead) (ran : outcome source rule input = (tree,final,complete))
    (clean : final.diagnostics = []) (part : rule ≠ .sourceUnit) : tree.tokens ++ final.input.ahead = input.ahead := by
  obtain ⟨_,tokens,_,root,exact⟩ := outcome_last closed ran clean
  rcases exact with same | ⟨_,_,_,outer⟩
  · rw [tokens]
    exact same
  · exact absurd (root.symm.trans outer) part

theorem outcome_whole (closed : Token.Closed input.ahead)
    (ran : outcome source .sourceUnit input = (tree,final,complete)) (clean : final.diagnostics = []) :
    tree.tokens = input.ahead := by
  obtain ⟨_,tokens,derives,_,exact⟩ := outcome_last closed ran clean
  rcases exact with same | ⟨same,_⟩
  · obtain ⟨before,last,ends,ended⟩ := derives_end derives
    rw [← tokens,ends,append_assoc] at same
    exact absurd ended (closed_once (same ▸ closed))
  · rw [tokens]
    exact same

end Clean

-- Whatever tokens are given, with the end of the text after them: if nothing is reported the tree is a derivation from
-- the rule, without error leaves, and the leaves are the tokens taken.  A whole source takes all of them.
theorem outcome_derives (source : List Token) (rule : Rule) (input : Input) (closed : Token.Closed input.ahead)
    (clean : (outcome source rule input).2.1.diagnostics = []) :
    (outcome source rule input).2.2 = true ∧
      Tree.Derives rule 0 (outcome source rule input).1 ∧
      (outcome source rule input).1.hasError = false ∧
      (rule ≠ .sourceUnit →
        (outcome source rule input).1.tokens ++ (outcome source rule input).2.1.input.ahead = input.ahead) ∧
      (rule = .sourceUnit → (outcome source rule input).1.tokens = input.ahead) := by
  have finished := outcome_complete source rule closed
  cases ran : outcome source rule input with
  | mk tree rest =>
    obtain ⟨final,complete⟩ := rest
    rw [ran] at clean finished
    obtain ⟨_,_,derives,_⟩ := outcome_last closed ran clean
    refine ⟨finished,derives,Tree.Derives.no_error _ derives,outcome_part closed ran clean,fun all => ?_⟩
    subst all
    exact outcome_whole closed ran clean

-- A member of a variable inside assembly, as tokens.
def memberAccess : Input :=
  ⟨⟨.identifier,"a",⟨1,0⟩,0,1⟩,[⟨.dot,".",⟨1,1⟩,1,1⟩,⟨.identifier,"b",⟨1,2⟩,2,1⟩,.endOfText ⟨1,3⟩ 3]⟩

set_option maxRecDepth 100000 in
theorem memberAccess_clean : (outcome [] .assemblyMember memberAccess).2.1.diagnostics = [] := by
  decide

theorem memberAccess_closed : Token.Closed memberAccess.ahead := by
  simp [memberAccess,Input.ahead,Token.Closed,Token.endOfText]

theorem memberAccess_derives :
    Token.Closed memberAccess.ahead ∧ (outcome [] .assemblyMember memberAccess).2.1.diagnostics = [] ∧
      Tree.Derives .assemblyMember 0 (outcome [] .assemblyMember memberAccess).1 :=
  ⟨memberAccess_closed,memberAccess_clean,
    (outcome_derives [] .assemblyMember memberAccess memberAccess_closed memberAccess_clean).2.1⟩

end Parse

end SolReader
