import SolReader.Proofs.Grammar.Derivation
import SolReader.Proofs.Parse.Halting
import SolReader.Proofs.Parse.Leaves
import SolReader.Proofs.Parse.Ending

namespace SolReader

variable {rule : Rule}
variable {accepts : Rule → Nat → Tree → Prop}

def Rule.Allows (accepts : Rule → Nat → Tree → Prop) (rule : Rule) (level : Nat) (children : List Tree) : Prop :=
  ∃ variant ∈ rule.variants, variant.Spells accepts rule level children

-- A node is accepted if its children are allowed.
def Rule.Stable (accepts : Rule → Nat → Tree → Prop) : Prop :=
  ∀ ⦃rule : Rule⦄ ⦃level : Nat⦄ ⦃children : List Tree⦄, rule.Allows accepts level children →
    ∀ start stop, accepts rule level (.node rule start stop children)

theorem Tree.derives_stable : Rule.Stable Tree.Derives := by
  rintro rule level children ⟨variant,listed,spells⟩ start stop
  exact .node listed spells

theorem Rule.forms_checked : ∀ rule : Rule, (rule.form.same rule.body && !rule.form.grows) = true := by
  decide

theorem Rule.form_facts (rule : Rule) : rule.form.same rule.body = true ∧ rule.form.grows = false := by
  simpa using Rule.forms_checked rule

theorem Rule.allows_form
    (spells : rule.form.Spells accepts rule level children) : rule.Allows accepts level children := by
  have body := spells.of_same rule.form_facts.1
  rw [Rule.Allows,Rule.variants]
  generalize rule.body = whole at body
  split
  · rename_i first rounds entry back round
    split
    · rename_i growing
      cases body with
      | seq one two =>
        cases two with
        | stop _ => exact ⟨first,List.mem_cons_self,by rwa [List.append_nil]⟩
        | round steady _ _ => exact absurd (growing.symm.trans steady) (by decide)
    · exact ⟨_,List.mem_singleton_self _,body⟩
  · exact ⟨_,List.mem_singleton_self _,body⟩

namespace Todo

-- What the forms of a list spell, one after the other.
def Spells (accepts : Rule → Nat → Tree → Prop) (self : Rule) (level : Nat) : Todo → List Tree → Prop
  | [], trees => trees = []
  | form :: rest, trees =>
    ∃ first others, trees = first ++ others ∧ form.Spells accepts self level first ∧ Spells accepts self level rest others

-- The list begins by wrapping up what came before.
def renews : Todo → Bool
  | [] => false
  | form :: _ => form.grows

end Todo

def Frame.Draft (accepts : Rule → Nat → Tree → Prop) (frame : Frame) : Prop :=
  if Todo.renews frame.todo then
    frame.rule.Allows accepts frame.level frame.built.reverse ∧
      ∀ trees, Todo.Spells accepts frame.rule frame.level frame.todo trees → frame.rule.Allows accepts frame.level trees
  else
    ∀ trees, Todo.Spells accepts frame.rule frame.level frame.todo trees →
      frame.rule.Allows accepts frame.level (frame.built.reverse ++ trees)

-- Wrapping happens only at the start of the rounds of the outermost loop of a rule, with nothing after that loop.
def Rule.wrapsAt (rule : Rule) (rest : Todo) : Form Label → Bool
  | .choice label options => options.all fun option => option.grows == (Form.choice label options).grows
  | .optional _ body => !body.grows
  | .loop rounds _ _ body =>
    !body.grows || (rest.isEmpty && rounds != .atLeastOne && rule.variants.any fun variant => body.same variant)
  | _ => true

def Rule.wrapsIn (rule : Rule) : Todo → Bool
  | [] => true
  | form :: rest => !Todo.renews rest && rule.wrapsAt rest form

theorem Rule.wraps_checked : ∀ rule : Rule, (rule.spots.all rule.wrapsIn) = true := by
  decide

theorem Todo.Sited.wraps (sited : Todo.Sited rule (form :: rest)) :
    Todo.renews rest = false ∧ rule.wrapsAt rest form = true := by
  have checked := List.all_eq_true.mp (Rule.wraps_checked rule) _ sited.mem
  simpa [Rule.wrapsIn] using checked

namespace Frame

variable {frame : Frame}

-- A move that neither starts nor ends wrapping, and after which nothing more is spelled than before.
theorem Draft.moved (draft : frame.Draft accepts) {todo : Todo} (alike : Todo.renews todo = Todo.renews frame.todo)
    (fewer : ∀ trees, Todo.Spells accepts frame.rule frame.level todo trees →
      Todo.Spells accepts frame.rule frame.level frame.todo trees) : Draft accepts { frame with todo } := by
  rw [Draft] at draft ⊢
  change if Todo.renews todo = true then _ else _
  rw [alike]
  split
  · rename_i renews
    rw [if_pos renews] at draft
    exact ⟨draft.1,fun trees spells => draft.2 trees (fewer trees spells)⟩
  · rename_i steady
    rw [if_neg steady] at draft
    exact fun trees spells => draft trees (fewer trees spells)

theorem Draft.steady (draft : frame.Draft accepts) (steady : Todo.renews frame.todo = false)
    (spells : Todo.Spells accepts frame.rule frame.level frame.todo trees) :
    frame.rule.Allows accepts frame.level (frame.built.reverse ++ trees) := by
  rw [Draft,if_neg (by simp [steady])] at draft
  exact draft trees spells

end Frame

section Moves

variable {form : Form Label}
variable {self : Rule} {level : Nat} {rest : Todo} {trees : List Tree}

theorem Todo.spells_cons
    (one : form.Spells accepts self level first) (two : Todo.Spells accepts self level rest others) :
    Todo.Spells accepts self level (form :: rest) (first ++ others) :=
  ⟨first,others,rfl,one,two⟩

theorem Todo.spells_replace {other : Form Label}
    (more : ∀ trees, form.Spells accepts self level trees → other.Spells accepts self level trees)
    (spells : Todo.Spells accepts self level (form :: rest) trees) : Todo.Spells accepts self level (other :: rest) trees := by
  obtain ⟨first,others,rfl,one,two⟩ := spells
  exact Todo.spells_cons (more first one) two

theorem Todo.spells_empty (empty : form.Spells accepts self level [])
    (spells : Todo.Spells accepts self level rest trees) : Todo.Spells accepts self level (form :: rest) trees :=
  Todo.spells_cons empty spells

theorem Todo.spells_round {body : Form Label} (steady : body.grows = false)
    (spells : Todo.Spells accepts self level (body :: .loop .again entry back body :: rest) trees) :
    Todo.Spells accepts self level (.loop rounds entry back body :: rest) trees := by
  obtain ⟨first,_,rfl,inside,second,others,rfl,again,two⟩ := spells
  rw [← List.append_assoc]
  exact Todo.spells_cons (.round steady inside again) two

end Moves

namespace Frame

variable {frame : Frame} {rest : Todo}

-- A new round of a rule that begins with itself: what has been read is a phrase, and the round will make another.
theorem Draft.renewed (draft : frame.Draft accepts)
    (head : frame.todo = .loop rounds entry back body :: rest) (repeats : rounds ≠ .atLeastOne)
    (growing : body.grows = true) (wraps : frame.rule.wrapsAt rest (.loop rounds entry back body) = true) :
    Draft accepts { frame with todo := body :: .loop .again entry back body :: rest } := by
  rw [Rule.wrapsAt,growing,Bool.not_true,Bool.false_or,Bool.and_eq_true,Bool.and_eq_true] at wraps
  obtain ⟨⟨nothing,_⟩,listed⟩ := wraps
  have last : rest = [] := List.isEmpty_iff.mp nothing
  subst last
  obtain ⟨variant,member,alike⟩ := List.any_eq_true.mp listed
  rw [Draft,if_pos (show Todo.renews (body :: [.loop .again entry back body]) = true from growing)]
  refine ⟨?_,fun trees spells => ?_⟩
  · have steady : Todo.renews frame.todo = false := by rw [head]; rfl
    have done : Todo.Spells accepts frame.rule frame.level frame.todo [] := by
      rw [head]
      exact Todo.spells_empty (.stop repeats) rfl
    have allowed := draft.steady steady done
    rwa [List.append_nil] at allowed
  · obtain ⟨first,_,rfl,inside,second,others,rfl,again,rfl⟩ := spells
    cases again with
    | stop _ =>
      rw [List.append_nil,List.append_nil]
      exact ⟨variant,member,inside.of_same alike⟩
    | round steady _ _ => exact absurd (growing.symm.trans steady) (by decide)

theorem Draft.opened (draft : frame.Draft accepts) (sited : Todo.Sited frame.rule frame.todo) {kind : Kind}
    {todo : Todo} (opens : Todo.Opens kind frame.todo todo) : Draft accepts { frame with todo } := by
  generalize head : frame.todo = before at sited opens
  cases opens with
  | skip =>
    refine draft.moved ?_ fun trees spells => ?_
    · rw [head,sited.wraps.1]
      rfl
    · rw [head]
      exact Todo.spells_empty .skip spells
  | seq =>
    refine draft.moved (by rw [head]; rfl) fun trees spells => ?_
    obtain ⟨first,_,rfl,one,second,others,rfl,two,three⟩ := spells
    rw [head,← List.append_assoc]
    exact Todo.spells_cons (.seq one two) three
  | choice member fits =>
    refine draft.moved ?_ fun trees spells => ?_
    · have same := List.all_eq_true.mp sited.wraps.2 _ member
      rw [head]
      exact beq_iff_eq.mp same
    · rw [head]
      exact Todo.spells_replace (fun _ chosen => .choice member chosen) spells
  | enter fits =>
    refine draft.moved ?_ fun trees spells => ?_
    · have steady := sited.wraps.2
      rw [Rule.wrapsAt,Bool.not_eq_true'] at steady
      rw [head]
      exact steady
    · rw [head]
      exact Todo.spells_replace (fun _ inside => .present inside) spells
  | pass free =>
    refine draft.moved ?_ fun trees spells => ?_
    · rw [head,sited.wraps.1]
      rfl
    · rw [head]
      exact Todo.spells_empty .absent spells
  | @first entry back body rest =>
    have steady : body.grows = false := by
      have wraps := sited.wraps.2
      cases growing : body.grows with
      | false => rfl
      | true => simp [Rule.wrapsAt,growing] at wraps
    refine draft.moved (by rw [head]; exact steady) fun trees spells => ?_
    rw [head]
    exact Todo.spells_round steady spells
  | @round rounds entry back body rest repeats fits =>
    cases growing : body.grows with
    | false =>
      refine draft.moved (by rw [head]; exact growing) fun trees spells => ?_
      rw [head]
      exact Todo.spells_round growing spells
    | true => exact draft.renewed head repeats growing sited.wraps.2
  | stop repeats free =>
    refine draft.moved ?_ fun trees spells => ?_
    · rw [head,sited.wraps.1]
      rfl
    · rw [head]
      exact Todo.spells_empty (.stop repeats) spells

theorem draft_of_steady (steady : Todo.renews frame.todo = false)
    (allowed : ∀ trees, Todo.Spells accepts frame.rule frame.level frame.todo trees →
      frame.rule.Allows accepts frame.level (frame.built.reverse ++ trees)) : frame.Draft accepts := by
  rw [Draft,if_neg (by simp [steady])]
  exact allowed

theorem open_draft (rule : Rule) (level : Nat) (site : Option Label) (start : Token) :
    (Frame.open rule level site start).Draft accepts := by
  refine draft_of_steady rule.form_facts.2 ?_
  rintro trees ⟨first,others,rfl,spells,rfl⟩
  rw [List.append_nil]
  exact Rule.allows_form spells

theorem Draft.closes (draft : frame.Draft accepts) (stable : Rule.Stable accepts)
    (done : frame.todo = []) (stop : Option Token) : accepts frame.rule frame.level (frame.close stop) := by
  have steady : Todo.renews frame.todo = false := by rw [done]; rfl
  have nothing : Todo.Spells accepts frame.rule frame.level frame.todo [] := by rw [done]; rfl
  have allowed := draft.steady steady nothing
  rw [List.append_nil] at allowed
  exact stable allowed frame.start stop

theorem Draft.extended (draft : frame.Draft accepts)
    (head : frame.todo = form :: rest) (steady : form.grows = false) (sited : Todo.Sited frame.rule (form :: rest))
    (spells : form.Spells accepts frame.rule frame.level [tree]) :
    Draft accepts { frame.add tree with todo := rest } := by
  refine draft_of_steady sited.wraps.1 fun trees others => ?_
  have allowed := draft.steady (by rw [head]; exact steady) (by rw [head]; exact Todo.spells_cons spells others)
  simpa [Frame.add] using allowed

theorem Draft.wrapped (draft : frame.Draft accepts) (stable : Rule.Stable accepts) {label : Label} {bound : Nat}
    (head : frame.todo = .wrap label bound :: rest) (within : frame.level ≤ bound)
    (sited : Todo.Sited frame.rule (.wrap label bound :: rest)) (stop : Option Token) :
    Draft accepts { frame with built := [frame.close stop], todo := rest } := by
  rw [Draft,if_pos (by rw [head]; rfl)] at draft
  obtain ⟨phrase,more⟩ := draft
  refine draft_of_steady sited.wraps.1 fun trees others => ?_
  have inside : accepts frame.rule frame.level (frame.close stop) := stable phrase frame.start stop
  exact more _ (by rw [head]; exact Todo.spells_cons (.wrap within inside) others)

end Frame

namespace Parse

-- Each caller becomes a draft again once a phrase of the rule it called is added.
def Waits (accepts : Rule → Nat → Tree → Prop) : Frame → List Frame → Prop
  | _, [] => True
  | frame, caller :: callers =>
    (∀ tree, accepts frame.rule frame.level tree → (caller.add tree).Draft accepts) ∧ Waits accepts caller callers

theorem Waits.same {frame other : Frame} {callers : List Frame} (waits : Waits accepts frame callers)
    (rule : other.rule = frame.rule) (level : other.level = frame.level) : Waits accepts other callers := by
  cases callers with
  | nil => trivial
  | cons caller callers => exact ⟨fun tree accepted => waits.1 tree (rule ▸ level ▸ accepted),waits.2⟩

def Sound (accepts : Rule → Nat → Tree → Prop) (parse : Parse) : Prop :=
  parse.frame.Draft accepts ∧ Waits accepts parse.frame parse.callers

theorem takes_leaf {form : Form Label} {kinds : KindSet} (takes : form.Takes kinds) {token : Token}
    (fits : kinds.contains token.kind = true) (self : Rule) (level : Nat) :
    form.grows = false ∧ form.Spells accepts self level [.leaf token] := by
  cases takes with
  | token label kind =>
    have same : token.kind = kind := by simpa using fits
    exact ⟨rfl,same ▸ .token token⟩
  | oneOf label kinds => exact ⟨rfl,.oneOf fits⟩

theorem Effect.sound (effect : Effect before after) (stable : Rule.Stable accepts)
    (placed : Placed before) (clean : after.diagnostics = []) (kept : before.diagnostics = [] → Sound accepts before) :
    Sound accepts after := by
  cases effect with
  | @left caller callers done below alike calm =>
    obtain ⟨draft,waits⟩ := kept (calm.diagnostics ▸ clean)
    rw [below] at waits
    rw [Sound,alike.frame,alike.callers]
    exact ⟨waits.1 _ (draft.closes stable done before.previous),waits.2.same rfl rfl⟩
  | @opened count todo opens alike marks =>
    rcases marks with ⟨rfl,calm⟩ | ⟨reported,_⟩
    · obtain ⟨draft,waits⟩ := kept (calm.diagnostics ▸ clean)
      rw [Sound,alike.frame,alike.callers]
      exact ⟨draft.opened placed.top opens,waits.same rfl rfl⟩
    · exact absurd clean reported
  | @called label rule level rest head alike calm =>
    obtain ⟨draft,waits⟩ := kept (calm.diagnostics ▸ clean)
    rw [Sound,alike.frame,alike.callers]
    refine ⟨Frame.open_draft ..,fun tree accepted => ?_,waits.same rfl rfl⟩
    exact draft.extended head rfl (head ▸ placed.top) (.call accepted)
  | wrapped head within alike calm =>
    obtain ⟨draft,waits⟩ := kept (calm.diagnostics ▸ clean)
    rw [Sound,alike.frame,alike.callers]
    exact ⟨draft.wrapped stable head within (head ▸ placed.top) before.previous,waits.same rfl rfl⟩
  | matched head takes fits alike _ diagnostics =>
    obtain ⟨draft,waits⟩ := kept (diagnostics ▸ clean)
    obtain ⟨steady,spells⟩ := takes_leaf takes fits before.frame.rule before.frame.level
    rw [Sound,alike.frame,alike.callers]
    exact ⟨draft.extended head steady (head ▸ placed.top) spells,waits.same rfl rfl⟩
  | matchedLate _ _ _ _ reported => exact absurd clean reported
  | supplied _ _ _ _ _ _ reported => exact absurd clean reported
  | abandoned _ _ _ givesUp => exact absurd clean givesUp.noted

end Parse

end SolReader
