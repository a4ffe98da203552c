import SolReader.Proofs.Parse.Soundness
import SolReader.Proofs.Prediction.Todo

namespace SolReader

open List Bool

inductive Tree.Phrase : Rule → Tree → Prop where
  | node {rule : Rule} {start : Token} {stop : Option Token} {children : List Tree} {variant : Form Unit}
      (listed : variant ∈ rule.variants)
      (spells : Form.Spells (fun rule _ tree => Phrase rule tree) variant rule 0 children) :
      Phrase rule (.node rule start stop children)

section Loosening

variable {accepts : Rule → Nat → Tree → Prop} {others : Rule → Tree → Prop}

theorem Form.Spells.loosened {α : Type} {form : Form α} (spells : form.Spells accepts self level trees)
    (more : ∀ tree ∈ trees, ∀ rule bound, accepts rule bound tree → others rule tree) :
    form.Spells (fun rule _ tree => others rule tree) self 0 trees := by
  induction spells with
  | token token => exact .token token
  | oneOf member => exact .oneOf member
  | call accepted => exact .call (more _ (mem_singleton_self _) _ _ accepted)
  | wrap _ accepted => exact .wrap (Nat.zero_le _) (more _ (mem_singleton_self _) _ _ accepted)
  | skip => exact .skip
  | seq _ _ one two =>
    obtain ⟨left,right⟩ := forall_mem_append.mp more
    exact .seq (one left) (two right)
  | choice member _ chosen => exact .choice member (chosen more)
  | absent => exact .absent
  | present _ inside => exact .present (inside more)
  | stop repeats => exact .stop repeats
  | round steady _ _ inside rounds =>
    obtain ⟨left,right⟩ := forall_mem_append.mp more
    exact .round steady (inside left) (rounds right)

end Loosening

namespace Tree

mutual

theorem Derives.phrase : (tree : Tree) → ∀ rule level, Derives rule level tree → Phrase rule tree
  | .leaf _, _, _, derives => by cases derives
  | .error _, _, _, derives => by cases derives
  | .node _ _ _ children, _, _, derives => by
    cases derives with
    | node listed spells => exact .node listed (spells.loosened (eachPhrase children))

theorem eachPhrase : (trees : List Tree) → ∀ tree ∈ trees, ∀ rule level, Derives rule level tree → Phrase rule tree
  | [] => fun _ member => nomatch member
  | tree :: trees => forall_mem_cons.mpr ⟨Derives.phrase tree,eachPhrase trees⟩

end

end Tree

namespace Form

variable {α : Type} {forms : List (Form α)}

-- The words of a form.  A `wrap` adds nothing to what was read before it.
inductive Gives : Form Unit → List Kind → Prop where
  | token {label : Unit} (kind : Kind) : Gives (.token label kind) [kind]
  | oneOf {label : Unit} {kinds : KindSet} {kind : Kind} (member : kinds.contains kind = true) :
      Gives (.oneOf label kinds) [kind]
  | call {label : Unit} {rule : Rule} {level : Nat} {word : List Kind} (inside : Gives rule.body word) :
      Gives (.call label rule level) word
  | wrap {label : Unit} {level : Nat} : Gives (.wrap label level) []
  | skip : Gives .skip []
  | seq {first second : Form Unit} {left right : List Kind} (one : Gives first left) (two : Gives second right) :
      Gives (.seq first second) (left ++ right)
  | choice {label : Unit} {options : List (Form Unit)} {option : Form Unit} {word : List Kind} (member : option ∈ options)
      (chosen : Gives option word) : Gives (.choice label options) word
  | absent {label : Unit} {body : Form Unit} : Gives (.optional label body) []
  | present {label : Unit} {body : Form Unit} {word : List Kind} (inside : Gives body word) :
      Gives (.optional label body) word
  | stop {rounds : Rounds} {entry back : Unit} {body : Form Unit} (repeats : rounds ≠ .atLeastOne) :
      Gives (.loop rounds entry back body) []
  | round {rounds : Rounds} {entry back : Unit} {body : Form Unit} {left right : List Kind} (inside : Gives body left)
      (others : Gives (.loop .again entry back body) right) : Gives (.loop rounds entry back body) (left ++ right)

mutual

-- A `wrap` stands only at the beginning, and then in every option.
def wrapsFirst {α : Type} : Form α → Bool
  | .seq first second => first.wrapsFirst && second.wrapsFirst && !second.grows
  | .choice label options => allWrapFirst (Form.choice label options).grows options
  | .optional _ body => body.wrapsFirst && !body.grows
  | .loop _ _ _ body => body.wrapsFirst
  | _ => true

def allWrapFirst {α : Type} (growing : Bool) : List (Form α) → Bool
  | [] => true
  | form :: forms => form.wrapsFirst && form.grows == growing && allWrapFirst growing forms

end

theorem mem_allWrapFirst (all : allWrapFirst growing forms = true)
    (member : form ∈ forms) : form.wrapsFirst = true ∧ form.grows = growing := by
  induction forms with
  | nil => cases member
  | cons first forms ih =>
    simp only [allWrapFirst,and_eq_true,beq_iff_eq] at all
    rcases mem_cons.mp member with rfl | later
    · exact all.1
    · exact ih all.2 later

theorem mem_allSame_right {β : Type} {others : List (Form β)}
    (alike : allSame forms others = true) {other : Form β} (member : other ∈ others) :
    ∃ form ∈ forms, form.same other = true := by
  induction others generalizing forms with
  | nil => cases member
  | cons first others ih =>
    cases forms with
    | nil => cases alike
    | cons form forms =>
      rw [allSame,and_eq_true] at alike
      rcases mem_cons.mp member with rfl | later
      · exact ⟨form,mem_cons_self,alike.1⟩
      · obtain ⟨found,listed,matching⟩ := ih alike.2 later
        exact ⟨found,mem_cons_of_mem _ listed,matching⟩

-- The kinds of the tokens of some trees.
def word (trees : List Tree) : List Kind := (Tree.allTokens trees).map (·.kind)

theorem word_append (left right : List Tree) : word (left ++ right) = word left ++ word right := by
  rw [word,Tree.allTokens_append,map_append]
  rfl

theorem word_singleton (tree : Tree) : word [tree] = tree.tokens.map (·.kind) := by
  simp [word,Tree.allTokens]

-- What a form spells is a word of it; if it begins with a `wrap`, behind the phrase that is wrapped.
def Voices (accepts : Rule → Tree → Prop) (self : Rule) (form : Form Unit) (trees : List Tree) : Prop :=
  if form.grows then ∃ first others, trees = first :: others ∧ accepts self first ∧ form.Gives (word others)
  else form.Gives (word trees)

theorem Spells.voices {accepts : Rule → Tree → Prop} {form : Form Unit}
    (spells : form.Spells (fun rule _ tree => accepts rule tree) self 0 trees) (wraps : form.wrapsFirst = true)
    (inner : ∀ tree ∈ trees, ∀ rule, accepts rule tree → rule.body.Gives (tree.tokens.map (·.kind))) :
    form.Voices accepts self trees := by
  generalize asked : (0 : Nat) = level at spells
  induction spells with
  | token token => exact .token token.kind
  | oneOf member => exact .oneOf member
  | call accepted =>
    rw [Voices,if_neg (by simp [grows]),word_singleton]
    exact .call (inner _ (mem_singleton_self _) _ accepted)
  | wrap _ accepted => exact ⟨_,[],rfl,accepted,.wrap⟩
  | skip => exact .skip
  | @seq _ _ first second left right _ _ one two =>
    simp only [wrapsFirst,and_eq_true,not_eq_true'] at wraps
    obtain ⟨inLeft,inRight⟩ := forall_mem_append.mp inner
    have front := one wraps.1.1 inLeft asked
    have later := two wraps.1.2 inRight asked
    rw [Voices,if_neg (by simp [wraps.2])] at later
    rw [Voices,grows]
    rw [Voices] at front
    split
    · rename_i growing
      rw [if_pos growing] at front
      obtain ⟨child,others,rfl,accepted,gives⟩ := front
      exact ⟨child,others ++ right,rfl,accepted,by rw [word_append]; exact .seq gives later⟩
    · rename_i steady
      rw [if_neg steady] at front
      rw [word_append]
      exact .seq front later
  | @choice _ _ label options option _ member _ chosen =>
    obtain ⟨regular,same⟩ := mem_allWrapFirst wraps member
    have found := chosen regular inner asked
    rw [Voices,same] at found
    rw [Voices]
    split
    · rename_i growing
      rw [if_pos growing] at found
      obtain ⟨child,others,split,accepted,gives⟩ := found
      exact ⟨child,others,split,accepted,.choice member gives⟩
    · rename_i steady
      rw [if_neg steady] at found
      exact .choice member found
  | absent => exact .absent
  | present _ inside =>
    simp only [wrapsFirst,and_eq_true,not_eq_true'] at wraps
    have found := inside wraps.1 inner asked
    rw [Voices,if_neg (by simp [wraps.2])] at found
    exact .present found
  | stop repeats => exact .stop repeats
  | round steady _ _ inside others =>
    obtain ⟨inLeft,inRight⟩ := forall_mem_append.mp inner
    have found := inside wraps inLeft asked
    have later := others wraps inRight asked
    rw [Voices,if_neg (by simp [steady])] at found
    rw [Voices,if_neg (by simp [grows])] at later ⊢
    rw [word_append]
    exact .round found later

theorem Gives.another {word : List Kind}
    (gives : (Form.loop rounds entry back body).Gives word) (round : body.Gives more) :
    (Form.loop rounds entry back body).Gives (word ++ more) := by
  generalize same : Form.loop rounds entry back body = form at gives
  induction gives generalizing rounds with
  | stop _ =>
    cases same
    rw [nil_append,← append_nil more]
    exact .round round (.stop (by decide))
  | round inside _ _ ih =>
    cases same
    rw [append_assoc]
    exact .round inside (ih rfl)
  | _ => cases same

end Form

-- The bodies and variants of all rules are regular, and the rounds of a rule that begins with itself may be left out.
theorem Rule.variants_checked : ∀ rule : Rule, (
    rule.variants.all Form.wrapsFirst && !rule.body.grows && match rule.body with
      | .seq first (.loop rounds _ _ round) => !round.grows || (rounds != .atLeastOne && !first.grows)
      | _ => true) = true := by
  decide

namespace Tree

theorem Phrase.gives_step {rule : Rule} {children : List Tree} (listed : variant ∈ rule.variants)
    (spells : Form.Spells (fun rule _ tree => Phrase rule tree) variant rule 0 children)
    (inner : ∀ tree ∈ children, ∀ rule, Phrase rule tree → rule.body.Gives (tree.tokens.map (·.kind))) :
    rule.body.Gives (Form.word children) := by
  have checked := Rule.variants_checked rule
  simp only [Bool.and_eq_true,List.all_eq_true,Bool.not_eq_true'] at checked
  obtain ⟨⟨regular,steady⟩,rounds⟩ := checked
  have voices := spells.voices (regular variant listed) inner
  have plain (body : Form Unit) (same : variant = body) (steady : body.grows = false) :
      body.Gives (Form.word children) := by
    rwa [Form.Voices,same,if_neg (by simp [steady])] at voices
  rw [Rule.variants] at listed
  split at listed
  · rename_i first loops entry back round whole
    rw [whole] at steady rounds ⊢
    split at listed
    · rename_i growing
      simp only [growing,Bool.not_true,Bool.false_or,Bool.and_eq_true,bne_iff_ne,Bool.not_eq_true'] at rounds
      rcases List.mem_cons.mp listed with same | last
      · have front := plain first same rounds.2
        have absent : (Form.loop loops entry back round).Gives [] := .stop rounds.1
        have found := Form.Gives.seq front absent
        rwa [List.append_nil] at found
      · cases List.mem_singleton.mp last
        -- the phrase that is wrapped is read first, and the round comes behind its rounds
        rw [Form.Voices,if_pos growing] at voices
        obtain ⟨child,others,rfl,phrase,more⟩ := voices
        have before := inner child List.mem_cons_self rule phrase
        rw [whole] at before
        rw [show child :: others = [child] ++ others from rfl,Form.word_append,Form.word_singleton]
        generalize child.tokens.map (·.kind) = front at before
        cases before with
        | seq one two =>
          rw [List.append_assoc]
          exact .seq one (two.another more)
    · exact plain _ (List.mem_singleton.mp listed) steady
  · exact plain _ (List.mem_singleton.mp listed) steady

mutual

theorem Phrase.gives : (tree : Tree) → ∀ rule, Phrase rule tree → rule.body.Gives (tree.tokens.map (·.kind))
  | .leaf _, _, phrase => by cases phrase
  | .error _, _, phrase => by cases phrase
  | .node _ _ _ children, _, phrase => by
    cases phrase with
    | node listed spells => exact Phrase.gives_step listed spells (allGive children)

theorem allGive : (trees : List Tree) → ∀ tree ∈ trees, ∀ rule, Phrase rule tree →
    rule.body.Gives (tree.tokens.map (·.kind))
  | [] => fun _ member => nomatch member
  | tree :: trees => forall_mem_cons.mpr ⟨Phrase.gives tree,allGive trees⟩

end

end Tree

theorem Form.Gives.reads {plain : Form Unit} {word : List Kind} (gives : plain.Gives word) {rule : Rule}
    {form : Form Label} (same : form.same plain = true) {rest : Todo} (sited : Todo.Sited rule (form :: rest))
    {sites : List Label} {kinds : List Kind} (reads : (Todo.reach rest).Reads 0 sites kinds) :
    (Todo.reach (form :: rest)).Reads 0 sites (word ++ kinds) := by
  induction gives generalizing rule form rest sites kinds with
  | token kind =>
    cases form <;> simp only [Form.same,beq_iff_eq,false_eq_true] at same
    rename_i label other
    exact (Todo.reads_head rfl (Label.after_eq (sited.place rfl) rfl)).mpr ⟨kind,kinds,rfl,by simp [same],reads⟩
  | oneOf member =>
    cases form <;> simp only [Form.same,beq_iff_eq,false_eq_true] at same
    exact (Todo.reads_head rfl (Label.after_eq (sited.place rfl) rfl)).mpr ⟨_,kinds,rfl,same ▸ member,reads⟩
  | call _ ih =>
    cases form <;> simp only [Form.same,and_eq_true,beq_iff_eq,false_eq_true] at same
    rename_i site callee bound
    obtain ⟨rfl,_⟩ := same
    rw [Todo.reads_call sited 0 0,← Rule.reach_start]
    refine ih callee.form_facts.1 (Todo.sited_start callee) ?_
    have after : site.after = Todo.reach rest := Label.after_eq (sited.place rfl) rfl
    exact (Reach.reads_nothing 0).mpr (after ▸ reads)
  | wrap =>
    cases form <;> simp only [Form.same,beq_iff_eq,false_eq_true] at same
    exact (Todo.reads_wrap sited).mpr ⟨Nat.zero_le _,reads⟩
  | skip =>
    cases form <;> simp only [Form.same,false_eq_true] at same
    rwa [Todo.reach_skip]
  | seq _ _ one two =>
    cases form <;> simp only [Form.same,and_eq_true,false_eq_true] at same
    have parts := Todo.sited_seq sited
    rw [Todo.reach_seq sited,append_assoc]
    exact one same.1 parts (two same.2 parts.2 reads)
  | choice member _ ih =>
    cases form <;> simp only [Form.same,false_eq_true] at same
    obtain ⟨option,listed,alike⟩ := Form.mem_allSame_right same member
    exact (Todo.reads_choice sited).mpr ⟨option,listed,ih alike (Todo.sited_option sited listed) reads⟩
  | absent =>
    cases form <;> simp only [Form.same,false_eq_true] at same
    exact (Todo.reads_optional sited).mpr (.inr reads)
  | present _ ih =>
    cases form <;> simp only [Form.same,false_eq_true] at same
    exact (Todo.reads_optional sited).mpr (.inl (ih same (Todo.sited_body sited) reads))
  | stop repeats =>
    cases form <;> simp only [Form.same,and_eq_true,beq_iff_eq,false_eq_true] at same
    exact (Todo.reads_loop sited (same.1 ▸ repeats)).mpr (.inr reads)
  | round _ _ inside others =>
    cases form <;> simp only [Form.same,and_eq_true,beq_iff_eq,false_eq_true] at same
    rename_i rounds entry back body
    have parts := Todo.sited_loop sited
    have again := inside same.2 parts (others (by simp [Form.same,same.2]) parts.2 reads)
    rw [append_assoc]
    by_cases first : rounds = .atLeastOne
    · subst first
      rwa [Todo.reach_first sited]
    · exact (Todo.reads_loop sited first).mpr (.inl again)

end SolReader
