import SolReader.Tree
import SolReader.Grammar.Member
import SolReader.Proofs.Grammar.Place

namespace SolReader

open List Bool

inductive Form.Spells {α : Type} (accepts : Rule → Nat → Tree → Prop) :
    Form α → Rule → Nat → List Tree → Prop where
  | token {self : Rule} {level : Nat} {label : α} (token : Token) : Spells accepts (.token label token.kind) self level [.leaf token]
  | oneOf {self : Rule} {level : Nat} {label : α} {kinds : KindSet} {token : Token}
      (member : kinds.contains token.kind = true) :
      Spells accepts (.oneOf label kinds) self level [.leaf token]
  | call {self : Rule} {level : Nat} {label : α} {rule : Rule} {bound : Nat} {tree : Tree}
      (accepted : accepts rule bound tree) :
      Spells accepts (.call label rule bound) self level [tree]
  | wrap {self : Rule} {level : Nat} {label : α} {bound : Nat} {tree : Tree} (within : level ≤ bound)
      (accepted : accepts self level tree) :
      Spells accepts (.wrap label bound) self level [tree]
  | skip {self : Rule} {level : Nat} : Spells accepts .skip self level []
  | seq {self : Rule} {level : Nat} {first second : Form α} {left right : List Tree}
      (one : Spells accepts first self level left)
      (two : Spells accepts second self level right) : Spells accepts (.seq first second) self level (left ++ right)
  | choice {self : Rule} {level : Nat} {label : α} {options : List (Form α)} {option : Form α} {trees : List Tree}
      (member : option ∈ options)
      (chosen : Spells accepts option self level trees) : Spells accepts (.choice label options) self level trees
  | absent {self : Rule} {level : Nat} {label : α} {body : Form α} : Spells accepts (.optional label body) self level []
  | present {self : Rule} {level : Nat} {label : α} {body : Form α} {trees : List Tree}
      (inside : Spells accepts body self level trees) :
      Spells accepts (.optional label body) self level trees
  | stop {self : Rule} {level : Nat} {rounds : Rounds} {entry back : α} {body : Form α}
      (repeats : rounds ≠ .atLeastOne) :
      Spells accepts (.loop rounds entry back body) self level []
  | round {self : Rule} {level : Nat} {rounds : Rounds} {entry back : α} {body : Form α} {left right : List Tree}
      (steady : body.grows = false)
      (inside : Spells accepts body self level left)
      (others : Spells accepts (.loop .again entry back body) self level right) :
      Spells accepts (.loop rounds entry back body) self level (left ++ right)

inductive Tree.Derives : Rule → Nat → Tree → Prop where
  | node {rule : Rule} {level : Nat} {start : Token} {stop : Option Token} {children : List Tree} {variant : Form Unit}
      (listed : variant ∈ rule.variants) (spells : Form.Spells Derives variant rule level children) :
      Derives rule level (.node rule start stop children)

namespace Form

mutual

-- Whether two forms are the same but for their labels.
def same {α β : Type} : Form α → Form β → Bool
  | .token _ kind, .token _ other => kind == other
  | .oneOf _ kinds, .oneOf _ others => kinds == others
  | .call _ rule level, .call _ other bound => rule == other && level == bound
  | .wrap _ level, .wrap _ bound => level == bound
  | .skip, .skip => true
  | .seq first second, .seq third fourth => first.same third && second.same fourth
  | .choice _ options, .choice _ others => allSame options others
  | .optional _ body, .optional _ other => body.same other
  | .loop rounds _ _ body, .loop others _ _ other => rounds == others && body.same other
  | _, _ => false

def allSame {α β : Type} : List (Form α) → List (Form β) → Bool
  | [], [] => true
  | form :: forms, other :: others => form.same other && allSame forms others
  | _, _ => false

end

section Same

variable {α β : Type}

theorem mem_allSame (alike : allSame forms others = true)
    (member : form ∈ forms) : ∃ other ∈ others, form.same other = true := by
  induction forms generalizing others with
  | nil => cases member
  | cons first forms ih =>
    cases others with
    | nil => cases alike
    | cons other others =>
      rw [allSame,and_eq_true] at alike
      rcases mem_cons.mp member with rfl | later
      · exact ⟨other,mem_cons_self,alike.1⟩
      · obtain ⟨found,listed,matching⟩ := ih alike.2 later
        exact ⟨found,mem_cons_of_mem _ listed,matching⟩

theorem grows_of_same : (form : Form α) → (other : Form β) → form.same other = true → form.grows = other.grows
  | .token _ _, .token _ _, _ | .oneOf _ _, .oneOf _ _, _ | .call _ _ _, .call _ _ _, _ | .wrap _ _, .wrap _ _, _
  | .skip, .skip, _ | .optional _ _, .optional _ _, _ | .loop _ _ _ _, .loop _ _ _ _, _ => rfl
  | .seq first second, .seq third fourth, alike => by
    rw [same,and_eq_true] at alike
    exact grows_of_same first third alike.1
  | .choice _ [], .choice _ [], _ => rfl
  | .choice _ (option :: _), .choice _ (other :: _), alike => by
    rw [same,allSame,and_eq_true] at alike
    exact grows_of_same option other alike.1

theorem Spells.of_same {accepts : Rule → Nat → Tree → Prop} {form : Form α}
    (spells : form.Spells accepts self level trees)
    (alike : form.same other = true) : other.Spells accepts self level trees := by
  induction spells generalizing other with
  | token token =>
    cases other <;> simp only [same,beq_iff_eq,false_eq_true] at alike
    exact alike ▸ .token token
  | oneOf member =>
    cases other <;> simp only [same,beq_iff_eq,false_eq_true] at alike
    exact .oneOf (alike ▸ member)
  | call accepted =>
    cases other <;> simp only [same,and_eq_true,beq_iff_eq,false_eq_true] at alike
    exact alike.1 ▸ alike.2 ▸ .call accepted
  | wrap within accepted =>
    cases other <;> simp only [same,beq_iff_eq,false_eq_true] at alike
    exact .wrap (alike ▸ within) accepted
  | skip =>
    cases other <;> simp only [same,false_eq_true] at alike
    exact .skip
  | seq _ _ one two =>
    cases other <;> simp only [same,and_eq_true,false_eq_true] at alike
    exact .seq (one alike.1) (two alike.2)
  | choice member _ chosen =>
    cases other <;> simp only [same,false_eq_true] at alike
    obtain ⟨found,listed,matching⟩ := mem_allSame alike member
    exact .choice listed (chosen matching)
  | absent =>
    cases other <;> simp only [same,false_eq_true] at alike
    exact .absent
  | present _ inside =>
    cases other <;> simp only [same,false_eq_true] at alike
    exact .present (inside alike)
  | stop repeats =>
    cases other <;> simp only [same,and_eq_true,beq_iff_eq,false_eq_true] at alike
    exact .stop (alike.1 ▸ repeats)
  | round steady _ _ inside others =>
    cases other <;> simp only [same,and_eq_true,beq_iff_eq,false_eq_true] at alike
    refine .round ((grows_of_same _ _ alike.2).symm.trans steady) (inside alike.2) (others ?_)
    rw [same,and_eq_true]
    exact ⟨rfl,alike.2⟩

end Same

end Form

section Shapes

variable {rule : Rule} {bound : Nat}
variable {α : Type} {accepts : Rule → Nat → Tree → Prop} {self : Rule} {level : Nat} {label : α} {trees : List Tree}

-- What each sort of form spells.

theorem Form.spells_token :
    (Form.token label kind).Spells accepts self level trees ↔ ∃ token, token.kind = kind ∧ trees = [.leaf token] := by
  constructor
  · intro spells
    cases spells with
    | token token => exact ⟨token,rfl,rfl⟩
  · rintro ⟨token,rfl,rfl⟩
    exact .token token

theorem Form.spells_oneOf {kinds : KindSet} : (Form.oneOf label kinds).Spells accepts self level trees ↔
    ∃ token, kinds.contains token.kind = true ∧ trees = [.leaf token] := by
  constructor
  · intro spells
    cases spells with
    | oneOf member => exact ⟨_,member,rfl⟩
  · rintro ⟨token,member,rfl⟩
    exact .oneOf member

theorem Form.spells_call :
    (Form.call label rule bound).Spells accepts self level trees ↔ ∃ tree, accepts rule bound tree ∧ trees = [tree] := by
  constructor
  · intro spells
    cases spells with
    | call accepted => exact ⟨_,accepted,rfl⟩
  · rintro ⟨tree,accepted,rfl⟩
    exact .call accepted

theorem Form.spells_wrap : (Form.wrap label bound).Spells accepts self level trees ↔
    ∃ tree, level ≤ bound ∧ accepts self level tree ∧ trees = [tree] := by
  constructor
  · intro spells
    cases spells with
    | wrap within accepted => exact ⟨_,within,accepted,rfl⟩
  · rintro ⟨tree,within,accepted,rfl⟩
    exact .wrap within accepted

theorem Form.spells_seq : (Form.seq first second).Spells accepts self level trees ↔
    ∃ left right, first.Spells accepts self level left ∧ second.Spells accepts self level right ∧
      trees = left ++ right := by
  constructor
  · intro spells
    cases spells with
    | seq one two => exact ⟨_,_,one,two,rfl⟩
  · rintro ⟨left,right,one,two,rfl⟩
    exact .seq one two

theorem Form.spells_choice {options : List (Form α)} : (Form.choice label options).Spells accepts self level trees ↔
    ∃ option ∈ options, option.Spells accepts self level trees := by
  constructor
  · intro spells
    cases spells with
    | choice member chosen => exact ⟨_,member,chosen⟩
  · rintro ⟨option,member,chosen⟩
    exact .choice member chosen

theorem Form.spells_optional : (Form.optional label body).Spells accepts self level trees ↔
    trees = [] ∨ body.Spells accepts self level trees := by
  constructor
  · intro spells
    cases spells with
    | absent => exact .inl rfl
    | present inside => exact .inr inside
  · rintro (rfl | inside)
    · exact .absent
    · exact .present inside

theorem Form.Spells.rounds_induction
    (spells : (Form.loop rounds entry back body).Spells accepts self level trees) (holds : List Tree → Prop)
    (absent : holds [])
    (more : ∀ left right, body.Spells accepts self level left → holds right → holds (left ++ right)) : holds trees := by
  generalize same : Form.loop rounds entry back body = form at spells
  induction spells generalizing rounds with
  | stop _ => exact absent
  | round _ inside _ _ ih =>
    cases same
    exact more _ _ inside (ih more rfl)
  | _ => cases same

theorem Tree.Derives.spelled (derives : Tree.Derives rule level tree) :
    ∃ variant ∈ rule.variants, variant.Spells Tree.Derives rule level tree.children := by
  cases derives with
  | node listed spells => exact ⟨_,listed,spells⟩

theorem Tree.Derives.spelled_alone (derives : Tree.Derives rule level tree) (alone : rule.variants = [variant]) :
    variant.Spells Tree.Derives rule level tree.children := by
  obtain ⟨_,listed,spells⟩ := derives.spelled
  rw [alone] at listed
  exact mem_singleton.mp listed ▸ spells

end Shapes

theorem Form.Spells.child {α : Type} {accepts : Rule → Nat → Tree → Prop} {form : Form α}
    (spells : form.Spells accepts self level trees) (member : tree ∈ trees) :
    (∃ token, tree = .leaf token) ∨ ∃ rule bound, accepts rule bound tree := by
  induction spells with
  | token token => exact .inl ⟨token,mem_singleton.mp member⟩
  | @oneOf _ _ _ _ token _ => exact .inl ⟨token,mem_singleton.mp member⟩
  | call accepted =>
    cases mem_singleton.mp member
    exact .inr ⟨_,_,accepted⟩
  | wrap _ accepted =>
    cases mem_singleton.mp member
    exact .inr ⟨_,_,accepted⟩
  | skip => cases member
  | seq _ _ one two =>
    rcases mem_append.mp member with left | right
    · exact one left
    · exact two right
  | choice _ _ chosen => exact chosen member
  | absent => cases member
  | present _ inside => exact inside member
  | stop _ => cases member
  | round _ _ _ inside others =>
    rcases mem_append.mp member with left | right
    · exact inside left
    · exact others right

namespace Tree

mutual

-- Whether recovery has left a mark in the tree.
def hasError : Tree → Bool
  | .leaf _ => false
  | .error _ => true
  | .node _ _ _ children => anyError children

def anyError : List Tree → Bool
  | [] => false
  | tree :: trees => tree.hasError || anyError trees

end

mutual

theorem Derives.no_error : (tree : Tree) → Derives rule level tree → tree.hasError = false
  | .leaf _, derives => by cases derives
  | .error _, derives => by cases derives
  | .node _ _ _ children, derives => by
    cases derives with
    | node _ spells =>
      rw [hasError]
      exact anyError_false children fun _ member => spells.child member

theorem anyError_false : (trees : List Tree) →
    (∀ tree ∈ trees, (∃ token, tree = .leaf token) ∨ ∃ rule level, Derives rule level tree) → anyError trees = false
  | [], _ => rfl
  | tree :: trees, phrases => by
    have others := anyError_false trees fun other member => phrases other (List.mem_cons_of_mem _ member)
    rw [anyError,others,Bool.or_false]
    rcases phrases tree List.mem_cons_self with ⟨token,rfl⟩ | ⟨_,_,derives⟩
    · rfl
    · exact Derives.no_error tree derives

end

end Tree

end SolReader
