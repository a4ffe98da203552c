import SolReader.Proofs.KindSet
import SolReader.Proofs.Grammar.Derivation

namespace SolReader

open List

def Tree.member : Tree → Member
  | .leaf token | .error token => .token token.kind
  | .node rule _ _ _ => .phrase rule

def Member.isPhrase (rule : Rule) (member : Member) : Bool :=
  member == .phrase rule

namespace Tree

variable {tree : Tree} {rule : Rule}

@[simp] theorem rule?_leaf (token : Token) : (leaf token).rule? = none := rfl

theorem rule?_eq : tree.rule? = some rule ↔ tree.member = .phrase rule := by
  cases tree <;> simp [rule?,member]

theorem isPhrase_member : Member.isPhrase rule tree.member = true ↔ tree.rule? = some rule := by
  rw [rule?_eq,Member.isPhrase,beq_iff_eq]

-- The children of a rule, in order.
def inner (rule : Rule) (tree : Tree) : List Tree :=
  tree.children.filter (·.rule? == some rule)

theorem mem_inner : child ∈ tree.inner rule ↔ child ∈ tree.children ∧ child.rule? = some rule := by
  simp [inner]

theorem length_inner (rule : Rule) (tree : Tree) :
    (tree.inner rule).length = tree.children.countP fun child => Member.isPhrase rule child.member := by
  rw [inner,countP_eq_length_filter]
  congr 1
  apply filter_congr
  intro child _
  rw [Bool.eq_iff_iff,isPhrase_member,beq_iff_eq]

end Tree

namespace Form

section Bounds

variable {forms : List (Form α)} {form : Form α}
variable {α : Type} (counted : Member → Bool) (self : Rule)

mutual

def least : Form α → Nat
  | .token _ kind => (counted (.token kind)).toNat
  | .oneOf _ kinds => (kinds.toList.all fun kind => counted (.token kind)).toNat
  | .call _ rule _ => (counted (.phrase rule)).toNat
  | .wrap _ _ => (counted (.phrase self)).toNat
  | .skip => 0
  | .seq first second => first.least + second.least
  | .choice _ options => leastOf options
  | .optional _ _ => 0
  | .loop rounds _ _ body => if rounds = .atLeastOne then body.least else 0

def leastOf : List (Form α) → Nat
  | [] => 0
  | [form] => form.least
  | form :: forms => min form.least (leastOf forms)

end

mutual

-- No bound is given for a loop that can bring in such a child.
def most : Form α → Option Nat
  | .token _ kind => some (counted (.token kind)).toNat
  | .oneOf _ kinds => some (kinds.toList.any fun kind => counted (.token kind)).toNat
  | .call _ rule _ => some (counted (.phrase rule)).toNat
  | .wrap _ _ => some (counted (.phrase self)).toNat
  | .skip => some 0
  | .seq first second => first.most.bind fun one => second.most.map (one + ·)
  | .choice _ options => mostOf options
  | .optional _ body => body.most
  | .loop _ _ _ body => body.most.filter (· == 0)

def mostOf : List (Form α) → Option Nat
  | [] => some 0
  | form :: forms => form.most.bind fun one => (mostOf forms).map (max one)

end

variable {counted self}

theorem leastOf_le (member : form ∈ forms) : leastOf counted self forms ≤ form.least counted self := by
  induction forms with
  | nil => cases member
  | cons first forms ih =>
    cases forms with
    | nil =>
      cases mem_singleton.mp member
      exact Nat.le_refl _
    | cons second forms =>
      rw [leastOf]
      · rcases mem_cons.mp member with rfl | later
        · exact Nat.min_le_left ..
        · exact Nat.le_trans (Nat.min_le_right ..) (ih later)
      · exact fun absent => by cases absent

theorem le_mostOf (member : form ∈ forms)
    (bounded : mostOf counted self forms = some bound) : ∃ own, form.most counted self = some own ∧ own ≤ bound := by
  induction forms generalizing bound with
  | nil => cases member
  | cons first forms ih =>
    rw [mostOf] at bounded
    obtain ⟨one,first_most,rest⟩ := Option.bind_eq_some_iff.mp bounded
    obtain ⟨others,rest_most,rfl⟩ := Option.map_eq_some_iff.mp rest
    rcases mem_cons.mp member with rfl | later
    · exact ⟨one,first_most,Nat.le_max_left ..⟩
    · obtain ⟨own,own_most,below⟩ := ih later rest_most
      exact ⟨own,own_most,Nat.le_trans below (Nat.le_max_right ..)⟩

end Bounds

section Spelled

variable {α : Type} {counted : Member → Bool} {self : Rule} {level : Nat} {form : Form α} {trees : List Tree}

theorem count_one (tree : Tree) : [tree].countP (fun child => counted child.member) = (counted tree.member).toNat := by
  rw [countP_singleton]
  cases counted tree.member <;> rfl

theorem toNat_le {left : Bool} (implied : left = true → right = true) : left.toNat ≤ right.toNat := by
  cases left with
  | false => exact Nat.zero_le _
  | true => exact Nat.le_of_eq (congrArg Bool.toNat (implied rfl).symm)

theorem mem_toList {kinds : KindSet} (member : kinds.contains kind = true) : kind ∈ kinds.toList :=
  mem_filter.mpr ⟨Kind.mem_all kind,member⟩

theorem Derives.member_eq (derives : Tree.Derives rule level tree) : tree.member = .phrase rule := by
  cases derives
  rfl

theorem Spells.least_le (spells : form.Spells Tree.Derives self level trees) :
    form.least counted self ≤ trees.countP fun child => counted child.member := by
  induction spells with
  | token token =>
    rw [count_one]
    exact Nat.le_refl _
  | oneOf member =>
    rw [least,count_one]
    exact toNat_le fun all => all_eq_true.mp all _ (mem_toList member)
  | call accepted =>
    rw [count_one,Derives.member_eq accepted]
    exact Nat.le_refl _
  | wrap _ accepted =>
    rw [count_one,Derives.member_eq accepted]
    exact Nat.le_refl _
  | skip => exact Nat.le_refl _
  | seq _ _ one two =>
    rw [least,countP_append]
    exact Nat.add_le_add one two
  | choice member _ chosen => exact Nat.le_trans (leastOf_le member) chosen
  | absent => exact Nat.zero_le _
  | present _ _ => exact Nat.zero_le _
  | stop repeats =>
    rw [least,if_neg repeats]
    exact Nat.zero_le _
  | round _ _ _ inside _ =>
    rw [least,countP_append]
    split
    · exact Nat.le_trans inside (Nat.le_add_right ..)
    · exact Nat.zero_le _

theorem Spells.le_most (spells : form.Spells Tree.Derives self level trees)
    (bounded : form.most counted self = some bound) : trees.countP (fun child => counted child.member) ≤ bound := by
  induction spells generalizing bound with
  | token token =>
    cases bounded
    rw [count_one]
    exact Nat.le_refl _
  | @oneOf _ _ _ kinds token member =>
    cases bounded
    rw [count_one]
    exact toNat_le fun present => any_eq_true.mpr ⟨_,mem_toList member,present⟩
  | call accepted =>
    cases bounded
    simp only [count_one,Derives.member_eq accepted,Nat.le_refl]
  | wrap _ accepted =>
    cases bounded
    simp only [count_one,Derives.member_eq accepted,Nat.le_refl]
  | skip => exact Nat.zero_le _
  | seq _ _ one two =>
    rw [most] at bounded
    obtain ⟨left,left_most,rest⟩ := Option.bind_eq_some_iff.mp bounded
    obtain ⟨right,right_most,rfl⟩ := Option.map_eq_some_iff.mp rest
    rw [countP_append]
    exact Nat.add_le_add (one left_most) (two right_most)
  | choice member _ chosen =>
    obtain ⟨own,own_most,below⟩ := le_mostOf member bounded
    exact Nat.le_trans (chosen own_most) below
  | absent => exact Nat.zero_le _
  | present _ inside => exact inside bounded
  | stop _ => exact Nat.zero_le _
  | round _ _ _ inside others =>
    -- Every round brings in none.
    have again := others bounded
    rw [most,Option.filter_eq_some_iff] at bounded
    have lacking := inside bounded.1
    rw [beq_iff_eq.mp bounded.2] at lacking again ⊢
    rw [countP_append]
    exact Nat.add_le_add lacking again

end Spelled

end Form

namespace Rule

def least (rule : Rule) (counted : Member → Bool) : Nat :=
  Form.leastOf counted rule rule.variants

def most (rule : Rule) (counted : Member → Bool) : Option Nat :=
  Form.mostOf counted rule rule.variants

end Rule

namespace Tree.Derives

variable {counted : Member → Bool} {bound : Nat} {other : Rule}
variable {rule : Rule} {level : Nat} {tree : Tree}

theorem least_le (derives : Derives rule level tree) (counted : Member → Bool) :
    rule.least counted ≤ tree.children.countP fun child => counted child.member := by
  cases derives with
  | node listed spells => exact Nat.le_trans (Form.leastOf_le listed) spells.least_le

theorem le_most (derives : Derives rule level tree)
    (bounded : rule.most counted = some bound) : (tree.children.countP fun child => counted child.member) ≤ bound := by
  cases derives with
  | node listed spells =>
    obtain ⟨own,own_most,below⟩ := Form.le_mostOf listed bounded
    exact Nat.le_trans (spells.le_most own_most) below

theorem child_of_least (derives : Derives rule level tree) (always : 0 < rule.least counted) :
    ∃ child ∈ tree.children, counted child.member = true :=
  countP_pos_iff.mp (Nat.lt_of_lt_of_le always (derives.least_le counted))

theorem not_counted (derives : Derives rule level tree) (never : rule.most counted = some 0)
    (member : child ∈ tree.children) : counted child.member = false := by
  have absent := countP_eq_zero.mp (Nat.le_zero.mp (derives.le_most never)) child member
  exact Bool.eq_false_iff.mpr absent

theorem inner_ne_nil (derives : Derives rule level tree)
    (always : 0 < rule.least (Member.isPhrase other)) : tree.inner other ≠ [] := by
  obtain ⟨child,member,found⟩ := derives.child_of_least always
  exact ne_nil_of_mem (mem_inner.mpr ⟨member,isPhrase_member.mp found⟩)

theorem inner_le (derives : Derives rule level tree)
    (bounded : rule.most (Member.isPhrase other) = some bound) : (tree.inner other).length ≤ bound := by
  rw [length_inner]
  exact derives.le_most bounded

end Tree.Derives

end SolReader
