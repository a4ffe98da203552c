import SolReader.Proofs.Grammar.Count

namespace SolReader

open List

namespace Form

section Rows

variable {α : Type} (self : Rule)

mutual

-- Loops have no finite list.
def rows : Form α → Option (List (List Member))
  | .token _ kind => some [[.token kind]]
  | .oneOf _ kinds => some (kinds.toList.map fun kind => [.token kind])
  | .call _ rule _ => some [[.phrase rule]]
  | .wrap _ _ => some [[.phrase self]]
  | .skip => some [[]]
  | .seq first second =>
    first.rows.bind fun left => second.rows.map fun right => left.flatMap fun row => right.map (row ++ ·)
  | .choice _ options => rowsOf options
  | .optional _ body => body.rows.map ([] :: ·)
  | .loop _ _ _ _ => none

def rowsOf : List (Form α) → Option (List (List Member))
  | [] => some []
  | form :: forms => form.rows.bind fun own => (rowsOf forms).map (own ++ ·)

end

variable {self}

theorem rowsOf_subset {forms : List (Form α)} {form : Form α} (member : form ∈ forms) {list : List (List Member)}
    (listed : rowsOf self forms = some list) : ∃ own, form.rows self = some own ∧ own ⊆ list := by
  induction forms generalizing list with
  | nil => cases member
  | cons first forms ih =>
    rw [rowsOf] at listed
    obtain ⟨own,first_rows,rest⟩ := Option.bind_eq_some_iff.mp listed
    obtain ⟨others,rest_rows,rfl⟩ := Option.map_eq_some_iff.mp rest
    rcases mem_cons.mp member with rfl | later
    · exact ⟨own,first_rows,subset_append_left ..⟩
    · obtain ⟨found,found_rows,inside⟩ := ih later rest_rows
      exact ⟨found,found_rows,subset_append_of_subset_right _ inside⟩

theorem Spells.mem_rows {level : Nat} {form : Form α} {trees : List Tree}
    (spells : form.Spells Tree.Derives self level trees) {list : List (List Member)}
    (listed : form.rows self = some list) : trees.map Tree.member ∈ list := by
  induction spells generalizing list with
  | token token =>
    cases listed
    exact mem_singleton_self _
  | oneOf member =>
    cases listed
    exact mem_map.mpr ⟨_,mem_toList member,rfl⟩
  | call accepted =>
    cases listed
    rw [map_singleton,Derives.member_eq accepted]
    exact mem_singleton_self _
  | wrap _ accepted =>
    cases listed
    rw [map_singleton,Derives.member_eq accepted]
    exact mem_singleton_self _
  | skip =>
    cases listed
    exact mem_singleton_self _
  | seq _ _ one two =>
    rw [rows] at listed
    obtain ⟨left,left_rows,rest⟩ := Option.bind_eq_some_iff.mp listed
    obtain ⟨right,right_rows,rfl⟩ := Option.map_eq_some_iff.mp rest
    rw [map_append]
    exact mem_flatMap.mpr ⟨_,one left_rows,mem_map.mpr ⟨_,two right_rows,rfl⟩⟩
  | choice member _ chosen =>
    obtain ⟨own,own_rows,inside⟩ := rowsOf_subset member listed
    exact inside (chosen own_rows)
  | absent =>
    obtain ⟨inner,_,rfl⟩ := Option.map_eq_some_iff.mp listed
    exact mem_cons_self
  | present _ inside =>
    obtain ⟨inner,inner_rows,rfl⟩ := Option.map_eq_some_iff.mp listed
    exact mem_cons_of_mem _ (inside inner_rows)
  | stop _ => cases listed
  | round _ _ _ _ _ => cases listed

end Rows

end Form

def Rule.rows (rule : Rule) : Option (List (List Member)) :=
  Form.rowsOf rule rule.variants

namespace Tree

-- Whether a token of a kind is among the children.
def hasToken (kind : Kind) (tree : Tree) : Bool :=
  tree.children.any (·.member == .token kind)

theorem inner_eq (rule : Rule) (tree : Tree) : tree.inner rule = tree.children.filter (·.member == .phrase rule) := by
  apply filter_congr
  intro child _
  rw [Bool.eq_iff_iff,beq_iff_eq,beq_iff_eq,rule?_eq]

theorem Derives.mem_rows {rule : Rule} {level : Nat} {tree : Tree} (derives : Derives rule level tree)
    {list : List (List Member)} (listed : rule.rows = some list) : tree.children.map member ∈ list := by
  cases derives with
  | node member spells =>
    obtain ⟨own,own_rows,inside⟩ := Form.rowsOf_subset member listed
    exact inside (spells.mem_rows own_rows)

end Tree

end SolReader
