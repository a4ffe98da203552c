import SolReader.KindSet
import SolReader.Grammar.Rule

namespace SolReader

open List Bool

namespace Kind

theorem all_at (kind : Kind) : all[kind.ctorIdx]? = some kind := by
  cases kind <;> rfl

theorem mem_all (kind : Kind) : kind ∈ all :=
  mem_of_getElem? (all_at kind)

instance (priority := low) decidableForall (p : Kind → Prop) [DecidablePred p] : Decidable (∀ kind,p kind) :=
  decidable_of_iff (all.all (p ·) = true) <| all_eq_true.trans
    ⟨fun each kind => of_decide_eq_true (each kind (mem_all kind)),fun each kind _ => decide_eq_true (each kind)⟩

theorem ctorIdx_injective {left right : Kind} (same : left.ctorIdx = right.ctorIdx) : left = right := by
  have found := all_at left
  rw [same,all_at right] at found
  exact (Option.some.inj found).symm

end Kind

namespace Rule

theorem all_at (rule : Rule) : all[rule.ctorIdx]? = some rule := by
  cases rule <;> rfl

theorem mem_all (rule : Rule) : rule ∈ all :=
  mem_of_getElem? (all_at rule)

instance (priority := low) decidableForall (p : Rule → Prop) [DecidablePred p] : Decidable (∀ rule,p rule) :=
  decidable_of_iff (all.all (p ·) = true) <| all_eq_true.trans
    ⟨fun each rule => of_decide_eq_true (each rule (mem_all rule)),fun each rule _ => decide_eq_true (each rule)⟩

end Rule

namespace KindSet

@[simp] theorem contains_empty (kind : Kind) : (∅ : KindSet).contains kind = false :=
  Nat.zero_testBit _

@[simp] theorem contains_union (left right : KindSet) (kind : Kind) :
    (left ∪ right).contains kind = (left.contains kind || right.contains kind) :=
  Nat.testBit_or ..

@[simp] theorem contains_inter (left right : KindSet) (kind : Kind) :
    (left.inter right).contains kind = (left.contains kind && right.contains kind) :=
  Nat.testBit_and ..

@[simp] theorem contains_insert (set : KindSet) (added kind : Kind) :
    (set.insert added).contains kind = (set.contains kind || decide (kind = added)) := by
  have bit : (1 <<< added.ctorIdx).testBit kind.ctorIdx = decide (kind = added) := by
    rw [Nat.one_shiftLeft,Nat.testBit_two_pow]
    by_cases same : kind = added
    · simp [same]
    · have differ : added.ctorIdx ≠ kind.ctorIdx := fun equal => same (Kind.ctorIdx_injective equal).symm
      simp [same,differ]
  simp only [contains,insert,Nat.testBit_or,bit]

theorem apart_of_isEmpty {left : KindSet} (absent : (left.inter right).isEmpty = true)
    (inLeft : left.contains kind = true) : right.contains kind = false := by
  have neither : (left.inter right).contains kind = false := by
    rw [contains,beq_iff_eq.mp absent,Nat.zero_testBit]
  rwa [contains_inter,inLeft,Bool.true_and] at neither

theorem contains_foldl_insert (kinds : List Kind) (set : KindSet) (kind : Kind) :
    (kinds.foldl insert set).contains kind = (set.contains kind || decide (kind ∈ kinds)) := by
  induction kinds generalizing set with
  | nil => simp
  | cons first rest ih =>
    rw [List.foldl_cons,ih,contains_insert,Bool.or_assoc]
    by_cases same : kind = first <;> simp [same]

@[simp] theorem contains_ofList (kinds : List Kind) (kind : Kind) :
    (ofList kinds).contains kind = decide (kind ∈ kinds) := by
  have start : KindSet.empty.contains kind = false := Nat.zero_testBit _
  rw [ofList,contains_foldl_insert,start,Bool.false_or]

end KindSet

end SolReader
