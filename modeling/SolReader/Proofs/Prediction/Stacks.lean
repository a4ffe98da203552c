import SolReader.Prediction.Stacks

namespace SolReader

open List

namespace Stacks

variable {others below calls : Stacks} {sites : List Label} {site : Label}

def Has : Stacks → List Label → Prop
  | .nil, _ => False
  | .bottom others, sites => sites = [] ∨ others.Has sites
  | .push site below others, sites => (∃ rest, sites = site :: rest ∧ below.Has rest) ∨ others.Has sites

@[simp] theorem not_has_nil (sites : List Label) : ¬Has .nil sites := id

@[simp] theorem has_bottom : (Stacks.bottom others).Has sites ↔ sites = [] ∨ others.Has sites := Iff.rfl

@[simp] theorem has_push :
    (Stacks.push site below others).Has sites ↔ (∃ rest, sites = site :: rest ∧ below.Has rest) ∨ others.Has sites :=
  Iff.rfl

@[simp] theorem has_empty : empty.Has sites ↔ sites = [] := by
  simp [empty]

@[simp] theorem has_call : (call site below).Has sites ↔ ∃ rest, sites = site :: rest ∧ below.Has rest := by
  simp [call]

theorem has_under (site : Label) (has : calls.Has sites) : (calls.call site).Has (site :: sites) :=
  has_call.mpr ⟨sites,rfl,has⟩

-- The set with one stack.
def single : List Label → Stacks
  | [] => empty
  | site :: sites => call site (single sites)

@[simp] theorem has_single : (single stack).Has sites ↔ sites = stack := by
  induction stack generalizing sites with
  | nil => simp [single]
  | cons site stack ih => simp [single,ih]

theorem has_union (left right : Stacks) (sites : List Label) :
    (union false left right).Has sites ↔ left.Has sites ∨ right.Has sites := by
  fun_induction union false left right generalizing sites with
  | case1 right => simp
  | case2 left => simp
  | case3 left right isOpen => cases isOpen
  | case4 left right _ ih => grind [has_bottom]
  | case5 left right _ _ isOpen => cases isOpen
  | case6 left right _ _ _ ih => grind [has_bottom]
  | case7 left right _ _ isOpen => cases isOpen
  | case8 left right _ _ _ ih => grind [has_bottom]
  | case9 below others site below' others' inner outer =>
    have joined (rest : List Label) : (if below = below' then below else union false below below').Has rest ↔
        below.Has rest ∨ below'.Has rest := by
      split
      · rename_i same
        rw [same,or_self]
      · exact inner rest
    simp only [has_push,joined,outer]
    grind
  | case10 site below others site' below' others' different before ih => grind [has_push]
  | case11 site below others site' below' others' different before ih => grind [has_push]

@[simp] theorem union_empty (isOpen : Bool) : union isOpen empty empty = empty := by
  cases isOpen <;> simp [empty,union]

-- Some member stands for the stack.
def Covers (calls : Stacks) (sites : List Label) : Prop :=
  ∃ top, calls.Has top ∧ top <+: sites

theorem covers_empty (sites : List Label) : empty.Covers sites :=
  ⟨[],by simp, nil_prefix⟩

theorem covers_push :
    (push site below others).Covers sites ↔ (∃ rest, sites = site :: rest ∧ below.Covers rest) ∨ others.Covers sites := by
  constructor
  · rintro ⟨top,⟨rest,rfl,inside⟩ | later,begins⟩
    · obtain ⟨more,rfl⟩ := begins
      exact .inl ⟨rest ++ more,rfl,rest,inside,prefix_append ..⟩
    · exact .inr ⟨top,later,begins⟩
  · rintro (⟨rest,rfl,top,inside,begins⟩ | ⟨top,later,begins⟩)
    · exact ⟨site :: top,.inl ⟨top,rfl,inside⟩,cons_prefix_cons.mpr ⟨rfl,begins⟩⟩
    · exact ⟨top,.inr later,begins⟩

theorem covers_union {left right : Stacks} (covered : left.Covers sites ∨ right.Covers sites) :
    (union true left right).Covers sites := by
  have never (sites : List Label) : ¬Covers .nil sites := fun ⟨_,impossible,_⟩ => impossible
  fun_induction union true left right generalizing sites with
  | case1 right => exact covered.resolve_left (never sites)
  | case2 left => exact covered.resolve_right (never sites)
  | case3 left right => exact covers_empty sites
  | case4 left right isClosed => exact absurd rfl isClosed
  | case5 left right => exact covers_empty sites
  | case6 left right _ _ isClosed => exact absurd rfl isClosed
  | case7 left right => exact covers_empty sites
  | case8 left right _ _ isClosed => exact absurd rfl isClosed
  | case9 below others site below' others' inner outer =>
    have joined (rest : List Label) (either : below.Covers rest ∨ below'.Covers rest) :
        (if below = below' then below else union true below below').Covers rest := by
      split
      · rename_i same
        rw [same] at either ⊢
        exact or_self_iff.mp either
      · exact inner either
    rw [covers_push,covers_push] at covered
    rw [covers_push]
    grind
  | case10 site below others site' below' others' different before ih =>
    rw [covers_push,or_assoc] at covered
    rw [covers_push]
    exact covered.imp_right ih
  | case11 site below others site' below' others' different before ih =>
    rcases covered with left | right
    · exact covers_push.mpr (.inr (ih (.inl left)))
    · exact covers_push.mpr ((covers_push.mp right).imp_right fun later => ih (.inr later))

theorem allTops_has {test : Label → Bool} (all : calls.allTops test = true)
    (member : calls.Has sites) : ∃ site rest, sites = site :: rest ∧ test site = true := by
  fun_induction allTops test calls with
  | case1 => cases all
  | case2 => cases all
  | case3 site below =>
    simp only [has_push,not_has_nil,or_false] at member
    obtain ⟨rest,rfl,_⟩ := member
    exact ⟨site,rest,rfl,all⟩
  | case4 site below others _ ih =>
    rw [Bool.and_eq_true] at all
    rcases member with ⟨rest,rfl,_⟩ | later
    · exact ⟨site,rest,rfl,all.1⟩
    · exact ih all.2 later

end Stacks

end SolReader
