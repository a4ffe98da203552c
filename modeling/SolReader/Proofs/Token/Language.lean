import Mathlib.Computability.Language
import SolReader.Proofs.Token.Spelling

namespace SolReader

open List

-- The texts of one character of the class.
def CharClass.language (cls : CharClass) : Language Char :=
  {text | ∃ c, cls.contains c = true ∧ text = [c]}

theorem CharClass.mem_language {cls : CharClass} : text ∈ cls.language ↔ ∃ c, cls.contains c = true ∧ text = [c] := Iff.rfl

namespace Pattern

variable {one : Language Char} {c : Char} {cs : List Char}

@[simp] def language : Pattern → Language Char
  | .never => 0
  | .empty => 1
  | .char cls => cls.language
  | .seq p q => p.language * q.language
  | .alt p q => p.language + q.language
  | .star p => KStar.kstar p.language

theorem language_andThen (p q : Pattern) : (p.andThen q).language = p.language * q.language := by
  cases p <;> cases q <;> simp [andThen,language]

theorem language_orElse (p q : Pattern) : (p.orElse q).language = p.language + q.language := by
  cases p <;> cases q <;> simp [orElse,language]

theorem nullable_iff (pattern : Pattern) : pattern.nullable = true ↔ [] ∈ pattern.language := by
  induction pattern with
  | never => simp [nullable,language]
  | empty => simp [nullable,language]
  | char cls => simp [nullable,language,CharClass.mem_language]
  | seq p q first second => simp [nullable,language,Language.mem_mul,first,second]
  | alt p q first second => simp [nullable,language,Language.mem_add,first,second]
  | star p _ => simp [nullable,language,Language.nil_mem_kstar]

-- The first character of a joined text belongs to the first part, unless that part is empty.
theorem cons_mem_mul : c :: cs ∈ one * two ↔
      (∃ first second, c :: first ∈ one ∧ second ∈ two ∧ first ++ second = cs) ∨ ([] ∈ one ∧ c :: cs ∈ two) := by
  rw [Language.mem_mul]
  constructor
  · rintro ⟨first,inOne,second,inTwo,joined⟩
    cases first with
    | nil => exact .inr ⟨inOne,joined ▸ inTwo⟩
    | cons d first =>
      obtain ⟨rfl,rest⟩ := List.cons.inj joined
      exact .inl ⟨first,second,inOne,inTwo,rest⟩
  · rintro (⟨first,second,inOne,inTwo,rfl⟩ | ⟨inOne,inTwo⟩)
    · exact ⟨c :: first,inOne,second,inTwo,rfl⟩
    · exact ⟨[],inOne,c :: cs,inTwo,rfl⟩

theorem cons_mem_kstar : c :: cs ∈ KStar.kstar one ↔
      ∃ first second, c :: first ∈ one ∧ second ∈ KStar.kstar one ∧ first ++ second = cs := by
  constructor
  · intro member
    obtain ⟨parts,joined,each⟩ := Language.mem_kstar_iff_exists_nonempty.mp member
    cases parts with
    | nil => cases joined
    | cons part parts =>
      obtain ⟨inside,filled⟩ := each part mem_cons_self
      cases part with
      | nil => exact absurd rfl filled
      | cons d part =>
        obtain ⟨rfl,rest⟩ := List.cons.inj joined
        exact ⟨part,parts.flatten,inside,
          Language.join_mem_kstar fun other later => (each other (mem_cons_of_mem _ later)).1,rest.symm⟩
  · rintro ⟨first,second,inside,again,rfl⟩
    rw [← Language.one_add_self_mul_kstar_eq_kstar]
    exact .inr (Language.append_mem_mul inside again)

theorem mem_derive (pattern : Pattern) (c : Char) (cs : List Char) :
    cs ∈ (pattern.derive c).language ↔ c :: cs ∈ pattern.language := by
  induction pattern generalizing cs with
  | never => simp [derive,language]
  | empty => simp [derive,language]
  | char cls =>
    rw [derive]
    split
    · rename_i inside
      change cs = [] ↔ ∃ d, cls.contains d = true ∧ c :: cs = [d]
      constructor
      · intro ended
        exact ⟨c,inside,by rw [ended]⟩
      · rintro ⟨d,_,same⟩
        exact (List.cons.inj same).2
    · rename_i outside
      change False ↔ ∃ d, cls.contains d = true ∧ c :: cs = [d]
      refine ⟨False.elim,?_⟩
      rintro ⟨d,inside,same⟩
      rw [← (List.cons.inj same).1] at inside
      exact outside inside
  | seq p q first second =>
    have before : cs ∈ ((p.derive c).andThen q).language ↔
        ∃ one two, c :: one ∈ p.language ∧ two ∈ q.language ∧ one ++ two = cs := by
      rw [language_andThen,Language.mem_mul]
      constructor
      · rintro ⟨one,inOne,two,inTwo,joined⟩
        exact ⟨one,two,(first one).mp inOne,inTwo,joined⟩
      · rintro ⟨one,two,inOne,inTwo,joined⟩
        exact ⟨one,(first one).mpr inOne,two,inTwo,joined⟩
    rw [derive,language,cons_mem_mul,← nullable_iff]
    split
    · rename_i empty
      rw [language_orElse,Language.mem_add,before,second]
      simp [empty]
    · rename_i filled
      rw [before]
      simp [filled]
  | alt p q first second => rw [derive,language_orElse,Language.mem_add,first,second,language,Language.mem_add]
  | star p body =>
    have repeated : (star p).language = KStar.kstar p.language := rfl
    rw [derive,language_andThen,repeated,cons_mem_kstar,Language.mem_mul]
    constructor
    · rintro ⟨one,inOne,two,inTwo,joined⟩
      exact ⟨one,two,(body one).mp inOne,inTwo,joined⟩
    · rintro ⟨one,two,inOne,inTwo,joined⟩
      exact ⟨one,(body one).mpr inOne,two,inTwo,joined⟩

theorem accepts_iff (pattern : Pattern) (cs : List Char) : pattern.accepts cs = true ↔ cs ∈ pattern.language := by
  induction cs generalizing pattern with
  | nil => exact nullable_iff pattern
  | cons c cs ih => rw [accepts_cons,ih,mem_derive]

end Pattern

namespace Lexicon

open Pattern

variable {c : Char} {cs : List Char}

-- The text goes up to the first end of a comment.
def Closes (cs : List Char) : Prop :=
  ∃ inside, cs = inside ++ ['*','/'] ∧ ¬ ['*','/'] <:+: inside ++ ['*']

theorem closes_cons (onward : ¬ ['*','/'] <+: c :: cs) : Closes (c :: cs) ↔ Closes cs := by
  constructor
  · rintro ⟨inside,whole,unclosed⟩
    cases inside with
    | nil => exact absurd (whole ▸ prefix_rfl) onward
    | cons d inside =>
      obtain ⟨rfl,rest⟩ := List.cons.inj whole
      exact ⟨inside,rest,fun closed => unclosed (infix_cons closed)⟩
  · rintro ⟨inside,rfl,unclosed⟩
    refine ⟨c :: inside,rfl,fun closed => ?_⟩
    rcases infix_cons_iff.mp closed with first | later
    · exact onward (first.trans ⟨['/'],by simp⟩)
    · exact unclosed later

theorem closes_close : Closes ('*' :: '/' :: cs) ↔ cs = [] := by
  constructor
  · rintro ⟨inside,whole,unclosed⟩
    match inside with
    | [] => exact (List.cons.inj (List.cons.inj whole).2).2
    | [_] => exact absurd (List.cons.inj (List.cons.inj whole).2).1 (by decide)
    | one :: two :: inside =>
      obtain ⟨rfl,rest⟩ := List.cons.inj whole
      obtain ⟨rfl,_⟩ := List.cons.inj rest
      exact absurd (List.IsPrefix.isInfix ⟨inside ++ ['*'],rfl⟩) unclosed
  · rintro rfl
    exact ⟨[],rfl,by decide⟩

theorem contains_single {d : Char} : (CharClass.single d).contains c = decide (c = d) := by
  rw [Bool.eq_iff_iff,one_contains,decide_eq_true_iff]

theorem contains_except : (CharClass.except chars).contains c = decide (c ∉ chars) := by
  have each : (fun d => decide (d ≤ c) && decide (c ≤ d)) = fun d => decide (c = d) := by
    funext d
    have single := @contains_single c d
    simpa [CharClass.single,CharClass.contains] using single
  have inside : (chars.any fun d => decide (c = d)) = decide (c ∈ chars) := by
    rw [Bool.eq_iff_iff,any_eq_true]
    simp
  rw [CharClass.except,CharClass.contains,any_map,Function.comp_def,each,inside]
  simp

-- What is left of a comment after its opening, and after a star that its end may follow.
def commentOpen : Pattern :=
  (blockComment.derive '/').derive '*'

def commentStar : Pattern :=
  commentOpen.derive '*'

theorem commentOpen_derive (plain : c ≠ '*') : commentOpen.derive c = commentOpen := by
  have shape : commentOpen = .seq (.star (.alt (.char (.except ['*']))
      (.seq (.seq (one '*') (.star (one '*'))) (.char (.except ['*','/'])))))
      (.seq (.seq (one '*') (.star (one '*'))) (one '/')) := by decide
  rw [shape]
  simp [derive,one,contains_single,contains_except,plain,nullable,andThen,orElse]

theorem commentStar_derive (further : c ≠ '/') : commentStar.derive c = commentOpen.derive c := by
  by_cases star : c = '*'
  · subst star
    decide
  · have shape : commentStar = .alt
        (.seq (.seq (.seq (.star (one '*')) (.char (.except ['*','/']))) (.star (.alt (.char (.except ['*']))
          (.seq (.seq (one '*') (.star (one '*'))) (.char (.except ['*','/']))))))
          (.seq (.seq (one '*') (.star (one '*'))) (one '/')))
        (.seq (.star (one '*')) (one '/')) := by decide
    rw [commentOpen_derive star,shape]
    simp [derive,one,contains_single,contains_except,star,further,nullable,andThen,orElse]
    decide

theorem accepts_commentOpen (cs : List Char) : commentOpen.accepts cs = true ↔ Closes cs := by
  induction cs with
  | nil =>
    have unclosed : ¬ Closes [] := fun ⟨inside,whole,_⟩ => by simp at whole
    exact iff_of_false (by decide) unclosed
  | cons c cs ih =>
    by_cases star : c = '*'
    · subst star
      change commentStar.accepts cs = true ↔ _
      cases cs with
      | nil =>
        have unclosed : ¬ Closes ['*'] := by
          rw [closes_cons (by decide),← ih]
          decide
        exact iff_of_false (by decide) unclosed
      | cons d cs =>
        rw [accepts_cons]
        by_cases slash : d = '/'
        · subst slash
          rw [show commentStar.derive '/' = .empty by decide,accepts_iff,closes_close]
          exact Language.mem_one cs
        · have onward : ¬ ['*','/'] <+: '*' :: d :: cs :=
            fun closed => slash (cons_prefix_cons.mp (cons_prefix_cons.mp closed).2).1.symm
          rw [commentStar_derive slash,← accepts_cons,ih,closes_cons onward]
    · rw [accepts_cons,commentOpen_derive star,ih,closes_cons]
      exact fun closed => star (cons_prefix_cons.mp closed).1.symm

-- A comment is an opening and what goes up to the first end after it.
theorem accepts_blockComment (cs : List Char) :
    blockComment.accepts cs = true ↔ ∃ rest, cs = '/' :: '*' :: rest ∧ Closes rest := by
  have opening : blockComment = (word "/*").andThen commentOpen := by decide
  rw [opening,accepts_iff,language_andThen,Language.mem_mul]
  constructor
  · rintro ⟨first,isFirst,rest,isRest,rfl⟩
    rw [← accepts_iff,accepts_word] at isFirst
    exact ⟨rest,congrArg (· ++ rest) isFirst,(accepts_commentOpen rest).mp ((accepts_iff ..).mpr isRest)⟩
  · rintro ⟨rest,rfl,closes⟩
    have isFirst := (accepts_iff ..).mp ((accepts_word).mpr (rfl : "/*".toList = "/*".toList))
    exact ⟨_,isFirst,rest,(accepts_iff ..).mp ((accepts_commentOpen rest).mpr closes),rfl⟩

theorem exists_closes (inside more : List Char) :
    ∃ count, Closes ((inside ++ '*' :: '/' :: more).take count) := by
  induction inside with
  | nil => exact ⟨2,closes_close.mpr rfl⟩
  | cons c inside ih =>
    obtain ⟨count,closes⟩ := ih
    by_cases ended : ['*','/'] <+: c :: (inside ++ '*' :: '/' :: more)
    · obtain ⟨rest,whole⟩ := ended
      refine ⟨2,?_⟩
      rw [cons_append,← whole]
      exact closes_close.mpr rfl
    · refine ⟨count + 1,?_⟩
      rw [cons_append,take_succ_cons,closes_cons]
      · exact closes
      · exact fun closed => ended (closed.trans (prefix_cons_inj _ |>.mpr ( take_prefix ..)))

end Lexicon

end SolReader
