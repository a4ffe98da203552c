import SolReader.Token.Scan
import SolReader.Proofs.KindSet

namespace SolReader

namespace Pattern

@[simp] theorem accepts_never (cs : List Char) : accepts .never cs = false := by
  induction cs with
  | nil => rfl
  | cons c cs ih => exact ih

theorem accepts_cons (pattern : Pattern) (c : Char) (cs : List Char) :
    pattern.accepts (c :: cs) = (pattern.derive c).accepts cs := rfl

theorem eq_never {pattern : Pattern} (never : pattern.isNever = true) : pattern = .never := by
  cases pattern with
  | never => rfl
  | _ => cases never

theorem word_ne_never (cs : List Char) : cs.foldr (fun c rest => (one c).andThen rest) .empty ≠ .never := by
  induction cs with
  | nil => exact fun same => by cases same
  | cons c cs ih =>
    rw [List.foldr_cons]
    cases rest : cs.foldr (fun c rest => (one c).andThen rest) .empty with
    | never => exact absurd rest ih
    | _ => exact fun same => by cases same

theorem one_contains : (CharClass.single c).contains d = true ↔ d = c := by
  simp only [CharClass.single,CharClass.contains,List.any_cons,List.any_nil,Bool.or_false,bne_iff_ne,ne_eq,
    Bool.not_eq_false,Bool.and_eq_true,decide_eq_true_eq]
  exact ⟨fun ⟨low,high⟩ => Char.le_antisymm high low,fun same => same ▸ ⟨Char.le_refl d,Char.le_refl d⟩⟩

theorem derive_one_andThen (c d : Char) (possible : rest ≠ .never) :
    ((one c).andThen rest).derive d = if d = c then rest else .never := by
  have single : (one c).derive d = if d = c then .empty else .never := by
    rw [one,derive]
    split
    · rename_i inside
      rw [if_pos (one_contains.mp inside)]
    · rename_i outside
      rw [if_neg fun same => outside (one_contains.mpr same)]
  cases rest with
  | never => exact absurd rfl possible
  | empty => exact single
  | _ =>
    change ((one c).derive d).andThen _ = _
    rw [single]
    split <;> rfl

theorem accepts_word : (word text).accepts cs = true ↔ cs = text.toList := by
  rw [word]
  generalize text.toList = letters
  induction letters generalizing cs with
  | nil =>
    cases cs with
    | nil => simp [accepts,nullable]
    | cons c cs =>
      rw [List.foldr_nil,accepts,derive,accepts_never]
      simp
  | cons letter letters ih =>
    rw [List.foldr_cons]
    have possible := word_ne_never letters
    cases cs with
    | nil =>
      rw [accepts]
      cases rest : letters.foldr (fun c rest => (one c).andThen rest) .empty with
      | never => exact absurd rest possible
      | _ => simp [one,andThen,nullable]
    | cons c cs =>
      rw [accepts,derive_one_andThen letter c possible]
      split
      · rename_i same
        rw [ih,same,List.cons.injEq]
        simp
      · rename_i different
        simp [different]

-- The pattern that is left once a text has been read.
def after (pattern : Pattern) (cs : List Char) : Pattern :=
  cs.foldl (fun pattern c => pattern.derive c) pattern

@[simp] theorem orElse_never (pattern : Pattern) : pattern.orElse .never = pattern := by
  cases pattern <;> rfl

theorem nullable_orElse (left right : Pattern) : (left.orElse right).nullable = (left.nullable || right.nullable) := by
  cases left <;> cases right <;> simp [orElse,nullable]

theorem derive_orElse (left right : Pattern) (c : Char) :
    (left.orElse right).derive c = (left.derive c).orElse (right.derive c) := by
  cases right with
  | never => rw [orElse_never,show derive c .never = .never from rfl,orElse_never]
  | _ => cases left <;> rfl

theorem accepts_orElse (left right : Pattern) (cs : List Char) :
    (left.orElse right).accepts cs = (left.accepts cs || right.accepts cs) := by
  induction cs generalizing left right with
  | nil => exact nullable_orElse left right
  | cons c cs ih => rw [accepts_cons,derive_orElse,ih,accepts_cons,accepts_cons]

theorem accepts_words : (words texts).accepts cs = true ↔ ∃ text ∈ texts, cs = text.toList := by
  induction texts with
  | nil => simp [words,anyOf]
  | cons text texts ih =>
    have split : words (text :: texts) = (word text).orElse (words texts) := rfl
    rw [split,accepts_orElse,Bool.or_eq_true,ih,accepts_word]
    simp

theorem accepts_eq_after (pattern : Pattern) (cs : List Char) : pattern.accepts cs = (pattern.after cs).nullable := by
  induction cs generalizing pattern with
  | nil => rfl
  | cons c cs ih => exact ih (pattern.derive c)

end Pattern

-- The kind that is listed first among those whose pattern a text belongs to.
def Lexicon.first? (cs : List Char) : Option Kind :=
  (Lexicon.rules.find? fun rule => rule.2.accepts cs).map Prod.fst

theorem Lexicon.accepts_of_first (first : Lexicon.first? cs = some kind) : (Lexicon.pattern kind).accepts cs = true := by
  obtain ⟨rule,found,rfl⟩ := Option.map_eq_some_iff.mp first
  have accepted := List.find?_some found
  obtain ⟨kind,_,rfl⟩ := List.mem_map.mp (List.mem_of_find?_eq_some found)
  exact accepted

namespace Munch

-- The best match after some reading is of the kind listed first.
def Holds (whole : List Char) (best : Option (Kind × Nat)) : Prop :=
  ∀ kind length, best = some (kind,length) →
    1 ≤ length ∧ length ≤ whole.length ∧ Lexicon.first? (whole.take length) = some kind

-- The rules that are still possible after some reading, in their order.
def possible (done : List Char) : List (Kind × Pattern) :=
  (Lexicon.rules.map fun rule => (rule.1,rule.2.after done)).filter fun rule => !rule.2.isNever

theorem possible_step {live : List (Kind × Pattern)}
    (same : (live.filter fun rule => !rule.2.isNever) = possible done) (c : Char) :
    (live.map fun rule => (rule.1,rule.2.derive c)).filter (fun rule => !rule.2.isNever) = possible (done ++ [c]) := by
  -- What has become impossible stays so.
  have kept : ∀ rules : List (Kind × Pattern),
      (rules.map fun rule => (rule.1,rule.2.derive c)).filter (fun rule => !rule.2.isNever) =
        ((rules.filter fun rule => !rule.2.isNever).map fun rule => (rule.1,rule.2.derive c)).filter
          fun rule => !rule.2.isNever := by
    intro rules
    rw [List.filter_map,List.filter_map,List.filter_filter]
    congr 1
    apply List.filter_congr
    intro ⟨kind,pattern⟩ _
    cases pattern <;> simp [Pattern.isNever,Pattern.derive]
  rw [kept,same,possible,← kept,possible,List.map_map]
  simp [Function.comp_def,Pattern.after]

theorem find_possible (done : List Char) :
    ((possible done).find? (·.2.nullable)).map Prod.fst = Lexicon.first? done := by
  have live : (fun rule : Kind × Pattern => decide ((!rule.2.isNever) = true ∧ rule.2.nullable = true)) =
      fun rule => rule.2.nullable := by
    funext ⟨kind,pattern⟩
    cases pattern <;> simp [Pattern.isNever,Pattern.nullable]
  rw [possible,List.find?_filter,live,List.find?_map,Lexicon.first?,Option.map_map]
  simp only [Function.comp_def,← Pattern.accepts_eq_after]

theorem from_holds {live : List (Kind × Pattern)} {done left : List Char} {best : Option (Kind × Nat)}
    (same : (live.filter fun rule => !rule.2.isNever) = possible done) (holds : Holds (done ++ left) best) :
    Holds (done ++ left) (Munch.from live done.length best left).best := by
  induction left generalizing live done best with
  | nil => exact holds
  | cons c left ih =>
    rw [Munch.from]
    have next := possible_step same c
    have whole : done ++ c :: left = (done ++ [c]) ++ left := by simp
    have read : done.length + 1 = (done ++ [c]).length := by simp
    split
    · exact holds
    · rename_i next_ne
      rw [next]
      have again : ((possible (done ++ [c])).filter fun rule => !rule.2.isNever) = possible (done ++ [c]) := by
        simp [possible]
      rw [whole,read]
      refine ih again ?_
      rw [← whole,← read]
      split
      · rename_i kind pattern found
        intro kind' length chosen
        cases chosen
        refine ⟨by omega,by simp,?_⟩
        rw [whole,read,List.take_left,← find_possible,found]
        rfl
      · exact holds

end Munch

-- The text belongs to the pattern of the token's kind.
def Token.Spelled (token : Token) : Prop :=
  (Lexicon.pattern token.kind).accepts token.text.toList = true

theorem Token.Spelled.ne_eof {token : Token} (spelled : token.Spelled) : token.kind ≠ .eof := by
  intro ended
  rw [Spelled,ended,show Lexicon.pattern .eof = .never from rfl,Pattern.accepts_never] at spelled
  cases spelled

theorem Token.Spelled.text_eq {token : Token} (spelled : token.Spelled) {text : String}
    (only : token.kind.spelling? = some text) : token.text = text := by
  have pattern : Lexicon.pattern token.kind = Pattern.word text := by
    unfold Lexicon.pattern
    rw [only]
  rw [Spelled,pattern] at spelled
  exact String.toList_injective (Pattern.accepts_word.mp spelled)

namespace Token

-- The tokens of a text: only the last of them is the end of the text.
def Closed : List Token → Prop
  | [] => False
  | [last] => last.kind = .eof
  | token :: next :: rest => token.kind ≠ .eof ∧ Closed (next :: rest)

theorem closed_cons {token : Token} (passed : token.kind ≠ .eof) (closed : Closed rest) : Closed (token :: rest) := by
  cases rest with
  | nil => exact closed.elim
  | cons next rest => exact ⟨passed,closed⟩

-- A token is of the first kind that its text fits; only the end of the text has none.
def Genuine (token : Token) : Prop :=
  Lexicon.first? token.text.toList = some token.kind ∨ (token.kind = .eof ∧ token.text = "<EOF>")

theorem Genuine.first {token : Token} (genuine : token.Genuine) (passed : token.kind ≠ .eof) :
    Lexicon.first? token.text.toList = some token.kind :=
  genuine.resolve_right fun ended => passed ended.1

theorem Genuine.spelled {token : Token} (genuine : token.Genuine) (passed : token.kind ≠ .eof) : token.Spelled :=
  Lexicon.accepts_of_first (genuine.first passed)

end Token

namespace Munch

-- Nothing beyond the best match fits a rule, as far as has been read.
def Spent (whole : List Char) (count : Nat) (best : Option (Kind × Nat)) : Prop :=
  ∀ length, best.elim 0 Prod.snd < length → length ≤ count → Lexicon.first? (whole.take length) = none

-- Once no rule is possible, nothing that goes on from there fits one.
theorem first_impossible (absent : possible done = []) (more : List Char) : Lexicon.first? (done ++ more) = none := by
  rw [Option.eq_none_iff_forall_ne_some]
  intro kind first
  have accepted := Lexicon.accepts_of_first first
  have never : ((Lexicon.pattern kind).after done).isNever = true := by
    have member : (kind,(Lexicon.pattern kind).after done) ∈ Lexicon.rules.map fun rule => (rule.1,rule.2.after done) :=
      List.mem_map.mpr ⟨_,List.mem_map.mpr ⟨kind,Kind.mem_all kind,rfl⟩,rfl⟩
    have gone := List.filter_eq_nil_iff.mp absent _ member
    simpa using gone
  rw [Pattern.accepts_eq_after,Pattern.after,List.foldl_append] at accepted
  change (Pattern.after ((Lexicon.pattern kind).after done) more).nullable = true at accepted
  rw [Pattern.eq_never never,← Pattern.accepts_eq_after,Pattern.accepts_never] at accepted
  cases accepted

theorem from_spent {live : List (Kind × Pattern)} {done left : List Char} {best : Option (Kind × Nat)}
    (same : (live.filter fun rule => !rule.2.isNever) = possible done)
    (spent : Spent (done ++ left) done.length best) :
    Spent (done ++ left) (done ++ left).length (Munch.from live done.length best left).best := by
  induction left generalizing live done best with
  | nil => simpa [Munch.from] using spent
  | cons c left ih =>
    rw [Munch.from]
    have next := possible_step same c
    have whole : done ++ c :: left = (done ++ [c]) ++ left := by simp
    have read : done.length + 1 = (done ++ [c]).length := by simp
    split
    · rename_i absent
      intro length beyond within
      by_cases early : length ≤ done.length
      · exact spent length beyond early
      · rw [whole,List.take_append,List.take_of_length_le (by omega)]
        exact first_impossible (next.symm.trans absent) _
    · rw [next]
      have again : ((possible (done ++ [c])).filter fun rule => !rule.2.isNever) = possible (done ++ [c]) := by
        simp [possible]
      rw [whole,read]
      refine ih again ?_
      rw [← whole,← read]
      split
      · exact fun length beyond within => absurd within (Nat.not_le_of_lt beyond)
      · rename_i unfound
        intro length beyond within
        by_cases early : length ≤ done.length
        · exact spent length beyond early
        · have last : length = (done ++ [c]).length := by omega
          rw [whole,last,List.take_left,← find_possible,unfound]
          rfl

section Whole

variable (letters : List Char)

theorem whole_possible : (Lexicon.rules.filter fun rule => !rule.2.isNever) = possible [] := by
  simp [possible,Pattern.after]

theorem whole_holds : Holds letters (Munch.from Lexicon.rules 0 none letters).best :=
  @from_holds _ [] letters none whole_possible fun _ _ impossible => by cases impossible

theorem whole_spent : Spent letters letters.length (Munch.from Lexicon.rules 0 none letters).best :=
  @from_spent _ [] letters none whole_possible fun _ beyond within => absurd within (Nat.not_le_of_lt beyond)

end Whole

-- The match is the longest, and of the first kind among those as long.
structure Longest (letters : List Char) (kind : Kind) (length : Nat) : Prop where
  filled : 1 ≤ length
  within : length ≤ letters.length
  first : Lexicon.first? (letters.take length) = some kind
  beyond : ∀ more, length < more → more ≤ letters.length → Lexicon.first? (letters.take more) = none

theorem best_eq_none {letters : List Char} :
    (Munch.from Lexicon.rules 0 none letters).best = none ↔
      ∀ length, 1 ≤ length → length ≤ letters.length → Lexicon.first? (letters.take length) = none := by
  constructor
  · intro missing length filled within
    refine whole_spent letters length ?_ within
    rw [missing]
    exact filled
  · intro unmatched
    rw [Option.eq_none_iff_forall_ne_some]
    rintro ⟨kind,length⟩ found
    obtain ⟨filled,within,first⟩ := whole_holds letters kind length found
    rw [unmatched length filled within] at first
    cases first

theorem best_eq_some {letters : List Char} :
    (Munch.from Lexicon.rules 0 none letters).best = some (kind,length) ↔ Longest letters kind length := by
  constructor
  · intro found
    obtain ⟨filled,within,first⟩ := whole_holds letters kind length found
    refine ⟨filled,within,first,fun more longer inside => whole_spent letters more ?_ inside⟩
    rw [found]
    exact longer
  · intro ⟨filled,within,first,beyond⟩
    cases found : (Munch.from Lexicon.rules 0 none letters).best with
    | none =>
      rw [best_eq_none.mp found length filled within] at first
      cases first
    | some best =>
      obtain ⟨other,reached⟩ := best
      obtain ⟨_,inside,ahead⟩ := whole_holds letters other reached found
      have spent := whole_spent letters length
      rw [found] at spent
      -- Neither of the two matches goes beyond the other.
      have atMost : reached ≤ length := by
        refine Nat.le_of_not_lt fun longer => ?_
        rw [beyond reached longer inside] at ahead
        cases ahead
      have atLeast : length ≤ reached := by
        refine Nat.le_of_not_lt fun longer => ?_
        rw [spent longer within] at first
        cases first
      obtain rfl : reached = length := Nat.le_antisymm atMost atLeast
      rw [first] at ahead
      cases ahead
      rfl

theorem best_first (found : (Munch.from Lexicon.rules 0 none (c :: rest)).best = some (kind,length)) :
    Lexicon.first? (c :: rest.take (length - 1)) = some kind := by
  obtain ⟨positive,_,first⟩ := whole_holds _ kind length found
  cases length with
  | zero => cases positive
  | succ more => exact first

end Munch

namespace Piece

def visible (pieces : List Piece) : List Token :=
  (pieces.filterMap token?).filter (!·.kind.isHidden)

theorem scan_facts (place : Place) (offset : Nat) (cs : List Char) :
    (∀ token ∈ (scan place offset cs).filterMap token?, token.Genuine) ∧
      Token.Closed (visible (scan place offset cs)) := by
  fun_induction scan place offset cs with
  | case1 place offset =>
    refine ⟨fun token member => ?_,rfl⟩
    cases List.mem_singleton.mp member
    exact .inr ⟨rfl,rfl⟩
  | case2 place offset c rest munch more taken next absent ih => exact ih
  | case3 place offset c rest munch more taken next length white ih => exact ih
  | case4 place offset c rest munch more taken next kind length notWhite found ih =>
    obtain ⟨genuine,closed⟩ := ih
    have first : Lexicon.first? (String.ofList taken).toList = some kind := by
      have best := Munch.best_first found
      rw [String.toList_ofList]
      simpa [taken,more,found] using best
    have spelled : Token.Spelled ⟨kind,String.ofList taken,place,offset,taken.length⟩ :=
      Lexicon.accepts_of_first first
    refine ⟨fun token member => ?_,?_⟩
    · rcases List.mem_cons.mp member with rfl | later
      · exact .inl first
      · exact genuine token later
    · rw [visible,List.filterMap_cons,token?,List.filter_cons]
      split
      · exact Token.closed_cons spelled.ne_eof closed
      · exact closed

end Piece

theorem genuine_of_mem (member : token ∈ tokens text) : token.Genuine :=
  (Piece.scan_facts .start 0 text.toList).1 token member

theorem closed_visible (text : String) : Token.Closed ((tokens text).filter (!·.kind.isHidden)) :=
  (Piece.scan_facts .start 0 text.toList).2

end SolReader
