import SolReader.Proofs.Token.Language

namespace SolReader

open List

-- What may stand between quotes: a backslash takes the next character with it, whatever that is.
inductive Quoted (quote : Char) : List Char → Prop where
  | nil : Quoted quote []
  | plain {c : Char} {rest : List Char} (bare : c ∉ ['\n','\r',quote,'\\']) (more : Quoted quote rest) :
      Quoted quote (c :: rest)
  | escaped (c : Char) {rest : List Char} (more : Quoted quote rest) : Quoted quote ('\\' :: c :: rest)

structure Fragment where
  isUnicode : Bool
  quote : Char
  body : List Char
  isQuote : quote = '"' ∨ quote = '\''
  quoted : Quoted quote body

namespace Fragment

-- The word in front of the quotes.
def mark (fragment : Fragment) : List Char :=
  if fragment.isUnicode then "unicode".toList else []

def letters (fragment : Fragment) : List Char :=
  fragment.mark ++ fragment.quote :: (fragment.body ++ [fragment.quote])

theorem length_letters (fragment : Fragment) :
    fragment.letters.length = fragment.body.length + 2 + 7 * fragment.isUnicode.toNat := by
  cases unicode : fragment.isUnicode <;> simp [letters,mark,unicode]

theorem head_letters (fragment : Fragment) :
    fragment.letters.head? = some (if fragment.isUnicode then 'u' else fragment.quote) := by
  cases unicode : fragment.isUnicode <;> simp [letters,mark,unicode]

end Fragment

theorem Quoted.head_ne (quoted : Quoted quote (c :: rest)) (apart : quote ≠ '\\') : c ≠ quote := by
  cases quoted with
  | plain bare _ =>
    rintro rfl
    simp at bare
  | escaped _ _ => exact apart.symm

namespace Lexicon

open Pattern

variable {quote : Char} {text : List Char}

theorem mem_quotedStep :
    text ∈ ((Pattern.char (.except ['\n','\r',quote,'\\'])).orElse ((one '\\').andThen (.char .any))).language ↔
      (∃ c, c ∉ ['\n','\r',quote,'\\'] ∧ text = [c]) ∨ ∃ c, text = ['\\',c] := by
  rw [language_orElse,Language.mem_add,language_andThen,Language.mem_mul]
  refine or_congr ?_ ⟨?_,?_⟩
  · simp only [language,CharClass.mem_language,contains_except,decide_eq_true_eq]
  · rintro ⟨_,⟨_,escape,rfl⟩,_,⟨c,_,rfl⟩,rfl⟩
    rw [contains_single,decide_eq_true_eq] at escape
    exact ⟨c,by rw [escape]; rfl⟩
  · rintro ⟨c,rfl⟩
    exact ⟨['\\'],⟨'\\',by rw [contains_single,decide_eq_true_eq],rfl⟩,[c],⟨c,rfl,rfl⟩,rfl⟩

theorem mem_quotedSteps : text ∈ KStar.kstar ((Pattern.char (.except ['\n','\r',quote,'\\'])).orElse
      ((one '\\').andThen (.char .any))).language ↔ Quoted quote text := by
  constructor
  · intro inside
    -- The rest after one step is shorter, by one character or by two.
    induction size : text.length using Nat.strong_induction_on generalizing text with
    | h size ih =>
      subst size
      cases text with
      | nil => exact .nil
      | cons first text =>
        obtain ⟨more,rest,step,others,rfl⟩ := cons_mem_kstar.mp inside
        rcases mem_quotedStep.mp step with ⟨c,bare,same⟩ | ⟨c,same⟩
        · cases same
          exact .plain bare (ih _ (by simp) others rfl)
        · cases same
          exact .escaped c (ih _ (show rest.length < rest.length + 2 by omega) others rfl)
  · intro quoted
    induction quoted with
    | nil => exact Language.nil_mem_kstar _
    | @plain c rest bare _ ih => exact cons_mem_kstar.mpr ⟨[],rest,mem_quotedStep.mpr (.inl ⟨c,bare,rfl⟩),ih,rfl⟩
    | @escaped c rest _ ih => exact cons_mem_kstar.mpr ⟨[c],rest,mem_quotedStep.mpr (.inr ⟨c,rfl⟩),ih,rfl⟩

theorem mem_quotedString :
    text ∈ (quotedString quote).language ↔ ∃ body, Quoted quote body ∧ text = quote :: (body ++ [quote]) := by
  have edge {text : List Char} : text ∈ (one quote).language ↔ text = [quote] := by
    simp only [one,language,CharClass.mem_language,contains_single,decide_eq_true_eq]
    simp
  have closing : (one quote).andThen .empty = one quote := rfl
  rw [quotedString,Pattern.sequence,foldr_cons,foldr_cons,foldr_cons,foldr_nil,closing,language_andThen,
    language_andThen,Language.mem_mul]
  simp only [Language.mem_mul,edge]
  constructor
  · rintro ⟨_,rfl,_,⟨body,inside,_,rfl,rfl⟩,rfl⟩
    exact ⟨body,mem_quotedSteps.mp inside,rfl⟩
  · rintro ⟨body,quoted,rfl⟩
    exact ⟨_,rfl,_,⟨body,mem_quotedSteps.mpr quoted,_,rfl,rfl⟩,rfl⟩

theorem mem_unicode :
    text ∈ (optional (word "unicode")).language ↔ ∃ marked : Bool, text = if marked then "unicode".toList else [] := by
  rw [Pattern.optional,language_orElse,Language.mem_add,← accepts_iff,accepts_word]
  constructor
  · rintro (marked | plain)
    · exact ⟨true,marked⟩
    · exact ⟨false,plain⟩
  · rintro ⟨marked,rfl⟩
    cases marked with
    | true => exact .inl rfl
    | false => exact .inr rfl

theorem accepts_stringFragment (text : List Char) :
    stringFragment.accepts text = true ↔ ∃ fragment : Fragment, text = fragment.letters := by
  rw [accepts_iff,stringFragment,language_andThen,Language.mem_mul]
  simp only [mem_unicode,language_orElse,Language.mem_add,mem_quotedString]
  constructor
  · rintro ⟨_,⟨marked,rfl⟩,_,⟨body,quoted,rfl⟩ | ⟨body,quoted,rfl⟩,rfl⟩
    · exact ⟨⟨marked,'"',body,.inl rfl,quoted⟩,rfl⟩
    · exact ⟨⟨marked,'\'',body,.inr rfl,quoted⟩,rfl⟩
  · rintro ⟨⟨marked,quote,body,isQuote,quoted⟩,rfl⟩
    refine ⟨_,⟨marked,rfl⟩,quote :: (body ++ [quote]),?_,rfl⟩
    rcases isQuote with rfl | rfl
    · exact .inl ⟨body,quoted,rfl⟩
    · exact .inr ⟨body,quoted,rfl⟩

end Lexicon

theorem Token.Genuine.fragment {token : Token} (genuine : token.Genuine) (kind : token.kind = .stringFragment) :
    ∃ fragment : Fragment, token.text.toList = fragment.letters := by
  have spelled := genuine.spelled (by rw [kind]; nofun)
  rw [Spelled,kind] at spelled
  exact (Lexicon.accepts_stringFragment _).mp spelled

end SolReader
