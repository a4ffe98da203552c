import SolReader.Proofs.Token.Fragments
import SolReader.Proofs.Token.Longest

namespace SolReader

open List

-- What is to be shown of the characters in a list is checked for these alone.
instance (priority := 2000) decidableListed (p : Char → Prop) [DecidablePred p] (chars : List Char) :
    Decidable (∀ c ∈ chars,p c) :=
  decidableBAll p chars

namespace Pattern

-- Whether the pattern has a place for the character.
def mentions (c : Char) : Pattern → Bool
  | .never | .empty => false
  | .char cls => cls.contains c
  | .seq p q | .alt p q => p.mentions c || q.mentions c
  | .star p => p.mentions c

theorem mentions_of_mem {pattern : Pattern} (member : text ∈ pattern.language)
    (inside : c ∈ text) : pattern.mentions c = true := by
  induction pattern generalizing text with
  | never => exact absurd member (Language.notMem_zero text)
  | empty =>
    rw [(Language.mem_one text).mp member] at inside
    cases inside
  | char cls =>
    obtain ⟨d,contains,rfl⟩ := member
    rwa [mem_singleton.mp inside]
  | seq p q first second =>
    obtain ⟨left,inLeft,right,inRight,rfl⟩ := Language.mem_mul.mp member
    rw [mentions,Bool.or_eq_true]
    rcases mem_append.mp inside with one | two
    · exact .inl (first inLeft one)
    · exact .inr (second inRight two)
  | alt p q first second =>
    rw [mentions,Bool.or_eq_true]
    rcases (Language.mem_add ..).mp member with one | two
    · exact .inl (first one inside)
    · exact .inr (second two inside)
  | star p ih =>
    obtain ⟨parts,rfl,each⟩ := Language.mem_kstar.mp member
    obtain ⟨part,listed,found⟩ := mem_flatten.mp inside
    exact ih (each part listed) found

end Pattern

namespace Lexicon

-- The kinds whose texts have room for blanks.
def roomy : List Kind := [.stringFragment,.blockComment,.lineComment,.whitespace]

set_option maxRecDepth 100000 in
theorem roomy_checked : (Kind.all.all fun kind => roomy.contains kind ||
    blanks.all fun c => !(pattern kind).mentions c) = true := by
  decide

theorem roomy_of_blank (accepted : (pattern kind).accepts text = true)
    (inside : c ∈ text) (blank : c ∈ blanks) : kind ∈ roomy := by
  have checked := all_eq_true.mp roomy_checked kind (Kind.mem_all kind)
  rw [Bool.or_eq_true,contains_iff_mem] at checked
  rcases checked with listed | narrow
  · exact listed
  · have absent := all_eq_true.mp narrow c blank
    rw [Pattern.mentions_of_mem ((Pattern.accepts_iff ..).mp accepted) inside] at absent
    cases absent

section Openings

variable {quote : Char}
variable {kind : Kind} {rest : List Char}

-- Where only one rule goes on after an opening, only that rule has texts that begin with it.
theorem only_opened (others : ∀ other ∈ Kind.all, other ≠ only →
    (pattern other).after opening = .never) (accepted : (pattern kind).accepts (opening ++ rest) = true) : kind = only := by
  by_contra apart
  rw [Pattern.accepts_eq_after,Pattern.after,foldl_append] at accepted
  change (((pattern kind).after opening).after rest).nullable = true at accepted
  rw [others kind (Kind.mem_all kind) apart,← Pattern.accepts_eq_after,Pattern.accepts_never] at accepted
  cases accepted

set_option maxRecDepth 100000 in
theorem only_whitespace (blank : c ∈ blanks) (accepted : (pattern kind).accepts (c :: rest) = true) :
    kind = .whitespace := by
  have others : ∀ c ∈ blanks, ∀ other ∈ Kind.all, other ≠ .whitespace → (pattern other).after [c] = .never := by decide
  exact only_opened (others c blank) accepted

set_option maxRecDepth 100000 in
theorem only_lineComment (accepted : (pattern kind).accepts ('/' :: '/' :: rest) = true) : kind = .lineComment := by
  have others : ∀ other ∈ Kind.all, other ≠ .lineComment → (pattern other).after ['/','/'] = .never := by decide
  exact only_opened others accepted

-- The quotes of strings.
def quotes : List Char := ['"','\'']

set_option maxRecDepth 100000 in
theorem only_string (isQuote : quote ∈ quotes) (accepted : (pattern kind).accepts (quote :: rest) = true) :
    kind = .stringFragment := by
  have others : ∀ quote ∈ quotes, ∀ other ∈ Kind.all, other ≠ .stringFragment →
      (pattern other).after [quote] = .never := by decide
  exact only_opened (others quote isQuote) accepted

set_option maxRecDepth 100000 in
theorem only_unicode (isQuote : quote ∈ quotes)
    (accepted : (pattern kind).accepts ("unicode".toList ++ quote :: rest) = true) : kind = .stringFragment := by
  have others : ∀ quote ∈ quotes, ∀ other ∈ Kind.all, other ≠ .stringFragment →
      (pattern other).after ("unicode".toList ++ [quote]) = .never := by decide
  have split : "unicode".toList ++ quote :: rest = ("unicode".toList ++ [quote]) ++ rest := by simp
  exact only_opened (others quote isQuote) (split ▸ accepted)

end Openings

section Texts

open Pattern

variable {text more : List Char}

theorem accepts_chars : (Pattern.star (.char cls)).accepts text = true ↔ ∀ c ∈ text, cls.contains c = true := by
  constructor
  · exact accepts_star_char
  · intro all
    induction text with
    | nil => rfl
    | cons first rest ih =>
      obtain ⟨inside,others⟩ := forall_mem_cons.mp all
      rw [accepts_cons,derive,derive,if_pos inside]
      exact ih others

-- A line comment goes on to the end of its line.
theorem accepts_lineComment : (pattern .lineComment).accepts text = true ↔
    ∃ rest, text = '/' :: '/' :: rest ∧ ∀ c ∈ rest, c ∉ ['\n','\r'] := by
  have whole : pattern .lineComment = (word "//").andThen (.star (.char (.except ['\n','\r']))) := rfl
  rw [whole,accepts_iff,language_andThen,Language.mem_mul]
  simp only [← accepts_iff,accepts_word,accepts_chars,contains_except,decide_eq_true_eq]
  constructor
  · rintro ⟨_,rfl,rest,plain,rfl⟩
    exact ⟨rest,rfl,plain⟩
  · rintro ⟨rest,rfl,plain⟩
    exact ⟨_,rfl,rest,plain,rfl⟩

theorem accepts_whitespace (filled : text ≠ []) :
    (pattern .whitespace).accepts text = true ↔ ∀ c ∈ text, c ∈ blanks := by
  constructor
  · exact whitespace_blank
  · intro all
    have known : ∀ c ∈ blanks, (CharClass.among [('\t','\n'),('\x0c','\r'),(' ',' ')]).contains c = true := by decide
    obtain ⟨first,rest,rfl⟩ := exists_cons_of_ne_nil filled
    obtain ⟨one,others⟩ := forall_mem_cons.mp all
    have split : pattern .whitespace = .seq (among [('\t','\n'),('\x0c','\r'),(' ',' ')])
        (.star (among [('\t','\n'),('\x0c','\r'),(' ',' ')])) := rfl
    rw [split,accepts_cons,derive,among,nullable,if_neg Bool.false_ne_true,derive,if_pos (known first one)]
    exact accepts_chars.mpr fun c member => known c (others c member)

-- Comments and strings end where they first can.
theorem Closes.alone (closes : Closes text) (longer : Closes (text ++ more)) : more = [] := by
  obtain ⟨inside,rfl,_⟩ := closes
  obtain ⟨others,whole,unclosed⟩ := longer
  by_contra filled
  obtain ⟨front,last,rfl⟩ := (eq_nil_or_concat more).resolve_left filled
  apply unclosed
  have shorter : inside ++ ['*','/'] ++ front = others ++ ['*'] := by
    have ends : (inside ++ ['*','/'] ++ front) ++ [last] = (others ++ ['*']) ++ ['/'] := by simpa using whole
    exact (append_inj' ends rfl).1
  rw [← shorter]
  exact ⟨inside,front,rfl⟩

end Texts

end Lexicon

theorem Quoted.alone (apart : quote ≠ '\\') (one : Quoted quote body)
    (two : Quoted quote other) (same : body ++ quote :: rest = other ++ quote :: others) : body = other := by
  induction one generalizing other with
  | nil =>
    cases other with
    | nil => rfl
    | cons c other => exact absurd (List.cons.inj same).1.symm (two.head_ne apart)
  | @plain c body bare more ih =>
    cases two with
    | nil => exact absurd (List.cons.inj same).1 ((Quoted.plain bare more).head_ne apart)
    | plain _ later =>
      obtain ⟨rfl,rest⟩ := List.cons.inj same
      rw [ih later rest]
    | escaped d later =>
      obtain ⟨rfl,_⟩ := List.cons.inj same
      simp at bare
  | @escaped c body more ih =>
    cases two with
    | nil => exact absurd (List.cons.inj same).1.symm apart
    | plain bare later =>
      obtain ⟨rfl,_⟩ := List.cons.inj same
      simp at bare
    | escaped d later =>
      simp only [cons_append,List.cons.injEq,true_and] at same
      obtain ⟨rfl,tail⟩ := same
      rw [ih later tail]

theorem Fragment.quote_facts (fragment : Fragment) :
    fragment.quote ∈ Lexicon.quotes ∧ fragment.quote ≠ '\\' ∧ fragment.quote ≠ 'u' := by
  rcases fragment.isQuote with same | same
  · rw [same]
    decide
  · rw [same]
    decide

theorem Fragment.alone {one two : Fragment} (same : one.letters ++ more = two.letters) : more = [] := by
  have marks : one.isUnicode = two.isUnicode := by
    have first : one.letters.head? = two.letters.head? := by
      rw [← same,List.head?_append,one.head_letters]
      rfl
    rw [one.head_letters,two.head_letters] at first
    cases unicode : one.isUnicode <;> cases other : two.isUnicode <;> simp [unicode,other] at first ⊢
    · exact one.quote_facts.2.2 first
    · exact two.quote_facts.2.2 first.symm
  have tails : one.quote :: (one.body ++ one.quote :: more) = two.quote :: (two.body ++ two.quote :: []) := by
    have split : one.mark ++ one.quote :: (one.body ++ one.quote :: more) = two.mark ++ two.quote :: (two.body ++ [two.quote]) := by
      simpa [letters] using same
    rw [mark,mark,marks] at split
    exact append_cancel_left split
  obtain ⟨quotes,rest⟩ := List.cons.inj tails
  rw [← quotes] at rest
  have bodies := one.quoted.alone one.quote_facts.2.1 (quotes ▸ two.quoted) rest
  rw [bodies] at rest
  exact (List.cons.inj (append_cancel_left rest)).2

namespace Munch.Longest

open Lexicon

variable {front middle back more : List Char} {kind other : Kind} {c : Char}

theorem accepted (longest : Longest (front ++ back) kind front.length) : (pattern kind).accepts front = true := by
  have first := accepts_of_first longest.first
  rwa [take_left] at first

theorem exists_cons (longest : Longest (front ++ back) kind front.length) : ∃ first rest, front = first :: rest :=
  exists_cons_of_length_pos longest.filled

-- No rule has a longer text here.
theorem nothing_longer (longest : Longest (front ++ back) kind front.length)
    (ahead : text <+: front ++ back) (longer : front.length < text.length) : (pattern other).accepts text = false := by
  have missed := longest.beyond text.length longer ahead.length_le
  rw [← prefix_iff_eq_take.mp ahead] at missed
  exact first_none.mp missed other

section Reaching

-- A text that reaches a blank behind the match and what follows it.
variable (longest : Longest (front ++ (middle ++ back)) kind front.length) (blank : c ∈ blanks)

include longest

theorem no_whitespace (last : middle = [] → kind ≠ .whitespace)
    (reaches : (pattern .whitespace).accepts (front ++ (middle ++ c :: more)) = true) : False := by
  have all := (accepts_whitespace (by simp)).mp reaches
  obtain ⟨first,rest,same⟩ := longest.exists_cons
  have begins : first ∈ blanks := all first (by simp [same])
  have isBlank : kind = .whitespace := only_whitespace begins (same ▸ longest.accepted)
  cases middle with
  | nil => exact last rfl isBlank
  | cons d middle =>
    have longer : (pattern .whitespace).accepts (front ++ [d]) = false :=
      longest.nothing_longer ⟨middle ++ back,by simp⟩ (by simp)
    rw [(accepts_whitespace (by simp)).mpr] at longer
    · cases longer
    · intro e member
      refine all e ?_
      simp only [mem_append,mem_cons,not_mem_nil,or_false] at member ⊢
      tauto

-- A string that was taken cannot be longer.
theorem no_longer_string (isString : kind = .stringFragment) {fragment : Fragment}
    (reaches : front ++ (middle ++ c :: more) = fragment.letters) : False := by
  subst isString
  obtain ⟨own,same⟩ := (accepts_stringFragment front).mp longest.accepted
  rw [same] at reaches
  have nothing := Fragment.alone reaches
  simp at nothing

-- The word before the quotes of a string is taken together with them.
theorem no_split_string (isQuote : quote ∈ quotes) (marked : front = "unicode".toList)
    (begins : middle.head? = some quote) (next : ∃ kind length, Longest (middle ++ back) kind length) : False := by
  obtain ⟨rest,rfl⟩ : ∃ rest, middle = quote :: rest := by
    cases middle with
    | nil => cases begins
    | cons d rest => exact ⟨rest,by rw [Option.some.inj begins]⟩
  obtain ⟨second,length,follows⟩ := next
  obtain ⟨more,split⟩ : ∃ more, (quote :: rest ++ back).take length = quote :: more := by
    obtain ⟨count,rfl⟩ := Nat.exists_eq_add_of_le' follows.filled
    exact ⟨_,take_succ_cons⟩
  have accepted := accepts_of_first follows.first
  rw [split] at accepted
  rw [only_string isQuote accepted] at accepted
  obtain ⟨fragment,whole⟩ := (accepts_stringFragment _).mp accepted
  have plain : fragment.isUnicode = false := by
    have heads := congrArg List.head? whole
    rw [fragment.head_letters] at heads
    cases unicode : fragment.isUnicode with
    | false => rfl
    | true =>
      simp only [unicode,List.head?_cons,if_true,Option.some.injEq] at heads
      exact absurd (heads ▸ isQuote) (by decide)
  let joined : Fragment := { fragment with isUnicode := true }
  have letters : joined.letters = "unicode".toList ++ (quote :: rest ++ back).take length := by
    rw [split,whole]
    simp [joined,Fragment.letters,Fragment.mark,plain]
  have longer : (pattern .stringFragment).accepts joined.letters = false := by
    refine longest.nothing_longer ?_ ?_
    · rw [letters,marked,prefix_append_right_inj]
      exact take_prefix ..
    · rw [letters,split,marked]
      simp
  have fits : (pattern .stringFragment).accepts joined.letters = true := (accepts_stringFragment _).mpr ⟨joined,rfl⟩
  rw [fits] at longer
  cases longer

include blank

theorem no_lineComment (last : middle = [] → kind ≠ .lineComment)
    (reaches : (pattern .lineComment).accepts (front ++ (middle ++ c :: more)) = true) : False := by
  obtain ⟨rest,whole,plain⟩ := accepts_lineComment.mp reaches
  have slash : c ≠ '/' := fun same => absurd (same ▸ blank) (by decide)
  obtain ⟨first,letters,same⟩ := longest.exists_cons
  subst same
  cases letters with
  | nil =>
    -- the second slash would have to stand in the text already
    cases middle with
    | nil =>
      simp only [cons_append,nil_append,List.cons.injEq] at whole
      exact slash whole.2.1
    | cons d middle =>
      simp only [cons_append,nil_append,List.cons.injEq] at whole
      obtain ⟨rfl,rfl,_⟩ := whole
      have longer : (pattern .lineComment).accepts ['/','/'] = false :=
        longest.nothing_longer ⟨middle ++ back,rfl⟩ (by simp)
      rw [accepts_lineComment.mpr ⟨[],rfl,by simp⟩] at longer
      cases longer
  | cons second letters =>
    simp only [cons_append,List.cons.injEq] at whole
    obtain ⟨rfl,rfl,rfl⟩ := whole
    have isComment : kind = .lineComment := only_lineComment longest.accepted
    cases middle with
    | nil => exact last rfl isComment
    | cons d middle =>
      have longer : (pattern .lineComment).accepts ('/' :: '/' :: (letters ++ [d])) = false :=
        longest.nothing_longer ⟨middle ++ back,by simp⟩ (by simp)
      rw [accepts_lineComment.mpr ⟨_,rfl,?_⟩] at longer
      · cases longer
      · intro e member
        refine plain e ?_
        simp only [mem_append,mem_cons,not_mem_nil,or_false] at member ⊢
        tauto

theorem no_string (next : middle ≠ [] → ∃ kind length, Longest (middle ++ back) kind length)
    (reaches : (pattern .stringFragment).accepts (front ++ (middle ++ c :: more)) = true) : False := by
  obtain ⟨fragment,whole⟩ := (accepts_stringFragment _).mp reaches
  obtain ⟨isQuote,_,_⟩ := fragment.quote_facts
  cases unicode : fragment.isUnicode with
  | false =>
    obtain ⟨first,letters,same⟩ := longest.exists_cons
    have begins : first = fragment.quote := by
      have heads := congrArg List.head? whole
      rw [fragment.head_letters,same] at heads
      simpa [unicode] using heads
    have accepted := longest.accepted
    rw [same,begins] at accepted
    exact longest.no_longer_string (only_string isQuote accepted) whole
  | true =>
    have split : front ++ (middle ++ c :: more) =
        ("unicode".toList ++ [fragment.quote]) ++ (fragment.body ++ [fragment.quote]) := by
      simpa [Fragment.letters,Fragment.mark,unicode] using whole
    generalize tail : fragment.body ++ [fragment.quote] = rest at split
    generalize fragment.quote = quote at isQuote split
    -- the opening lies before the blank
    have opened : "unicode".toList ++ [quote] <+: front ++ middle := by
      have first : "unicode".toList ++ [quote] <+: front ++ (middle ++ c :: more) := ⟨rest,split.symm⟩
      have second : front ++ middle <+: front ++ (middle ++ c :: more) := ⟨c :: more,by simp⟩
      rcases prefix_or_prefix_of_prefix first second with within | ⟨left,short⟩
      · exact within
      · cases left with
        | nil => exact ⟨[],by simpa using short.symm⟩
        | cons d left =>
          have same : c = d := by
            rw [← short] at split
            simp only [append_assoc,cons_append] at split
            exact (List.cons.inj (append_cancel_left (append_cancel_left split))).1
          have member : c ∈ "unicode".toList ++ [quote] := by
            rw [← short,same]
            simp
          have bright : ∀ quote ∈ quotes, ∀ c ∈ "unicode".toList ++ [quote], c ∉ blanks := by decide
          exact absurd blank (bright quote isQuote c member)
    have taken : front <+: front ++ middle := prefix_append ..
    rcases prefix_or_prefix_of_prefix opened taken with ⟨inside,same⟩ | short
    · have accepted := longest.accepted
      rw [← same,append_assoc] at accepted
      exact longest.no_longer_string (only_unicode isQuote accepted) whole
    · rcases prefix_concat_iff.mp short with same | ⟨left,same⟩
      · have accepted := longest.accepted
        rw [same] at accepted
        exact longest.no_longer_string (only_unicode isQuote accepted) whole
      · have marked : front = "unicode".toList := by
          cases left with
          | nil => simpa using same
          | cons d left =>
            have ahead : "unicode".toList <+: front ++ (middle ++ back) := by
              rw [← append_assoc]
              exact ((prefix_append _ _).trans opened).trans (prefix_append ..)
            have word : (pattern .identifier).accepts "unicode".toList = false :=
              longest.nothing_longer ahead (by rw [← same]; simp)
            exact absurd word (by decide)
        have begins : middle.head? = some quote := by
          rw [marked,prefix_append_right_inj] at opened
          obtain ⟨_,rfl⟩ := opened
          rfl
        refine longest.no_split_string isQuote marked begins (next ?_)
        rintro rfl
        cases begins

-- With blanks behind it the text is cut as before, whatever comes after them.
theorem kept (last : middle = [] → kind ≠ .whitespace ∧ kind ≠ .lineComment)
    (next : middle ≠ [] → ∃ kind length, Longest (middle ++ back) kind length) {after : List Char}
    (unclosed : ∀ text, text <+: after → (pattern .blockComment).accepts (front ++ (middle ++ c :: text)) = false) :
    Longest (front ++ (middle ++ c :: after)) kind front.length := by
  refine ⟨longest.filled,by simp,?_,?_⟩
  · rw [take_left]
    simpa [take_left] using longest.first
  · intro length longer within
    apply first_none.mpr
    intro other
    apply Bool.eq_false_iff.mpr
    intro accepted
    by_cases early : length ≤ (front ++ middle).length
    · -- so much of the text is the same as before
      have same : (front ++ (middle ++ c :: after)).take length = (front ++ (middle ++ back)).take length := by
        rw [← append_assoc,← append_assoc,take_append_of_le_length early,
          take_append_of_le_length early]
      rw [same] at accepted
      have inside : length ≤ (front ++ (middle ++ back)).length := by
        rw [← append_assoc,length_append]
        omega
      rw [first_none.mp (longest.beyond length longer inside) other] at accepted
      cases accepted
    · obtain ⟨text,ahead,same⟩ : ∃ text, text <+: after ∧
          (front ++ (middle ++ c :: after)).take length = front ++ (middle ++ c :: text) := by
        refine ⟨after.take (length - (front ++ middle).length - 1), take_prefix ..,?_⟩
        have beyond : length - (front ++ middle).length = (length - (front ++ middle).length - 1) + 1 := by omega
        rw [← append_assoc,take_append,take_of_length_le (by omega),beyond,take_succ_cons,
          append_assoc]
        rfl
      rw [same] at accepted
      have room : other ∈ roomy := roomy_of_blank accepted (by simp) blank
      simp only [roomy,mem_cons,not_mem_nil,or_false] at room
      rcases room with rfl | rfl | rfl | rfl
      · exact longest.no_string blank next accepted
      · rw [unclosed text ahead] at accepted
        cases accepted
      · exact longest.no_lineComment blank (fun absent => (last absent).2) accepted
      · exact longest.no_whitespace (fun absent => (last absent).1) accepted

end Reaching

end Munch.Longest

end SolReader
