import Mathlib.Data.List.ReduceOption
import Mathlib.Data.List.TakeWhile
import SolReader.Proofs.Token.Blanks

namespace SolReader

open List

-- What the grammar sees of a piece: the kind and the text of a token, nothing of a comment.  Of an unreadable stretch
-- only that it is there is kept.
def Piece.word? : Piece → Option (Option (Kind × String))
  | .token found => if found.kind.isHidden then none else some (some (found.kind,found.text))
  | .unread _ => some none

def words (letters : List Char) : List (Option (Kind × String)) :=
  (Piece.scan .start 0 letters).filterMap Piece.word?

-- What is seen of a match.
def shown (kind : Kind) (letters : List Char) : List (Option (Kind × String)) :=
  if kind = .whitespace ∨ kind.isHidden = true then [] else [some (kind,String.ofList letters)]

section Words

open Lexicon Munch

variable {front back letters : List Char} {kind : Kind}

-- Places and offsets do not matter.
theorem scan_words (place other : Place) (offset count : Nat) (letters : List Char) :
    (Piece.scan place offset letters).filterMap Piece.word? = (Piece.scan other count letters).filterMap Piece.word? := by
  induction size : letters.length using Nat.strong_induction_on generalizing letters place other offset count with
  | h size ih =>
    subst size
    cases letters with
    | nil =>
      rw [Piece.scan,Piece.scan]
      rfl
    | cons c rest =>
      have later (count : Nat) : (rest.drop count).length < (c :: rest).length := by
        rw [length_drop,length_cons]
        omega
      have same (one two : Place) (first second : Nat) (count : Nat) :
          (Piece.scan one first (rest.drop count)).filterMap Piece.word? =
            (Piece.scan two second (rest.drop count)).filterMap Piece.word? := ih _ (later count) one two first second _ rfl
      rw [Piece.scan,Piece.scan]
      split
      · exact congrArg (none :: ·) (same ..)
      · exact same ..
      · rename_i kind length found _
        by_cases hidden : kind.isHidden = true
        · simpa [Piece.word?,hidden] using same ..
        · simpa [Piece.word?,hidden] using same ..

theorem words_longest (longest : Longest (front ++ back) kind front.length) :
    words (front ++ back) = shown kind front ++ words back := by
  obtain ⟨c,rest,rfl⟩ := longest.exists_cons
  have best := best_eq_some.mpr longest
  rw [cons_append] at best
  rw [words,cons_append,Piece.scan]
  have taken : (rest ++ back).take ((c :: rest).length - 1) = rest := by simp
  have left : (rest ++ back).drop ((c :: rest).length - 1) = back := by simp
  simp only [best,Option.elim_some,taken,left,shown]
  split
  · rename_i impossible
    cases impossible
  · rename_i white
    cases white
    rw [if_pos (.inl rfl)]
    exact scan_words ..
  · rename_i matched length plain same
    cases same
    have white : kind ≠ .whitespace := plain
    by_cases hidden : kind.isHidden = true
    · rw [if_pos (.inr hidden),words]
      simpa [Piece.word?,hidden] using scan_words ..
    · rw [if_neg (by simp [white,hidden]),words]
      simpa [Piece.word?,hidden] using scan_words ..

end Words

section Cutting

open Lexicon Munch

-- The first text is cut into whole tokens, comments and blanks in front of the second, and this is seen of it.
inductive Cuts : List Char → List Char → List (Option (Kind × String)) → Prop where
  | nil (back : List Char) : Cuts [] back []
  | cons {front middle back : List Char} {kind : Kind} {found : List (Option (Kind × String))}
      (longest : Longest (front ++ (middle ++ back)) kind front.length) (others : Cuts middle back found) :
      Cuts (front ++ middle) back (shown kind front ++ found)

variable {front middle back gap after : List Char} {kind : Kind} {found : List (Option (Kind × String))}

theorem Cuts.words_eq (cuts : Cuts front back found) : words (front ++ back) = found ++ words back := by
  induction cuts with
  | nil => rfl
  | cons longest _ ih => rw [append_assoc,words_longest longest,ih,append_assoc]

theorem Cuts.exists_longest (cuts : Cuts front back found) (filled : front ≠ []) :
    ∃ kind length, Longest (front ++ back) kind length := by
  cases cuts with
  | nil => exact absurd rfl filled
  | cons longest _ =>
    rw [← append_assoc] at longest
    exact ⟨_,_,longest⟩

theorem Cuts.nothing (cuts : Cuts [] back found) : found = [] := by
  generalize none : [] = front at cuts
  cases cuts with
  | nil => rfl
  | cons longest others =>
    obtain ⟨first,rest,rfl⟩ := longest.exists_cons
    cases none

-- The lines of a text end at its end and where one of these comes.
def lineEnds : List Char := ['\n','\r']

-- A text that can follow a line comment.
def EndsLine (back : List Char) : Prop := ∀ c ∈ back.head?, c ∈ lineEnds

theorem Munch.Longest.endsLine (longest : Longest (front ++ back) .lineComment front.length) : EndsLine back := by
  intro c first
  by_contra plain
  obtain ⟨rest,same⟩ : ∃ rest, back = c :: rest := by
    cases back with
    | nil => cases first
    | cons d rest => exact ⟨rest,by rw [Option.some.inj first]⟩
  obtain ⟨inside,whole,bare⟩ := accepts_lineComment.mp longest.accepted
  have longer : (pattern .lineComment).accepts (front ++ [c]) = false :=
    longest.nothing_longer ⟨rest,by simp [same]⟩ (by simp)
  rw [accepts_lineComment.mpr ⟨inside ++ [c],by simp [whole],?_⟩] at longer
  · cases longer
  · intro d member
    rcases mem_append.mp member with early | last
    · exact bare d early
    · rwa [mem_singleton.mp last]

-- A match is the longest if only its own rule goes on from it, and that rule not here.
theorem Munch.longest_of_only (accepted : (pattern kind).accepts front = true) (filled : front ≠ [])
    (only : ∀ other rest, (pattern other).accepts (front ++ rest) = true → other = kind)
    (stops : ∀ c rest, c :: rest <+: back → (pattern kind).accepts (front ++ c :: rest) = false) :
    Longest (front ++ back) kind front.length := by
  refine ⟨length_pos_iff.mpr filled,by simp,?_,?_⟩
  · rw [take_left]
    cases first : first? front with
    | none =>
      rw [first_none.mp first kind] at accepted
      cases accepted
    | some other =>
      have matched := accepts_of_first first
      rw [only other [] (by rwa [append_nil])]
  · intro length longer within
    apply first_none.mpr
    intro other
    apply Bool.eq_false_iff.mpr
    intro accepted
    obtain ⟨count,rfl⟩ := Nat.exists_eq_add_of_lt longer
    rw [Nat.add_assoc,take_length_add_append] at accepted
    cases back with
    | nil =>
      rw [append_nil] at within
      exact absurd longer (Nat.not_lt.mpr within)
    | cons c rest =>
      rw [take_succ_cons] at accepted
      cases only other _ accepted
      rw [stops c (rest.take count) (cons_prefix_cons.mpr ⟨rfl, take_prefix ..⟩)] at accepted
      cases accepted

theorem longest_blanks (blank : ∀ c ∈ front, c ∈ blanks) (filled : front ≠ []) (stops : ∀ c ∈ back.head?, c ∉ blanks) :
    Longest (front ++ back) .whitespace front.length := by
  apply longest_of_only ((accepts_whitespace filled).mpr blank) filled
  · intro other rest accepted
    obtain ⟨first,letters,rfl⟩ := exists_cons_of_ne_nil filled
    exact only_whitespace (blank first mem_cons_self) accepted
  · intro c rest ahead
    obtain ⟨more,rfl⟩ := ahead
    apply Bool.eq_false_iff.mpr
    intro accepted
    exact stops c rfl ((accepts_whitespace (by simp)).mp accepted c (by simp))

theorem longest_lineComment (accepted : (pattern .lineComment).accepts front = true) (ends : EndsLine back) :
    Longest (front ++ back) .lineComment front.length := by
  obtain ⟨letters,rfl,_⟩ := accepts_lineComment.mp accepted
  apply longest_of_only accepted (by simp)
  · intro other rest matched
    exact only_lineComment matched
  · intro c rest ahead
    obtain ⟨more,rfl⟩ := ahead
    apply Bool.eq_false_iff.mpr
    intro matched
    obtain ⟨inside,whole,bare⟩ := accepts_lineComment.mp matched
    simp only [cons_append,List.cons.injEq,true_and] at whole
    exact bare c (whole ▸ by simp) (ends c rfl)

theorem words_dropWhile (letters : List Char) : words (letters.dropWhile (· ∈ blanks)) = words letters := by
  have split := takeWhile_append_dropWhile (p := (· ∈ blanks)) (l := letters)
  by_cases absent : letters.takeWhile (· ∈ blanks) = []
  · rw [absent] at split
    exact congrArg words split
  · have longest : Longest (letters.takeWhile (· ∈ blanks) ++ letters.dropWhile (· ∈ blanks)) .whitespace
        (letters.takeWhile (· ∈ blanks)).length := by
      apply longest_blanks _ absent
      · intro c first
        have stopped := List.head?_dropWhile_not (fun c => decide (c ∈ blanks)) letters
        rw [Option.mem_def.mp first] at stopped
        simpa using stopped
      · intro c member
        have inside := mem_takeWhile_imp member
        exact of_decide_eq_true inside
    have seen := words_longest longest
    rw [split,shown,if_pos (.inl rfl)] at seen
    exact seen.symm

theorem words_blanks (blank : ∀ c ∈ gap, c ∈ blanks) : words (gap ++ after) = words after := by
  rw [← words_dropWhile (gap ++ after),dropWhile_append_of_pos,words_dropWhile]
  intro c member
  exact decide_eq_true (blank c member)

-- Blanks at its end belong to a line comment as long as the line goes on.
theorem words_lineComment (accepted : (pattern .lineComment).accepts front = true) (blank : ∀ c ∈ gap, c ∈ blanks)
    (ends : (∀ c ∈ gap, c ∉ lineEnds) → EndsLine after) : words (front ++ (gap ++ after)) = words after := by
  obtain ⟨letters,rfl,bare⟩ := accepts_lineComment.mp accepted
  let line := gap.takeWhile (· ∉ lineEnds)
  let others := gap.dropWhile (· ∉ lineEnds)
  have split : line ++ others = gap := takeWhile_append_dropWhile
  have plain : ∀ c ∈ line, c ∉ lineEnds := by
    intro c member
    have inside := mem_takeWhile_imp member
    exact of_decide_eq_true inside
  have whole : (pattern .lineComment).accepts ('/' :: '/' :: (letters ++ line)) = true := by
    apply accepts_lineComment.mpr
    refine ⟨_,rfl,?_⟩
    intro c member
    rcases mem_append.mp member with early | late
    · exact bare c early
    · exact plain c late
  have stops : EndsLine (others ++ after) := by
    cases rest : others with
    | nil =>
      apply ends
      intro c member
      rw [← split,rest,append_nil] at member
      exact plain c member
    | cons d rest =>
      intro c first
      have stopped := List.head?_dropWhile_not (fun c => decide (c ∉ lineEnds)) gap
      rw [show gap.dropWhile _ = others from rfl,rest] at stopped
      cases first
      simpa using stopped
  have seen := words_longest (longest_lineComment whole stops)
  have regrouped : '/' :: '/' :: letters ++ (gap ++ after) = '/' :: '/' :: (letters ++ line) ++ (others ++ after) := by
    rw [← split]
    simp
  rw [regrouped,seen,shown,if_pos (.inr rfl),nil_append]
  apply words_blanks
  intro c member
  exact blank c (split ▸ mem_append_right _ member)

-- Nothing behind the text closes a comment that it opens.
def Unclosed (front back ahead : List Char) : Prop :=
  ∀ first second kind, first ++ second <:+ front → Longest (first ++ (second ++ back)) kind first.length →
    ∀ text, text <+: ahead → text ≠ [] → (pattern .blockComment).accepts (first ++ (second ++ text)) = false

theorem Cuts.respaced (cuts : Cuts front back found) (filled : gap ≠ []) (blank : ∀ c ∈ gap, c ∈ blanks)
    (lines : EndsLine back → (∀ c ∈ gap, c ∉ lineEnds) → EndsLine after) (unclosed : Unclosed front back (gap ++ after)) :
    words (front ++ (gap ++ after)) = found ++ words after := by
  obtain ⟨c,rest,rfl⟩ := exists_cons_of_ne_nil filled
  induction cuts with
  | nil => exact words_blanks blank
  | @cons front middle back kind found longest others ih =>
    have later : Unclosed middle back (c :: rest ++ after) := by
      intro first second kind inside
      exact unclosed first second kind (inside.trans (suffix_append ..))
    by_cases last : middle = [] ∧ (kind = .whitespace ∨ kind = .lineComment)
    · obtain ⟨rfl,isBlank | isComment⟩ := last
      · subst isBlank
        have blankFront := whitespace_blank longest.accepted
        rw [others.nothing,shown,if_pos (.inl rfl),append_nil,← append_assoc]
        apply words_blanks
        intro d member
        rcases mem_append.mp member with early | late
        · exact blankFront d early
        · exact blank d late
      · subst isComment
        rw [others.nothing,shown,if_pos (.inr rfl),append_nil]
        exact words_lineComment longest.accepted blank (lines longest.endsLine)
    · have kept : Longest (front ++ (middle ++ (c :: rest ++ after))) kind front.length := by
        apply longest.kept (blank c mem_cons_self)
        · intro absent
          simpa [absent] using last
        · intro more
          exact others.exists_longest more
        · intro text ahead
          exact unclosed front middle kind suffix_rfl longest (c :: text)
            (cons_prefix_cons.mpr ⟨rfl,ahead⟩) (by simp)
      rw [append_assoc,words_longest kept,ih lines later,append_assoc]

end Cutting

section Edits

open Lexicon Munch

variable {gap front after letters before : List Char} {text : String} {token : Token}

theorem blank_ne (blank : c ∈ blanks) : c ∉ ['*','/'] :=
  (by decide : ∀ c ∈ blanks, c ∉ ['*','/']) c blank

-- What ends behind blanks with the end of a comment has all of that end behind them.
theorem ends_behind {early text ahead inside : List Char} (blank : ∀ c ∈ gap, c ∈ blanks) (filled : gap ≠ [])
    (begins : text <+: gap ++ ahead) (present : text ≠ []) (ends : early ++ text = inside ++ ['*','/']) :
    ∃ more, more ++ ['*','/'] <+: ahead := by
  rcases prefix_or_prefix_of_prefix begins (prefix_append gap ahead) with within | ⟨more,rfl⟩
  · obtain ⟨rest,last,rfl⟩ := (eq_nil_or_concat text).resolve_left present
    have same : last = '/' := by
      have lasts := congrArg List.getLast? ends
      simpa using lasts
    exact absurd (by simp [same]) (blank_ne (blank last (within.subset (by simp))))
  · obtain ⟨rest,last,rfl⟩ := (eq_nil_or_concat gap).resolve_left filled
    have isBlank : last ∈ blanks := blank last (by simp)
    have one : last :: more <:+ inside ++ ['*','/'] := ⟨early ++ rest,by rw [← ends]; simp⟩
    rcases suffix_or_suffix_of_suffix one (suffix_append inside ['*','/']) with short | long
    · exact absurd (short.subset mem_cons_self) (blank_ne isBlank)
    · rcases suffix_cons_iff.mp long with same | ⟨start,rfl⟩
      · exact absurd (by rw [← (List.cons.inj same).1]; simp) (blank_ne isBlank)
      · exact ⟨start,(prefix_append_right_inj _).mp begins⟩

-- A comment that closes behind the blanks would have closed before, since what comes after them stood there too.
theorem unclosed_of_suffix {after : List Char} {back : List Char} (blank : ∀ c ∈ gap, c ∈ blanks) (filled : gap ≠ [])
    (kept : after <:+ back) : Unclosed front back (gap ++ after) := by
  intro first second kind _ longest text ahead present
  apply Bool.eq_false_iff.mpr
  intro accepted
  obtain ⟨rest,whole,closes⟩ := (accepts_blockComment _).mp accepted
  obtain ⟨inside,ends,_⟩ := id closes
  -- the opening stands before the blanks
  obtain ⟨opened,opening⟩ : ∃ opened, first ++ second = '/' :: '*' :: opened := by
    obtain ⟨d,letters,rfl⟩ := longest.exists_cons
    rw [cons_append,← append_assoc,List.cons.injEq] at whole
    obtain ⟨rfl,whole⟩ := whole
    cases next : letters ++ second with
    | nil =>
      obtain ⟨c,others,rfl⟩ := exists_cons_of_ne_nil filled
      obtain ⟨e,text,rfl⟩ := exists_cons_of_ne_nil present
      obtain ⟨rfl,_⟩ := cons_prefix_cons.mp ahead
      rw [next,nil_append,List.cons.injEq] at whole
      exact absurd (by simp [whole.1]) (blank_ne (blank e mem_cons_self))
    | cons e opened =>
      rw [next,cons_append,List.cons.injEq] at whole
      exact ⟨opened,by rw [cons_append,next,whole.1]⟩
  have tail : opened ++ text = rest := by
    rw [← append_assoc,opening] at whole
    simpa using whole
  obtain ⟨more,closing⟩ := ends_behind blank filled ahead present (tail.trans ends)
  obtain ⟨left,rfl⟩ := closing
  obtain ⟨early,rfl⟩ := kept
  have member : '/' :: '*' :: (opened ++ early ++ more) ++ ['*','/'] ∈ language .blockComment :=
    mem_comment.mpr ⟨_,rfl⟩
  have stood : '/' :: '*' :: (opened ++ early ++ more) ++ ['*','/'] <+:
      first ++ (second ++ (early ++ (more ++ ['*','/'] ++ left))) :=
    ⟨left,by rw [← append_assoc first,opening]; simp⟩
  obtain ⟨comment,begins,_,isComment⟩ := exists_comment stood member
  -- so the token is that comment
  have short : comment <+: first := by
    rcases prefix_or_prefix_of_prefix begins (prefix_append first _) with short | long
    · exact short
    · rcases Nat.lt_or_ge first.length comment.length with longer | same
      · rw [longest.nothing_longer begins longer] at isComment
        cases isComment
      · rw [long.eq_of_length_le same]
  obtain ⟨inner,rfl,_⟩ := (accepts_blockComment _).mp isComment
  obtain ⟨others,rfl⟩ := short
  have same : kind = .blockComment := only_comment longest.accepted
  subst same
  obtain ⟨own,same,closed⟩ := (accepts_blockComment _).mp longest.accepted
  rw [same] at whole
  have longer : own ++ (second ++ text) = rest := by simpa using whole
  have nothing := closed.alone (longer ▸ closes)
  exact present (append_eq_nil_iff.mp nothing).2

theorem Tile.Munched.longest {tile : Tile} (munched : tile.Munched letters)
    (readable : tile.unread? = none) : ∃ kind, tile.kind? = some kind ∧
      Longest (letters.drop tile.stretch.offset) kind tile.stretch.width := by
  cases tile with
  | unread stretch => cases readable
  | token found => exact ⟨_,rfl,best_eq_some.mp munched⟩
  | blank stretch => exact ⟨_,rfl,best_eq_some.mp munched⟩

-- Where the tokens of a text lie on one side of a position or the other, it is cut up to the blanks there.
theorem cuts_to {tiles : List Tile}
    (row : Stretch.Row start (tiles.map Tile.stretch) letters.length) (munched : ∀ tile ∈ tiles, tile.Munched letters)
    (readable : ∀ tile ∈ tiles, tile.unread? = none)
    (apart : ∀ found, .token found ∈ tiles → found.stretch.stop ≤ stop ∨ stop ≤ found.offset) (from_start : start ≤ stop)
    (to_stop : stop ≤ letters.length) :
    ∃ front gap found, letters.drop start = front ++ (gap ++ letters.drop stop) ∧ (∀ c ∈ gap, c ∈ blanks) ∧
      Cuts front (gap ++ letters.drop stop) found := by
  induction tiles generalizing start with
  | nil =>
    have same : start = letters.length := row
    exact ⟨[],[],[],by rw [Nat.le_antisymm from_start (same ▸ to_stop)]; rfl,by simp,.nil _⟩
  | cons tile tiles ih =>
    obtain ⟨begins,others⟩ := row
    obtain ⟨kind,known,longest⟩ := (munched tile mem_cons_self).longest (readable tile mem_cons_self)
    rw [begins] at longest
    by_cases whole : tile.stretch.stop ≤ stop
    · obtain ⟨front,gap,found,split,blank,cuts⟩ := ih others (fun tile member => munched tile (.tail _ member))
        (fun tile member => readable tile (.tail _ member)) (fun found member => apart found (.tail _ member)) whole
      have after : (letters.drop start).drop tile.stretch.width = front ++ (gap ++ letters.drop stop) := by
        rw [drop_drop,← split,Stretch.stop,begins]
      obtain ⟨taken,wide,parts⟩ : ∃ taken : List Char, taken.length = tile.stretch.width ∧
          letters.drop start = taken ++ (front ++ (gap ++ letters.drop stop)) :=
        ⟨_,length_take_of_le longest.within,by rw [← after,take_append_drop]⟩
      rw [parts,← wide] at longest
      rw [parts]
      exact ⟨_,gap,_,(append_assoc ..).symm,blank,.cons longest cuts⟩
    · -- the position lies in the first stretch, so that is blank or begins there
      refine ⟨[],(letters.drop start).take (stop - start),[],?_,?_,.nil _⟩
      · have rest : letters.drop stop = (letters.drop start).drop (stop - start) := by
          rw [drop_drop,Nat.add_sub_cancel' from_start]
        rw [nil_append,rest,take_append_drop]
      · intro c member
        have isBlank : kind = .whitespace := by
          cases tile with
          | unread => cases known
          | blank => exact (Option.some.inj known).symm
          | token found =>
            have beyond : ¬ found.stretch.stop ≤ stop := whole
            have here : found.offset = start := begins
            have absent : stop - start = 0 := by
              have sides := apart found mem_cons_self
              omega
            rw [absent] at member
            cases member
        subst isBlank
        have all := whitespace_blank (accepts_of_first longest.first)
        have within : stop - start ≤ tile.stretch.width := by
          rw [Stretch.stop,begins] at whole
          omega
        exact all c (( take_prefix_take_left within).subset member)

-- The text after an edit that leaves its tokens alone: blanks are put in between two of them, or in place of a comment.
inductive Respaced (text : String) : String → Prop where
  | space {before after gap : List Char} (whole : text.toList = before ++ after)
      (apart : ∀ token ∈ tokens text, token.stretch.stop ≤ before.length ∨ before.length ≤ token.offset)
      (blank : ∀ c ∈ gap, c ∈ blanks) : Respaced text (String.ofList (before ++ (gap ++ after)))
  | uncomment {before after gap : List Char} {comment : Token} (member : comment ∈ tokens text)
      (hidden : comment.kind.isHidden = true) (here : comment.offset = before.length)
      (whole : text.toList = before ++ (comment.text.toList ++ after)) (filled : gap ≠ [])
      (blank : ∀ c ∈ gap, c ∈ blanks) : Respaced text (String.ofList (before ++ (gap ++ after)))

-- Blanks are put where the text is cut, next to those that are there.
theorem words_between {after : List Char} (clean : unreadRegions text = []) (whole : text.toList = before ++ after)
    (apart : ∀ token ∈ tokens text, token.stretch.stop ≤ before.length ∨ before.length ≤ token.offset)
    (blank : ∀ c ∈ gap, c ∈ blanks) (filled : gap ≠ []) (kept : rest <:+ after)
    (lines : EndsLine after → EndsLine rest) (same : words rest = words after) :
    words (before ++ (gap ++ rest)) = words text.toList := by
  obtain ⟨tiles,tiling⟩ := pieces_tiling text
  have readable : ∀ tile ∈ tiles, tile.unread? = none := by
    rw [tiling.regions_eq,map_eq_nil_iff] at clean
    exact filterMap_eq_nil_iff.mp clean
  have sides : ∀ found, .token found ∈ tiles → found.stretch.stop ≤ before.length ∨ before.length ≤ found.offset := by
    intro found member
    apply apart
    rw [tiling.tokens_eq]
    exact mem_append_left _ (mem_filterMap.mpr ⟨_,member,rfl⟩)
  obtain ⟨front,near,found,split,blankNear,cuts⟩ :=
    cuts_to tiling.row tiling.munched readable sides (Nat.zero_le _) (by simp [whole])
  rw [whole,drop_left,drop_zero,← append_assoc] at split
  rw [whole,drop_left] at cuts
  have start : before = front ++ near := append_cancel_right split
  have blankGap : ∀ c ∈ near ++ gap, c ∈ blanks := by
    intro c member
    rcases mem_append.mp member with early | late
    · exact blankNear c early
    · exact blank c late
  have respaced : words (front ++ (near ++ gap ++ rest)) = found ++ words rest := by
    have present : near ++ gap ≠ [] := by simp [filled]
    apply cuts.respaced present blankGap
    · intro ends bare
      cases near with
      | nil => exact lines ends
      | cons c near => exact absurd (ends c rfl) (bare c (by simp))
    · exact unclosed_of_suffix blankGap present (kept.trans (suffix_append near after))
  have unspaced : words (front ++ (near ++ after)) = found ++ words after := by
    rw [cuts.words_eq,words_blanks blankNear]
  rw [whole,start,append_assoc,append_assoc,unspaced,← same,← respaced,append_assoc]

-- A token of the text is the longest match where it stands.
theorem longest_token {after : List Char} (member : token ∈ tokens text) (genuine : token.kind ≠ .eof)
    (here : token.offset = before.length) (whole : text.toList = before ++ (token.text.toList ++ after)) :
    Longest (token.text.toList ++ after) token.kind token.text.toList.length := by
  obtain ⟨tiles,tiling⟩ := pieces_tiling text
  rw [tiling.tokens_eq] at member
  rcases mem_append.mp member with inside | last
  · obtain ⟨tile,listed,made⟩ := mem_filterMap.mp inside
    cases Tile.token?_eq.mp made
    obtain ⟨_,cut,_⟩ := tiling.fits _ listed
    have longest := best_eq_some.mp (tiling.munched _ listed)
    change Longest (text.toList.drop token.offset) token.kind token.width at longest
    have wide : token.text.toList.length = token.width := by
      rw [cut,String.toList_ofList]
      exact length_take_of_le longest.within
    rwa [here,whole,drop_left,← wide] at longest
  · rw [mem_singleton.mp last] at genuine
    exact absurd rfl genuine

-- The tokens of a text lie on one side of where one of them begins.
theorem apart_token (member : token ∈ tokens text) :
    ∀ other ∈ tokens text, other.stretch.stop ≤ token.offset ∨ token.offset ≤ other.offset := by
  obtain ⟨body,regions,layout,whole,_⟩ := tokens_tile text
  have ordered : (tokens text).Pairwise fun one two => one.stretch.Before two.stretch := by
    rw [whole,pairwise_append]
    refine ⟨pairwise_map.mp layout.ordered.1,pairwise_singleton ..,?_⟩
    intro one early two last
    rw [mem_singleton.mp last]
    exact String.length_toList ▸ layout.within.1 one early
  have either : Std.Symm fun one two : Token => one.stretch.Apart two.stretch := ⟨fun _ _ => Or.symm⟩
  have apart : (tokens text).Pairwise fun one two => one.stretch.Apart two.stretch := ordered.imp .inl
  intro other found
  by_cases same : other = token
  · exact .inr (Nat.le_of_eq (by rw [same]))
  · rcases apart.forall found member same with before | after
    · exact .inl before
    · exact .inr (Nat.le_trans (Nat.le_add_right ..) after)

-- A comment does not end a line.
theorem comment_begins {kind : Kind} (hidden : kind.isHidden = true)
    (accepted : (pattern kind).accepts front = true) : ∃ rest, front = '/' :: rest := by
  rw [Kind.isHidden,Bool.or_eq_true] at hidden
  rcases hidden with block | line
  · cases of_decide_eq_true block
    obtain ⟨rest,same,_⟩ := (accepts_blockComment _).mp accepted
    exact ⟨_,same⟩
  · cases of_decide_eq_true line
    obtain ⟨rest,same,_⟩ := accepts_lineComment.mp accepted
    exact ⟨_,same⟩

theorem Respaced.words_eq (clean : unreadRegions text = []) (edit : Respaced text other) :
    words other.toList = words text.toList := by
  cases edit with
  | @space before after gap whole apart blank =>
    rw [String.toList_ofList]
    by_cases absent : gap = []
    · rw [absent,whole]
      rfl
    · exact words_between clean whole apart blank absent suffix_rfl id rfl
  | @uncomment before after gap comment member hidden here whole filled blank =>
    have longest := longest_token member (fun ends => by rw [ends] at hidden; cases hidden) here whole
    rw [String.toList_ofList]
    apply words_between clean whole _ blank filled (suffix_append ..)
    · intro ends
      obtain ⟨rest,same⟩ := comment_begins hidden longest.accepted
      rw [same] at ends
      exact absurd (ends '/' rfl) (by decide)
    · rw [words_longest longest,shown,if_pos (.inr hidden),nil_append]
    · rw [← here]
      exact apart_token member

-- What the grammar sees of a token.
def Token.word (token : Token) : Kind × String := (token.kind,token.text)

theorem words_tokens (text : String) :
    (words text.toList).reduceOption = ((tokens text).filter (!·.kind.isHidden)).map Token.word := by
  rw [words,tokens,pieces]
  induction Piece.scan .start 0 text.toList with
  | nil => rfl
  | cons piece pieces ih =>
    cases piece with
    | unread region => exact ih
    | token found =>
      by_cases hidden : found.kind.isHidden = true
      · simpa [Piece.word?,Piece.token?,hidden] using ih
      · simpa [Piece.word?,Piece.token?,hidden,Token.word,reduceOption_cons_of_some] using ih

theorem unread_words : unreadRegions text = [] ↔ none ∉ words text.toList := by
  rw [words,unreadRegions,pieces]
  induction Piece.scan .start 0 text.toList with
  | nil => simp
  | cons piece pieces ih =>
    cases piece with
    | unread region => simp [Piece.word?,Piece.unread?]
    | token found =>
      by_cases hidden : found.kind.isHidden = true
      · simpa [Piece.word?,Piece.unread?,hidden] using ih
      · simpa [Piece.word?,Piece.unread?,hidden] using ih

end Edits

end SolReader
