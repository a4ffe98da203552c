import SolReader.Proofs.Token.Language
import SolReader.Proofs.Token.Tiling

namespace SolReader

open List Bool

namespace Lexicon

variable {text left : List Char} {kind : Kind}

-- Between the opening and an end of a comment stands anything.
def comments : Language Char :=
  {text | ∃ inside, text = "/*".toList ++ inside ++ "*/".toList}

-- The texts of a kind as its rule gives them.
def language (kind : Kind) : Language Char :=
  if kind = .blockComment then comments else (pattern kind).language

theorem mem_comment : text ∈ language .blockComment ↔ ∃ inside, text = "/*".toList ++ inside ++ "*/".toList := Iff.rfl

theorem mem_language (plain : kind ≠ .blockComment) : text ∈ language kind ↔ (pattern kind).accepts text = true := by
  rw [language,if_neg plain,Pattern.accepts_iff]

theorem comment_closed (accepted : (pattern .blockComment).accepts text = true) :
    ∃ inside, text = "/*".toList ++ inside ++ "*/".toList ∧ ¬ "*/".toList <:+: inside ++ ['*'] := by
  obtain ⟨rest,rfl,inside,rfl,unclosed⟩ := (accepts_blockComment text).mp accepted
  exact ⟨inside,rfl,unclosed⟩

theorem language_of_accepts (accepted : (pattern kind).accepts text = true) : text ∈ language kind := by
  by_cases comment : kind = .blockComment
  · subst comment
    obtain ⟨inside,whole,_⟩ := comment_closed accepted
    exact mem_comment.mpr ⟨inside,whole⟩
  · exact (mem_language comment).mpr accepted

set_option maxRecDepth 100000 in
theorem only_comment (accepted : (pattern kind).accepts ("/*".toList ++ rest) = true) : kind = .blockComment := by
  have others : ∀ kind ∈ Kind.all, kind ≠ .blockComment → (pattern kind).after "/*".toList = .never := by decide
  refine Classical.byContradiction fun plain => ?_
  rw [Pattern.accepts_eq_after,Pattern.after,foldl_append] at accepted
  change (((pattern kind).after "/*".toList).after rest).nullable = true at accepted
  rw [others kind (Kind.mem_all kind) plain,← Pattern.accepts_eq_after,Pattern.accepts_never] at accepted
  cases accepted

-- Where the rule for comments has a text, the scan has a comment.
theorem exists_comment (ahead : text <+: left) (member : text ∈ language .blockComment) :
    ∃ comment, comment <+: left ∧ comment ≠ [] ∧ (pattern .blockComment).accepts comment = true := by
  obtain ⟨inside,rfl⟩ := mem_comment.mp member
  obtain ⟨more,rfl⟩ := ahead
  obtain ⟨count,closes⟩ := exists_closes inside more
  refine ⟨"/*".toList ++ (inside ++ '*' :: '/' :: more).take count,?_,by simp,?_⟩
  · have whole : "/*".toList ++ inside ++ "*/".toList ++ more = "/*".toList ++ (inside ++ '*' :: '/' :: more) := by simp
    rw [whole,prefix_append_right_inj]
    exact take_prefix ..
  · exact (accepts_blockComment _).mpr ⟨_,rfl,closes⟩

theorem first?_eq (text : List Char) : first? text = Kind.all.find? fun kind => (pattern kind).accepts text := by
  rw [first?,rules,List.find?_map,Option.map_map]
  exact Option.map_id'

theorem first_le (first : first? text = some kind)
    (accepted : (pattern other).accepts text = true) : Kind.all.idxOf kind ≤ Kind.all.idxOf other := by
  rw [first?_eq] at first
  obtain ⟨chosen,before,after,whole,rejected⟩ := List.find?_eq_some_iff_append.mp first
  have later : ∀ listed, (pattern listed).accepts text = true → listed ∉ before := by
    intro listed fits early
    have missed := rejected listed early
    rw [fits] at missed
    cases missed
  rw [whole,idxOf_append_of_notMem (later kind chosen),idxOf_append_of_notMem (later other accepted),
    idxOf_cons_self]
  exact Nat.add_le_add_left (Nat.zero_le _) _

theorem first_none : first? text = none ↔ ∀ kind, (pattern kind).accepts text = false := by
  rw [first?_eq,List.find?_eq_none]
  exact ⟨fun rejected kind => eq_false_iff.mpr (rejected kind (Kind.mem_all kind)),
    fun rejected kind _ => eq_false_iff.mp (rejected kind)⟩

-- The kind and the width of what is read, by the languages of the rules.
structure Reads (left : List Char) (kind : Kind) (width : Nat) : Prop where
  within : width ≤ left.length
  fits : left.take width ∈ language kind
  longest : ∀ other ≠ .blockComment, ∀ text, text <+: left → width < text.length → text ∉ language other
  first : ∀ other, left.take width ∈ language other → Kind.all.idxOf kind ≤ Kind.all.idxOf other
  closed : kind = .blockComment →
    ∃ inside, left.take width = "/*".toList ++ inside ++ "*/".toList ∧ ¬ "*/".toList <:+: inside ++ ['*']

theorem reads_of_longest (longest : Munch.Longest left kind width) : Reads left kind width := by
  have accepted := accepts_of_first longest.first
  refine ⟨longest.within,language_of_accepts accepted,?_,?_,?_⟩
  · intro other plain text ahead longer member
    rw [mem_language plain,prefix_iff_eq_take.mp ahead] at member
    have missed := first_none.mp (longest.beyond _ longer ahead.length_le) other
    rw [missed] at member
    cases member
  · intro other member
    by_cases comment : other = .blockComment
    · subst comment
      obtain ⟨inside,whole⟩ := mem_comment.mp member
      rw [whole,append_assoc] at accepted
      rw [only_comment accepted]
    · exact first_le longest.first ((mem_language comment).mp member)
  · rintro rfl
    exact comment_closed accepted

theorem unmatched_iff : (Munch.from rules 0 none left).best = none ↔
      ∀ kind text, text <+: left → text ≠ [] → text ∉ language kind := by
  rw [Munch.best_eq_none]
  constructor
  · intro unmatched kind text ahead filled member
    have rejected : ∀ other word, word <+: left → word ≠ [] → (pattern other).accepts word = false := by
      intro other word before inside
      have missed := unmatched word.length (length_pos_iff.mpr inside) before.length_le
      rw [← prefix_iff_eq_take.mp before] at missed
      exact first_none.mp missed other
    by_cases comment : kind = .blockComment
    · subst comment
      obtain ⟨word,before,inside,accepted⟩ := exists_comment ahead member
      rw [rejected _ word before inside] at accepted
      cases accepted
    · rw [mem_language comment,rejected kind text ahead filled] at member
      cases member
  · intro unmatched length filled within
    refine first_none.mpr fun kind => eq_false_iff.mpr fun accepted => ?_
    have inside : left.take length ≠ [] := by
      rw [← length_pos_iff,length_take]
      omega
    exact unmatched kind _ ( take_prefix ..) inside (language_of_accepts accepted)

end Lexicon

-- Tokens, blanks and unreadable stretches are all that the text consists of; the first two are what the rules read where
-- they begin, and an unreadable stretch begins where no rule reads anything.
theorem tokens_longest (text : String) : ∃ tiles : List Tile,
    Stretch.Row 0 (tiles.map Tile.stretch) text.length ∧
    tokens text =
      tiles.filterMap Tile.token? ++ [.endOfText (Place.ofOffset text.toList text.length) text.length] ∧
    unreadRegions text = (tiles.filterMap Tile.unread?).map (Stretch.region text.toList) ∧
    ∀ tile ∈ tiles, 0 < tile.stretch.width ∧ tile.Fits text.toList ∧
      (∀ kind, tile.kind? = some kind →
        Lexicon.Reads (text.toList.drop tile.stretch.offset) kind tile.stretch.width) ∧
      (tile.kind? = none ↔ ∀ kind word, word <+: text.toList.drop tile.stretch.offset → word ≠ [] →
        word ∉ Lexicon.language kind) := by
  obtain ⟨tiles,tiling⟩ := pieces_tiling text
  refine ⟨tiles,String.length_toList ▸ tiling.row,tiling.tokens_eq,tiling.regions_eq,fun tile member => ?_⟩
  have munched := tiling.munched tile member
  rw [Tile.Munched] at munched
  refine ⟨tiling.filled tile member,tiling.fits tile member,fun kind matched => ?_,?_⟩
  · rw [matched] at munched
    exact Lexicon.reads_of_longest (Munch.best_eq_some.mp munched)
  · rw [← Lexicon.unmatched_iff,munched,Option.map_eq_none_iff]

end SolReader
