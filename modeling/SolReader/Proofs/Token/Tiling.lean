import Mathlib.Data.List.Induction
import Mathlib.Data.List.Pairwise
import SolReader.Diagnostic
import SolReader.Proofs.Token.Spelling

namespace SolReader

-- So many characters of a text from some offset on.
structure Stretch where
  offset : Nat
  width : Nat
  deriving DecidableEq, Repr

namespace Stretch

def stop (stretch : Stretch) : Nat :=
  stretch.offset + stretch.width

def Covers (stretch : Stretch) (position : Nat) : Prop :=
  stretch.offset ≤ position ∧ position < stretch.stop

def Before (one two : Stretch) : Prop :=
  one.stop ≤ two.offset

def Apart (one two : Stretch) : Prop :=
  one.Before two ∨ two.Before one

def cut (stretch : Stretch) (letters : List Char) : List Char :=
  (letters.drop stretch.offset).take stretch.width

-- The stretches follow each other without a gap, from one position to another.
def Row : Nat → List Stretch → Nat → Prop
  | start, [], stop => start = stop
  | start, stretch :: rest, stop => stretch.offset = start ∧ Row stretch.stop rest stop

variable {start stop : Nat} {row : List Stretch}

theorem Row.offset_le (laid : Row start row stop) : ∀ stretch ∈ row, start ≤ stretch.offset := by
  induction row generalizing start with
  | nil => exact fun stretch member => by cases member
  | cons first rest ih =>
    obtain ⟨rfl,others⟩ := laid
    intro stretch member
    rcases List.mem_cons.mp member with rfl | later
    · exact Nat.le_refl _
    · exact Nat.le_trans (Nat.le_add_right ..) (ih others stretch later)

theorem Row.start_le (laid : Row start row stop) : start ≤ stop := by
  induction row generalizing start with
  | nil => exact Nat.le_of_eq laid
  | cons first rest ih =>
    obtain ⟨rfl,others⟩ := laid
    exact Nat.le_trans (Nat.le_add_right ..) (ih others)

theorem Row.stop_le (laid : Row start row stop) : ∀ stretch ∈ row, stretch.stop ≤ stop := by
  induction row generalizing start with
  | nil => exact fun stretch member => by cases member
  | cons first rest ih =>
    obtain ⟨rfl,others⟩ := laid
    intro stretch member
    rcases List.mem_cons.mp member with rfl | later
    · exact others.start_le
    · exact ih others stretch later

theorem Row.pairwise (laid : Row start row stop) : row.Pairwise Before := by
  induction row generalizing start with
  | nil => exact .nil
  | cons first rest ih =>
    obtain ⟨_,others⟩ := laid
    exact .cons others.offset_le (ih others)

theorem Row.covered (laid : Row start row stop) (from_start : start ≤ position)
    (to_stop : position < stop) : ∃ stretch ∈ row, stretch.Covers position := by
  induction row generalizing start with
  | nil =>
    have empty : start = stop := laid
    omega
  | cons first rest ih =>
    obtain ⟨rfl,others⟩ := laid
    by_cases inside : position < first.stop
    · exact ⟨first,List.mem_cons_self,from_start,inside⟩
    · obtain ⟨stretch,member,covers⟩ := ih others (Nat.le_of_not_lt inside)
      exact ⟨stretch,List.mem_cons_of_mem _ member,covers⟩

end Stretch

-- The line and the column of an offset: only a line feed starts a line, and columns count from there.
def Place.ofOffset (letters : List Char) (offset : Nat) : Place :=
  ⟨1 + (letters.take offset).count '\n',((letters.take offset).reverse.takeWhile (· != '\n')).length⟩

theorem Place.advance_append (place : Place) (one two : List Char) :
    place.advance (one ++ two) = (place.advance one).advance two :=
  List.foldl_append

theorem Place.advance_start (letters : List Char) :
    Place.start.advance letters = ⟨1 + letters.count '\n',(letters.reverse.takeWhile (· != '\n')).length⟩ := by
  induction letters using List.reverseRecOn with
  | nil => rfl
  | append_singleton letters last ih =>
    rw [advance_append,ih]
    by_cases feed : last = '\n' <;> simp [advance,step,feed,Nat.add_assoc]

theorem Place.ofOffset_eq {letters left : List Char} (whole : letters = done ++ left) :
    Place.ofOffset letters done.length = Place.start.advance done := by
  rw [ofOffset,whole,List.take_left,advance_start]

section Blanks

variable {cls : CharClass}

-- Space, tab, carriage return, line feed and form feed.
def blanks : List Char :=
  [' ','\t','\r','\n','\x0c']

open Pattern

theorem accepts_star_char {letters : List Char} (accepted : (star (.char cls)).accepts letters = true) :
    ∀ c ∈ letters, cls.contains c = true := by
  induction letters with
  | nil => exact fun c member => by cases member
  | cons first rest ih =>
    rw [accepts_cons,derive,derive] at accepted
    by_cases inside : cls.contains first = true
    · rw [if_pos inside] at accepted
      exact List.forall_mem_cons.mpr ⟨inside,ih accepted⟩
    · rw [if_neg inside,andThen,accepts_never] at accepted
      cases accepted

theorem accepts_many1_char {letters : List Char}
    (accepted : (many1 (.char cls)).accepts letters = true) : ∀ c ∈ letters, cls.contains c = true := by
  cases letters with
  | nil => exact fun c member => by cases member
  | cons first rest =>
    have split : many1 (.char cls) = .seq (.char cls) (.star (.char cls)) := rfl
    rw [split,accepts_cons,derive,nullable,if_neg Bool.false_ne_true,derive] at accepted
    by_cases inside : cls.contains first = true
    · rw [if_pos inside] at accepted
      exact List.forall_mem_cons.mpr ⟨inside,accepts_star_char accepted⟩
    · rw [if_neg inside,andThen,accepts_never] at accepted
      cases accepted

theorem whitespace_blank {letters : List Char} (accepted : Lexicon.whitespace.accepts letters = true) :
    ∀ c ∈ letters, c ∈ blanks := by
  intro c member
  have inside := accepts_many1_char accepted c member
  simp only [CharClass.among,CharClass.contains,List.any_cons,List.any_nil,Bool.or_false,bne_iff_ne,ne_eq,
    Bool.not_eq_false,Bool.or_eq_true,Bool.and_eq_true,decide_eq_true_eq,Char.le_def,UInt32.le_iff_toNat_le] at inside
  have same : ∀ d : Char, c.toNat = d.toNat → c = d := fun d => Char.toNat_inj.mp
  rcases inside with feed | form | space
  · change 9 ≤ c.toNat ∧ c.toNat ≤ 10 at feed
    rcases (by omega : c.toNat = 9 ∨ c.toNat = 10) with code | code
    · exact same '\t' code ▸ by decide
    · exact same '\n' code ▸ by decide
  · change 12 ≤ c.toNat ∧ c.toNat ≤ 13 at form
    rcases (by omega : c.toNat = 12 ∨ c.toNat = 13) with code | code
    · exact same '\x0c' code ▸ by decide
    · exact same '\r' code ▸ by decide
  · change 32 ≤ c.toNat ∧ c.toNat ≤ 32 at space
    exact same ' ' (show c.toNat = 32 by omega) ▸ by decide

end Blanks

def Token.stretch (token : Token) : Stretch :=
  ⟨token.offset,token.width⟩

-- The stretch as it is reported.
def Stretch.region (letters : List Char) (stretch : Stretch) : Unread :=
  ⟨Place.ofOffset letters stretch.offset,String.ofList (stretch.cut letters)⟩

-- What a stretch of the text is taken for.
inductive Tile where
  | token (token : Token)
  | unread (stretch : Stretch)
  | blank (stretch : Stretch)

namespace Tile

def stretch : Tile → Stretch
  | .token found => found.stretch
  | .unread stretch => stretch
  | .blank stretch => stretch

-- A token has the text and the place of its stretch, and a blank stretch holds nothing but blanks.
def Fits (letters : List Char) : Tile → Prop
  | .token found => found.kind ≠ .eof ∧ found.text = String.ofList (found.stretch.cut letters) ∧
      found.place = Place.ofOffset letters found.offset
  | .unread _ => True
  | .blank stretch => ∀ c ∈ stretch.cut letters, c ∈ blanks

def pieces (letters : List Char) : Tile → List Piece
  | .token found => [.token found]
  | .unread stretch => [.unread (stretch.region letters)]
  | .blank _ => []

-- The kind that the stretch is matched with.
def kind? : Tile → Option Kind
  | .token found => some found.kind
  | .unread _ => none
  | .blank _ => some .whitespace

def token? : Tile → Option Token
  | .token found => some found
  | _ => none

def unread? : Tile → Option Stretch
  | .unread stretch => some stretch
  | _ => none

theorem token?_eq {tile : Tile} : tile.token? = some found ↔ tile = .token found := by
  cases tile <;> simp [token?]

theorem unread?_eq {tile : Tile} {stretch : Stretch} : tile.unread? = some stretch ↔ tile = .unread stretch := by
  cases tile <;> simp [unread?]

end Tile

-- The tile is what the scan finds where it begins.
def Tile.Munched (letters : List Char) (tile : Tile) : Prop :=
  (Munch.from Lexicon.rules 0 none (letters.drop tile.stretch.offset)).best =
    tile.kind?.map fun kind => (kind,tile.stretch.width)

-- The tiles of a text from some position to its end, and the pieces they make.
structure Tiling (letters : List Char) (start : Nat) (pieces : List Piece) (tiles : List Tile) : Prop where
  row : Stretch.Row start (tiles.map Tile.stretch) letters.length
  filled : ∀ tile ∈ tiles, 0 < tile.stretch.width
  fits : ∀ tile ∈ tiles, tile.Fits letters
  munched : ∀ tile ∈ tiles, tile.Munched letters
  made : pieces = tiles.flatMap (Tile.pieces letters) ++
    [.token (.endOfText (Place.ofOffset letters letters.length) letters.length)]

theorem Tiling.cons {letters : List Char} {pieces : List Piece} {tiles : List Tile} {tile : Tile}
    (others : Tiling letters tile.stretch.stop pieces tiles) (filled : 0 < tile.stretch.width)
    (fits : tile.Fits letters) (munched : tile.Munched letters) :
    Tiling letters tile.stretch.offset (tile.pieces letters ++ pieces) (tile :: tiles) where
  row := ⟨rfl,others.row⟩
  filled := List.forall_mem_cons.mpr ⟨filled,others.filled⟩
  fits := List.forall_mem_cons.mpr ⟨fits,others.fits⟩
  munched := List.forall_mem_cons.mpr ⟨munched,others.munched⟩
  made := by rw [others.made,List.flatMap_cons,List.append_assoc]

theorem Stretch.cut_eq {letters left : List Char} (whole : letters = done ++ taken ++ left) :
    Stretch.cut ⟨done.length,taken.length⟩ letters = taken := by
  simp [cut,whole]

theorem Tile.munched {letters left : List Char} {tile : Tile} (whole : letters = done ++ left)
    (here : tile.stretch.offset = done.length)
    (found : (Munch.from Lexicon.rules 0 none left).best = tile.kind?.map fun kind => (kind,tile.stretch.width)) :
    tile.Munched letters := by
  rw [Munched,here,whole,List.drop_left]
  exact found

theorem Munch.length_taken (found : (Munch.from Lexicon.rules 0 none (c :: rest)).best = some (kind,length)) :
    (c :: rest.take (length - 1)).length = length := by
  obtain ⟨filled,within,_,_⟩ := Munch.best_eq_some.mp found
  rw [List.length_cons] at within
  rw [List.length_cons,List.length_take]
  omega

-- What has been read before, and with it the place and the offset, is carried along.
theorem scan_tiling {letters left : List Char} (whole : letters = done ++ left) :
    ∃ tiles, Tiling letters done.length (Piece.scan (Place.start.advance done) done.length left) tiles := by
  generalize place : Place.start.advance done = start
  generalize count : done.length = offset
  fun_induction Piece.scan start offset left generalizing done with
  | case1 start offset =>
    have ended : letters = done := by simpa using whole
    subst ended place count
    refine ⟨[],rfl,by simp,by simp,by simp,?_⟩
    rw [Place.ofOffset_eq whole]
    rfl
  | case2 start offset c rest munch more taken next absent =>
    rename_i ih
    have split : letters = done ++ taken ++ rest.drop more := by simp [whole,taken]
    subst place count
    obtain ⟨tiles,others⟩ := ih split (Place.advance_append ..) List.length_append
    have unread : Tile.Fits letters (.unread ⟨done.length,taken.length⟩) := trivial
    have tiling := Tiling.cons others (by simp [taken,Tile.stretch]) unread (Tile.munched whole rfl absent)
    rw [Tile.pieces,Stretch.region,Stretch.cut_eq split,Place.ofOffset_eq whole] at tiling
    exact ⟨_,tiling⟩
  | case3 start offset c rest munch more taken next length white =>
    rename_i ih
    have split : letters = done ++ taken ++ rest.drop more := by simp [whole,taken]
    subst place count
    obtain ⟨tiles,others⟩ := ih split (Place.advance_append ..) List.length_append
    have letters_eq : taken = c :: rest.take (length - 1) := by simp [taken,more,white]
    have blank : Tile.Fits letters (.blank ⟨done.length,taken.length⟩) := by
      rw [Tile.Fits,Stretch.cut_eq split,letters_eq]
      exact whitespace_blank (Lexicon.accepts_of_first (Munch.best_first white))
    have munched : Tile.Munched letters (.blank ⟨done.length,taken.length⟩) := by
      rw [letters_eq,Munch.length_taken white]
      exact Tile.munched whole rfl white
    exact ⟨_,Tiling.cons others (by simp [taken,Tile.stretch]) blank munched⟩
  | case4 start offset c rest munch more taken next kind length notWhite found =>
    rename_i ih
    have split : letters = done ++ taken ++ rest.drop more := by simp [whole,taken]
    subst place count
    obtain ⟨tiles,others⟩ := ih split (Place.advance_append ..) List.length_append
    have fits : Tile.Fits letters
        (.token ⟨kind,String.ofList taken,Place.start.advance done,done.length,taken.length⟩) := by
      refine ⟨?_,?_,(Place.ofOffset_eq whole).symm⟩
      · rintro rfl
        have accepted := Lexicon.accepts_of_first (Munch.best_first found)
        rw [show Lexicon.pattern .eof = .never from rfl,Pattern.accepts_never] at accepted
        cases accepted
      · rw [Token.stretch,Stretch.cut_eq split]
    have munched : Tile.Munched letters
        (.token ⟨kind,String.ofList taken,Place.start.advance done,done.length,taken.length⟩) := by
      have letters_eq : taken = c :: rest.take (length - 1) := by simp [taken,more,found]
      rw [letters_eq,Munch.length_taken found]
      exact Tile.munched whole rfl found
    exact ⟨_,Tiling.cons others (by simp [taken,Tile.stretch,Token.stretch]) fits munched⟩

section Pieces

variable (letters : List Char) (tiles : List Tile)

theorem tokens_of_tiles : (tiles.flatMap (Tile.pieces letters)).filterMap Piece.token? = tiles.filterMap Tile.token? := by
  induction tiles with
  | nil => rfl
  | cons tile tiles ih =>
    rw [List.flatMap_cons,List.filterMap_append,ih]
    cases tile <;> rfl

theorem regions_of_tiles : (tiles.flatMap (Tile.pieces letters)).filterMap Piece.unread? =
    (tiles.filterMap Tile.unread?).map (Stretch.region letters) := by
  induction tiles with
  | nil => rfl
  | cons tile tiles ih =>
    rw [List.flatMap_cons,List.filterMap_append,ih]
    cases tile <;> rfl

end Pieces

-- What the tokens and the unreadable stretches of a text have to do with its characters.
structure Layout (letters : List Char) (body : List Token) (regions : List Stretch) : Prop where
  filled : (∀ token ∈ body, 0 < token.width) ∧ ∀ region ∈ regions, 0 < region.width
  within : (∀ token ∈ body, token.stretch.stop ≤ letters.length) ∧ ∀ region ∈ regions, region.stop ≤ letters.length
  ordered : (body.map Token.stretch).Pairwise Stretch.Before ∧ regions.Pairwise Stretch.Before
  apart : ∀ token ∈ body, ∀ region ∈ regions, token.stretch.Apart region
  text : ∀ token ∈ body, token.text = String.ofList (token.stretch.cut letters)
  place : ∀ token ∈ body, token.place = Place.ofOffset letters token.offset
  between : ∀ position, (inside : position < letters.length) → (∃ token ∈ body, token.stretch.Covers position) ∨
    (∃ region ∈ regions, region.Covers position) ∨ letters[position] ∈ blanks

theorem Stretch.cut_of_covers {letters : List Char} {stretch : Stretch}
    (covers : stretch.Covers position) (inside : position < letters.length) :
    letters[position] ∈ stretch.cut letters := by
  obtain ⟨before,after⟩ := covers
  rw [stop] at after
  refine List.mem_take_iff_getElem.mpr ⟨position - stretch.offset,?_,?_⟩
  · rw [List.length_drop]
    omega
  · rw [List.getElem_drop]
    congr 1
    omega

theorem Tiling.layout {letters : List Char} {pieces : List Piece} (tiling : Tiling letters 0 pieces tiles) :
    Layout letters (tiles.filterMap Tile.token?) (tiles.filterMap Tile.unread?) := by
  have token : ∀ found ∈ tiles.filterMap Tile.token?, .token found ∈ tiles := by
    intro found member
    obtain ⟨tile,inside,same⟩ := List.mem_filterMap.mp member
    exact Tile.token?_eq.mp same ▸ inside
  have unread : ∀ stretch ∈ tiles.filterMap Tile.unread?, .unread stretch ∈ tiles := by
    intro stretch member
    obtain ⟨tile,inside,same⟩ := List.mem_filterMap.mp member
    exact Tile.unread?_eq.mp same ▸ inside
  have within : ∀ tile ∈ tiles, tile.stretch.stop ≤ letters.length :=
    fun tile member => tiling.row.stop_le _ (List.mem_map_of_mem member)
  have ordered : tiles.Pairwise fun one two => one.stretch.Before two.stretch :=
    List.pairwise_map.mp tiling.row.pairwise
  refine ⟨⟨?_,?_⟩,⟨?_,?_⟩,⟨?_,?_⟩,?_,?_,?_,?_⟩
  · exact fun found member => tiling.filled _ (token found member)
  · exact fun stretch member => tiling.filled _ (unread stretch member)
  · exact fun found member => within _ (token found member)
  · exact fun stretch member => within _ (unread stretch member)
  · rw [List.pairwise_map,List.pairwise_filterMap]
    refine ordered.imp fun {one two} before first isFirst second isSecond => ?_
    rwa [Tile.token?_eq.mp isFirst,Tile.token?_eq.mp isSecond] at before
  · rw [List.pairwise_filterMap]
    refine ordered.imp fun {one two} before first isFirst second isSecond => ?_
    rwa [Tile.unread?_eq.mp isFirst,Tile.unread?_eq.mp isSecond] at before
  · intro found isToken stretch isUnread
    have either : Std.Symm fun one two : Tile => one.stretch.Apart two.stretch := ⟨fun _ _ => Or.symm⟩
    have apart : tiles.Pairwise fun one two => one.stretch.Apart two.stretch := ordered.imp .inl
    exact apart.forall (token found isToken) (unread stretch isUnread) (by simp)
  · exact fun found member => (tiling.fits _ (token found member)).2.1
  · exact fun found member => (tiling.fits _ (token found member)).2.2
  · intro position inside
    obtain ⟨stretch,member,covers⟩ := tiling.row.covered (Nat.zero_le _) inside
    obtain ⟨tile,laid,rfl⟩ := List.mem_map.mp member
    cases tile with
    | token found => exact .inl ⟨found,List.mem_filterMap.mpr ⟨_,laid,rfl⟩,covers⟩
    | unread stretch => exact .inr (.inl ⟨stretch,List.mem_filterMap.mpr ⟨_,laid,rfl⟩,covers⟩)
    | blank stretch => exact .inr (.inr (tiling.fits _ laid _ (Stretch.cut_of_covers covers inside)))

theorem pieces_tiling (text : String) : ∃ tiles, Tiling text.toList 0 (pieces text) tiles :=
  scan_tiling (show text.toList = [] ++ text.toList from rfl)

theorem Tiling.tokens_eq {text : String} (tiling : Tiling text.toList 0 (pieces text) tiles) : tokens text =
      tiles.filterMap Tile.token? ++ [.endOfText (Place.ofOffset text.toList text.length) text.length] := by
  rw [tokens,tiling.made,List.filterMap_append,tokens_of_tiles,String.length_toList]
  rfl

theorem Tiling.regions_eq {text : String} (tiling : Tiling text.toList 0 (pieces text) tiles) :
    unreadRegions text = (tiles.filterMap Tile.unread?).map (Stretch.region text.toList) := by
  rw [unreadRegions,tiling.made,List.filterMap_append,regions_of_tiles]
  exact List.append_nil _

-- The tokens and the unreadable stretches, with what is said about them, lie in the text one after the other, and only
-- blanks lie between them.
theorem tokens_tile (text : String) : ∃ body regions, Layout text.toList body regions ∧
    tokens text = body ++ [.endOfText (Place.ofOffset text.toList text.length) text.length] ∧
    (Token.endOfText (Place.ofOffset text.toList text.length) text.length).last = (text.length : Int) - 1 ∧
    (unreadRegions text).map Diagnostic.ofUnread = regions.map fun region =>
      ⟨Place.ofOffset text.toList region.offset,.unreadable (String.ofList (region.cut text.toList))⟩ := by
  obtain ⟨tiles,tiling⟩ := pieces_tiling text
  refine ⟨_,_,tiling.layout,tiling.tokens_eq,?_,?_⟩
  · simp [Token.last,Token.endOfText]
  · rw [tiling.regions_eq,List.map_map]
    rfl

-- Places in the order in which a text is read.
instance : LE Place where
  le one two := one.line < two.line ∨ one.line = two.line ∧ one.column ≤ two.column

namespace Place

variable {one two : Place}

theorem le_def : one ≤ two ↔ one.line < two.line ∨ one.line = two.line ∧ one.column ≤ two.column :=
  Iff.rfl

theorem le_refl (place : Place) : place ≤ place :=
  .inr ⟨rfl,Nat.le_refl _⟩

theorem le_trans (first : one ≤ two) (second : two ≤ three) : one ≤ three := by
  rw [le_def] at *
  omega

theorem le_step (place : Place) (c : Char) : place ≤ place.step c := by
  rw [le_def,step]
  split
  · exact .inl (Nat.lt_succ_self _)
  · exact .inr ⟨rfl,Nat.le_succ _⟩

theorem le_advance (place : Place) (letters : List Char) : place ≤ place.advance letters := by
  induction letters generalizing place with
  | nil => exact place.le_refl
  | cons first rest ih => exact le_trans (place.le_step first) (ih _)

theorem ofOffset_mono (letters : List Char) {one two : Nat} (before : one ≤ two) :
    ofOffset letters one ≤ ofOffset letters two := by
  have split : letters.take two = letters.take one ++ (letters.take two).drop one := by
    have parts := List.take_append_drop one (letters.take two)
    rw [List.take_take,Nat.min_eq_left before] at parts
    exact parts.symm
  rw [ofOffset,ofOffset,← advance_start,← advance_start,split,advance_append]
  exact le_advance _ _

end Place

-- The token is read before the other, and is not the end of the text.
def Token.Precedes (one two : Token) : Prop :=
  one.kind ≠ .eof ∧ one.place ≤ two.place

theorem tokens_ordered (text : String) : (tokens text).Pairwise Token.Precedes := by
  obtain ⟨tiles,tiling⟩ := pieces_tiling text
  have layout := tiling.layout
  have genuine : ∀ token ∈ tiles.filterMap Tile.token?, token.kind ≠ .eof := by
    intro found member
    obtain ⟨tile,inside,same⟩ := List.mem_filterMap.mp member
    rw [Tile.token?_eq.mp same] at inside
    exact (tiling.fits _ inside).1
  rw [tiling.tokens_eq,List.pairwise_append]
  refine ⟨?_,List.pairwise_singleton ..,?_⟩
  · refine (List.pairwise_map.mp layout.ordered.1).imp_of_mem fun {one two} first second before => ⟨genuine one first,?_⟩
    rw [layout.place one first,layout.place two second]
    exact Place.ofOffset_mono _ (Nat.le_trans (Nat.le_add_right ..) before)
  · intro token member last ending
    rw [List.mem_singleton.mp ending]
    refine ⟨genuine token member,?_⟩
    rw [layout.place token member]
    exact Place.ofOffset_mono _ (Nat.le_trans (Nat.le_add_right ..) (layout.within.1 token member))

end SolReader
