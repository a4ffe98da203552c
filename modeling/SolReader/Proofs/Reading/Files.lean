import Mathlib.Data.List.Forall2
import SolReader.Session

namespace SolReader

open List

namespace Utf8

-- The bytes of one character, each by the least and the greatest value that it can have.  No character has a longer form
-- than it needs, and surrogates and numbers past the last plane have none.
def forms : List (List (Nat × Nat)) :=
  [[(0x00,0x7f)],
   [(0xc2,0xdf),(0x80,0xbf)],
   [(0xe0,0xe0),(0xa0,0xbf),(0x80,0xbf)],
   [(0xe1,0xec),(0x80,0xbf),(0x80,0xbf)],
   [(0xed,0xed),(0x80,0x9f),(0x80,0xbf)],
   [(0xee,0xef),(0x80,0xbf),(0x80,0xbf)],
   [(0xf0,0xf0),(0x90,0xbf),(0x80,0xbf),(0x80,0xbf)],
   [(0xf1,0xf3),(0x80,0xbf),(0x80,0xbf),(0x80,0xbf)],
   [(0xf4,0xf4),(0x80,0x8f),(0x80,0xbf),(0x80,0xbf)]]

def InRange (range : Nat × Nat) (byte : UInt8) : Prop :=
  range.1 ≤ byte.toNat ∧ byte.toNat ≤ range.2

-- The bytes of some characters, one after the other.
inductive WellFormed : List UInt8 → Prop where
  | nil : WellFormed []
  | character {form : List (Nat × Nat)} {bytes rest : List UInt8} (listed : form ∈ forms)
      (fits : List.Forall₂ InRange form bytes) (more : WellFormed rest) : WellFormed (bytes ++ rest)

theorem encode_fits (c : Char) : ∃ form ∈ forms, List.Forall₂ InRange form (String.utf8EncodeChar c) := by
  have valid : c.val.toNat < 0xd800 ∨ 0xdfff < c.val.toNat ∧ c.val.toNat < 0x110000 := c.valid
  simp only [forms,mem_cons,not_mem_nil,or_false,exists_eq_or_imp,exists_eq_left,String.utf8EncodeChar]
  generalize c.val.toNat = code at valid
  split
  · simp [InRange]
    omega
  · split
    · simp [InRange]
      omega
    · split
      · simp [InRange]
        omega
      · simp [InRange]
        omega

section Decode

variable {one two three four : UInt8}

theorem exists_code (code : Nat) (valid : code < 0xd800 ∨ 0xdfff < code ∧ code < 0x110000) :
    ∃ c : Char, c.val.toNat = code :=
  ⟨Char.ofNatAux code valid,rfl⟩

theorem ofNat_eq {code : Nat} {byte : UInt8} (same : code = byte.toNat) : UInt8.ofNat code = byte := by
  rw [same,UInt8.ofNat_toNat]

theorem exists_two (first : InRange (0xc2,0xdf) one) (second : InRange (0x80,0xbf) two) :
    ∃ c, String.utf8EncodeChar c = [one,two] := by
  simp only [InRange] at first second
  obtain ⟨c,code⟩ := exists_code (64 * (one.toNat - 0xc0) + (two.toNat - 0x80)) (by omega)
  refine ⟨c,?_⟩
  simp only [String.utf8EncodeChar,code]
  rw [if_neg (by omega),if_pos (by omega),@ofNat_eq _ one (by omega),@ofNat_eq _ two (by omega)]

theorem exists_three (first : InRange (0xe0,0xef) one) (second : InRange (0x80,0xbf) two)
    (third : InRange (0x80,0xbf) three) (needed : one.toNat = 0xe0 → 0xa0 ≤ two.toNat)
    (scalar : one.toNat = 0xed → two.toNat ≤ 0x9f) : ∃ c, String.utf8EncodeChar c = [one,two,three] := by
  simp only [InRange] at first second third
  obtain ⟨c,code⟩ := exists_code
    (4096 * (one.toNat - 0xe0) + 64 * (two.toNat - 0x80) + (three.toNat - 0x80)) (by omega)
  refine ⟨c,?_⟩
  simp only [String.utf8EncodeChar,code]
  rw [if_neg (by omega),if_neg (by omega),if_pos (by omega),@ofNat_eq _ one (by omega),@ofNat_eq _ two (by omega),
    @ofNat_eq _ three (by omega)]

theorem exists_four (first : InRange (0xf0,0xf4) one) (second : InRange (0x80,0xbf) two)
    (third : InRange (0x80,0xbf) three) (fourth : InRange (0x80,0xbf) four) (needed : one.toNat = 0xf0 → 0x90 ≤ two.toNat)
    (planes : one.toNat = 0xf4 → two.toNat ≤ 0x8f) : ∃ c, String.utf8EncodeChar c = [one,two,three,four] := by
  simp only [InRange] at first second third fourth
  obtain ⟨c,code⟩ := exists_code (262144 * (one.toNat - 0xf0) + 4096 * (two.toNat - 0x80) +
    64 * (three.toNat - 0x80) + (four.toNat - 0x80)) (by omega)
  refine ⟨c,?_⟩
  simp only [String.utf8EncodeChar,code]
  rw [if_neg (by omega),if_neg (by omega),if_neg (by omega),@ofNat_eq _ one (by omega),@ofNat_eq _ two (by omega),
    @ofNat_eq _ three (by omega),@ofNat_eq _ four (by omega)]

theorem exists_encoded (listed : form ∈ forms)
    (fits : List.Forall₂ InRange form bytes) : ∃ c, String.utf8EncodeChar c = bytes := by
  match bytes with
  | [] | _ :: _ :: _ :: _ :: _ :: _ =>
    simp [forms] at listed
    rcases listed with rfl | rfl | rfl | rfl | rfl | rfl | rfl | rfl | rfl <;> simp at fits
  | [one] =>
    have range : InRange (0x00,0x7f) one := by
      simp [forms] at listed
      rcases listed with rfl | rfl | rfl | rfl | rfl | rfl | rfl | rfl | rfl <;> simp_all [InRange]
    obtain ⟨c,code⟩ := exists_code one.toNat (by simp only [InRange] at range; omega)
    exact ⟨c,by simp only [String.utf8EncodeChar,code,if_pos range.2,UInt8.ofNat_toNat]⟩
  | [one,two] =>
    simp [forms] at listed
    rcases listed with rfl | rfl | rfl | rfl | rfl | rfl | rfl | rfl | rfl <;> simp at fits
    exact exists_two fits.1 fits.2
  | [one,two,three] =>
    simp [forms] at listed
    rcases listed with rfl | rfl | rfl | rfl | rfl | rfl | rfl | rfl | rfl <;> simp [InRange] at fits <;>
      exact exists_three (by simp only [InRange]; omega) (by simp only [InRange]; omega) (by simp only [InRange]; omega)
        (by omega) (by omega)
  | [one,two,three,four] =>
    simp [forms] at listed
    rcases listed with rfl | rfl | rfl | rfl | rfl | rfl | rfl | rfl | rfl <;> simp [InRange] at fits <;>
      exact exists_four (by simp only [InRange]; omega) (by simp only [InRange]; omega) (by simp only [InRange]; omega)
        (by simp only [InRange]; omega) (by omega) (by omega)

end Decode

theorem wellFormed_iff : WellFormed bytes ↔ ∃ text : List Char, text.flatMap String.utf8EncodeChar = bytes := by
  constructor
  · intro formed
    induction formed with
    | nil => exact ⟨[],rfl⟩
    | character listed fits _ ih =>
      obtain ⟨c,rfl⟩ := exists_encoded listed fits
      obtain ⟨text,rfl⟩ := ih
      exact ⟨c :: text,flatMap_cons⟩
  · rintro ⟨text,rfl⟩
    induction text with
    | nil => exact .nil
    | cons c text ih =>
      obtain ⟨form,listed,fits⟩ := encode_fits c
      rw [flatMap_cons]
      exact .character listed fits ih

theorem isValidUTF8_iff (content : ByteArray) : content.IsValidUTF8 ↔ WellFormed content.data.toList := by
  rw [wellFormed_iff]
  constructor
  · rintro ⟨text,rfl⟩
    exact ⟨text,by rw [List.utf8Encode,data_toByteArray]⟩
  · rintro ⟨text,same⟩
    exact ⟨text,by rw [List.utf8Encode,same]; ext1; simp⟩

end Utf8

namespace Text

variable {rest : List Char} {c : Char}

-- Puts `new` in place of every `old`, from left to right.
def replaced (old new : List Char) : List Char → List Char
  | [] => []
  | c :: rest =>
    if old.isPrefixOf (c :: rest) then new ++ replaced old new (rest.drop (old.length - 1)) else c :: replaced old new rest
termination_by text => text.length

-- Line ends with a carriage return: a line feed gets one, unless it has one.
def withReturns : List Char → List Char
  | [] => []
  | '\r' :: '\n' :: rest => '\r' :: '\n' :: withReturns rest
  | c :: rest => if c == '\n' then '\r' :: '\n' :: withReturns rest else c :: withReturns rest

theorem replaced_skip {old : List Char} (absent : old.isPrefixOf (c :: rest) = false) :
    replaced old new (c :: rest) = c :: replaced old new rest := by
  rw [replaced,if_neg (by simp [absent])]

theorem unifyLineEnds_cons (single : c = '\r' → rest.head? ≠ some '\n') :
    unifyLineEnds (c :: rest) = (if c == '\r' then '\n' else c) :: unifyLineEnds rest := by
  rw [unifyLineEnds]
  rintro others rfl rfl
  exact single rfl rfl

theorem withReturns_head (text : List Char) : (withReturns text).head? ≠ some '\n' := by
  fun_cases withReturns text with
  | case1 => simp
  | case2 => simp
  | case3 => simp
  | case4 c rest _ other => simpa using other

theorem unifyLineEnds_eq (text : List Char) :
    unifyLineEnds text = replaced ['\r'] ['\n'] (replaced ['\r','\n'] ['\n'] text) := by
  fun_induction unifyLineEnds text with
  | case1 => simp [replaced]
  | case2 rest ih => simp [replaced,ih]
  | case3 c rest other ih =>
    have single : ['\r','\n'].isPrefixOf (c :: rest) = false := by
      refine Bool.eq_false_iff.mpr fun begins => ?_
      obtain ⟨others,same⟩ := isPrefixOf_iff_prefix.mp begins
      obtain ⟨first,second⟩ := List.cons.inj same
      exact other others first.symm second.symm
    rw [replaced_skip single,ih]
    by_cases carriage : c = '\r'
    · subst carriage
      rw [replaced]
      rfl
    · rw [replaced_skip (by simp [List.isPrefixOf,Ne.symm carriage]),if_neg (by simpa using carriage)]

theorem unifyLineEnds_withReturns (text : List Char) : unifyLineEnds (withReturns text) = unifyLineEnds text := by
  fun_induction withReturns text with
  | case1 => rfl
  | case2 rest ih => rw [unifyLineEnds,unifyLineEnds,ih]
  | case3 c rest _ same ih =>
    cases beq_iff_eq.mp same
    rw [unifyLineEnds,ih,unifyLineEnds_cons (by simp)]
    rfl
  | case4 c rest other _ ih =>
    rw [unifyLineEnds_cons fun _ => withReturns_head rest,ih,unifyLineEnds_cons]
    rintro rfl next
    cases rest with
    | nil => cases next
    | cons first rest => exact other rest rfl (by rw [Option.some.inj next])

end Text

theorem readText_encoded (text : String) : readText text.toUTF8 = .ok (String.ofList (unifyLineEnds text.toList)) := by
  have valid : text.toUTF8.IsValidUTF8 := text.isValidUTF8
  rw [readText,String.fromUTF8?,dif_pos valid]
  rfl

theorem readText_refused (content : ByteArray) :
    readText content = .error .badEncoding ↔ ¬Utf8.WellFormed content.data.toList := by
  rw [← Utf8.isValidUTF8_iff,readText,String.fromUTF8?]
  split
  · rename_i found
    split at found
    · simp_all
    · cases found
  · rename_i missing
    split at missing
    · cases missing
    · simp_all

-- Reading a file is reading the text whose encoding it holds, with line feeds for line ends; so it makes no difference
-- whether its line feeds come with carriage returns.  A file that is not well formed is refused before anything is read.
theorem parseFile_agrees (session : Session) (start : String) (located : Bool) :
    (∀ text : String,
      let read := String.ofList (Text.replaced ['\r'] ['\n'] (Text.replaced ['\r','\n'] ['\n'] text.toList))
      parseFile (some text.toUTF8) start located = parse read start located ∧
        session.parseFile (some text.toUTF8) start located = session.parse read start located) ∧
    (∀ text : String,
      let copy := String.ofList (Text.withReturns text.toList)
      parseFile (some copy.toUTF8) start located = parseFile (some text.toUTF8) start located ∧
        session.parseFile (some copy.toUTF8) start located = session.parseFile (some text.toUTF8) start located) ∧
    ∀ content : ByteArray, ¬Utf8.WellFormed content.data.toList →
      parseFile (some content) start located = (.error .badEncoding,[]) ∧
        session.parseFile (some content) start located = (session,.error .badEncoding,[]) := by
  refine ⟨fun text => ?_,fun text => ?_,fun content broken => ?_⟩
  · rw [← Text.unifyLineEnds_eq]
    simp only [parseFile,Session.parseFile,readText_encoded]
    exact ⟨trivial,trivial⟩
  · simp only [parseFile,Session.parseFile,readText_encoded,String.toList_ofList,Text.unifyLineEnds_withReturns]
    exact ⟨trivial,trivial⟩
  · simp only [parseFile,Session.parseFile,(readText_refused content).mpr broken]
    exact ⟨trivial,trivial⟩

-- A slash in a longer form than it needs, which no text is encoded to.
def overlongSlash : ByteArray := ⟨#[0xc0,0xaf]⟩

theorem overlongSlash_refused : ¬Utf8.WellFormed overlongSlash.data.toList ∧
    parseFile (some overlongSlash) "sourceUnit" true = (.error .badEncoding,[]) ∧
    (Session.start.parseFile (some overlongSlash) "sourceUnit" true).1.located = false := by
  have broken : ¬Utf8.WellFormed overlongSlash.data.toList :=
    (Utf8.isValidUTF8_iff overlongSlash).not.mp (by decide)
  obtain ⟨refused,unchanged⟩ := (parseFile_agrees .start "sourceUnit" true).2.2 overlongSlash broken
  exact ⟨broken,refused,by rw [unchanged]; rfl⟩

end SolReader
