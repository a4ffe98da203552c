import Mathlib.Data.List.DropRight
import SolReader.Proofs.Ast.Literals
import SolReader.Proofs.Grammar.Rows

namespace SolReader

open List

namespace Fields

theorem get?_cons (field : String × Value) (fields : Fields) (name : String) :
    get? (field :: fields) name = if name = field.1 then some field.2 else fields.get? name := by
  rw [get?,lookup_cons]
  by_cases same : name = field.1
  · simp [same]
  · simp [same,get?,beq_false_of_ne same]

theorem isSome_get? (fields : Fields) (name : String) : (fields.get? name).isSome = true ↔ name ∈ fields.names := by
  induction fields with
  | nil => simp [get?,names]
  | cons field fields ih =>
    rw [get?_cons,names,map_cons,mem_cons,← names,← ih]
    split <;> simp [*]

theorem get?_replaced (fields : Fields) (name other : String) (value : Value) :
    get? (fields.map fun field => if field.1 == name then (name,value) else field) other =
      if other = name then (fields.get? name).map fun _ => value else fields.get? other := by
  induction fields with
  | nil => simp [get?]
  | cons field fields ih =>
    rw [map_cons,get?_cons,ih,get?_cons,get?_cons]
    by_cases found : field.1 = name
    · simp only [found,beq_self_eq_true,if_true,Option.map_some]
      split <;> rfl
    · have other : ¬name = field.1 := fun same => found same.symm
      simp only [beq_false_of_ne found,Bool.false_eq_true,if_false,other]
      split <;> simp_all

theorem get?_set (fields : Fields) (name other : String) (value : Value) :
    (fields.set name value).get? other = if other = name then some value else fields.get? other := by
  rw [set]
  split
  · rename_i present
    obtain ⟨old,found⟩ := Option.isSome_iff_exists.mp present
    rw [get?_replaced,found,Option.map_some]
  · rename_i missing
    rw [Bool.not_eq_true,Option.isSome_eq_false_iff,Option.isNone_iff_eq_none] at missing
    rw [get?,lookup_append,show List.lookup other [(name,value)] = get? [(name,value)] other from rfl,get?_cons]
    by_cases same : other = name
    · rw [if_pos same,if_pos same,same,show List.lookup name fields = none from missing,Option.none_or]
    · rw [if_neg same,if_neg same,show get? [] other = none from rfl,Option.or_none,get?]

theorem names_set (fields : Fields) (name : String) (value : Value) :
    (fields.set name value).names = if name ∈ fields.names then fields.names else fields.names ++ [name] := by
  simp only [set,isSome_get?]
  split
  · rw [names,map_map,names]
    apply map_congr_left
    intro field _
    by_cases found : field.1 = name <;> simp [found]
  · simp [names]

theorem get?_ofList (pairs : List (String × Value)) (name : String) :
    (ofList pairs).get? name = pairs.reverse.lookup name := by
  induction pairs using List.reverseRecOn with
  | nil => rfl
  | append_singleton pairs pair ih =>
    rw [ofList,foldl_append,← ofList,foldl_cons,foldl_nil,get?_set,ih,reverse_concat,
      lookup_cons]
    by_cases same : name = pair.1
    · simp [same]
    · simp [same,beq_false_of_ne same]

theorem nodup_names_ofList (pairs : List (String × Value)) : (ofList pairs).names.Nodup := by
  induction pairs using List.reverseRecOn with
  | nil => exact .nil
  | append_singleton pairs pair ih =>
    rw [ofList,foldl_append,← ofList,foldl_cons,foldl_nil,names_set]
    split
    · exact ih
    · rename_i missing
      exact concat_eq_append ▸ ih.concat missing

end Fields

namespace Fragment

theorem countP_trimmed (letters : List Char) :
    ((letters.dropWhile (· == '"')).rdropWhile (· == '"')).countP (· != '"') = letters.countP (· != '"') := by
  have front (letters : List Char) : (letters.dropWhile (· == '"')).countP (· != '"') = letters.countP (· != '"') := by
    induction letters with
    | nil => rfl
    | cons letter letters ih =>
      rw [dropWhile_cons]
      split
      · rename_i quote
        rw [ih,countP_cons_of_neg (by simpa using quote)]
      · rfl
  rw [List.rdropWhile,countP_reverse,front,countP_reverse,front]

theorem countP_letters (fragment : Fragment) : fragment.letters.countP (· != '"') =
    fragment.body.countP (· != '"') + 7 * fragment.isUnicode.toNat + 2 * (fragment.quote != '"').toNat := by
  cases unicode : fragment.isUnicode <;> cases single : fragment.quote != '"' <;>
    simp [letters,mark,unicode,countP_append,single]

theorem trimmed_plain {fragment : Fragment} (plain : fragment.isUnicode = false) (double : fragment.quote = '"') :
    (fragment.letters.dropWhile (· == '"')).rdropWhile (· == '"') = fragment.body.rdropWhile (· == '"') := by
  have spelled : fragment.letters = '"' :: (fragment.body ++ ['"']) := by simp [letters,mark,plain,double]
  rw [spelled,dropWhile_cons_of_pos (by rfl)]
  cases body : fragment.body with
  | nil => rfl
  | cons letter rest =>
    have first : letter ≠ '"' := double ▸ (body ▸ fragment.quoted).head_ne (by rw [double]; decide)
    rw [cons_append,dropWhile_cons_of_neg (by simpa using first),← cons_append,
      rdropWhile_concat_pos _ _ _ (by rfl)]

-- Double quotes around a body are taken off, and with them an escaped one at its end.
theorem trimmed_eq_body_iff (fragment : Fragment) :
    (fragment.letters.dropWhile (· == '"')).rdropWhile (· == '"') = fragment.body ↔
      fragment.isUnicode = false ∧ fragment.quote = '"' ∧ fragment.body.getLast? ≠ some '"' := by
  constructor
  · intro same
    have count := congrArg (List.countP (· != '"')) same
    rw [countP_trimmed,countP_letters] at count
    have plain : fragment.isUnicode = false := by
      cases unicode : fragment.isUnicode with
      | false => rfl
      | true =>
        rw [unicode,Bool.toNat_true] at count
        omega
    have double : fragment.quote = '"' := by
      by_contra single
      rw [bne_iff_ne.mpr single,Bool.toNat_true] at count
      omega
    refine ⟨plain,double,?_⟩
    rw [trimmed_plain plain double,rdropWhile_eq_self_iff] at same
    intro ends
    obtain ⟨filled,last⟩ := mem_getLast?_eq_getLast ends
    exact same filled (beq_iff_eq.mpr last.symm)
  · rintro ⟨plain,double,ends⟩
    rw [trimmed_plain plain double,rdropWhile_eq_self_iff]
    intro filled quote
    exact ends (by rw [List.getLast?_eq_getLast_of_ne_nil filled,beq_iff_eq.mp quote])

end Fragment

namespace Tree

variable {tree : Tree} {located : Bool}

-- The name behind the first `as`.
def aliased? (tree : Tree) : Option Tree :=
  (tree.children.dropWhile (·.member != .token .kwAs))[1]?.filter (·.member == .phrase .identifier)

-- A symbol of an import with the alias it is given, if any.
structure Imports (declaration : Tree) (pair : String × Value) : Prop where
  name : (declaration.inner .identifier).head?.map text = some pair.1
  renamed : pair.2 = .ofOption ((declaration.aliased?).map text)

theorem Proper.importDeclaration_alias (proper : tree.Proper .importDeclaration) :
    Yields tree.Imports (Phrase.symbolAlias (tree.understood located)) := by
  obtain ⟨level,derives⟩ := proper.derives
  have row := derives.mem_rows (show Rule.rows _ = some [[.phrase .identifier],
    [.phrase .identifier,.token .kwAs,.phrase .identifier]] by decide)
  rw [Phrase.symbolAlias,parts_understood,all_understood]
  simp only [mem_cons,not_mem_nil,or_false,map_eq_cons_iff,map_eq_nil_iff] at row
  rcases row with ⟨name,_,children,isName,rfl⟩ | ⟨name,_,children,isName,mark,_,rfl,isMark,other,_,rfl,isOther,rfl⟩
  · have names : tree.inner .identifier = [name] := by simp [inner_eq,children,isName]
    rw [names]
    refine .ok ⟨by rw [names]; simp [Part.text],?_⟩
    simp [Part.optionalText,aliased?,children,isName]
  · have names : tree.inner .identifier = [name,other] := by simp [inner_eq,children,isName,isMark,isOther]
    rw [names]
    refine .ok ⟨by rw [names]; simp [Part.text],?_⟩
    simp [Part.optionalText,aliased?,children,isName,isMark,isOther,Option.filter_some,Part.text]

theorem Proper.importPath_fragment (proper : tree.Proper .importPath) :
    ∃ fragment : Fragment, tree.text.toList = fragment.letters := by
  obtain ⟨level,derives⟩ := proper.derives
  have row := derives.mem_rows (show Rule.rows _ = some [[.token .stringFragment]] by decide)
  rw [mem_singleton,map_eq_singleton_iff] at row
  obtain ⟨child,children,sort⟩ := row
  rcases proper.child (children ▸ mem_singleton_self child) with ⟨token,rfl,genuine⟩ | ⟨other,own⟩
  · obtain ⟨fragment,spelled⟩ := genuine.fragment (by simpa [Tree.member] using sort)
    exact ⟨fragment,by rw [toList_text proper.rule_eq,children,flatMap_singleton,text_leaf,spelled]⟩
  · rw [rule?_eq.mp own.rule_eq] at sort
    cases sort

-- A directive names symbols in braces, and has no `as` of its own, or consists of the file, or of all it holds, and an `as`.
theorem Derives.importDirective_rows (derives : Derives .importDirective level tree) :
    (tree.inner .importDeclaration ≠ [] ∧ ∀ child ∈ tree.children, child.member ≠ .token .kwAs) ∨
    tree.children.map member ∈ [ [.token .kwImport,.phrase .importPath,.token .semicolon],
      [.token .kwImport,.phrase .importPath,.token .kwAs,.phrase .identifier,.token .semicolon]] ∨
    ∃ what ∈ [.token .star,.phrase .identifier], tree.children.map member ∈ [
      [.token .kwImport,what,.token .kwFrom,.phrase .importPath,.token .semicolon],
      [.token .kwImport,what,.token .kwAs,.phrase .identifier,.token .kwFrom,.phrase .importPath,.token .semicolon]] := by
  have spells := derives.spelled_alone rfl
  obtain ⟨option,member,chosen⟩ := Form.spells_choice.mp spells
  simp only [mem_cons,not_mem_nil,or_false] at member
  rcases member with rfl | rfl | rfl
  · exact .inr (.inl (chosen.mem_rows (by decide)))
  · have row := chosen.mem_rows (show Form.rows _ _ = some [
      [.token .kwImport,.token .star,.token .kwFrom,.phrase .importPath,.token .semicolon],
      [.token .kwImport,.token .star,.token .kwAs,.phrase .identifier,.token .kwFrom,.phrase .importPath,.token .semicolon],
      [.token .kwImport,.phrase .identifier,.token .kwFrom,.phrase .importPath,.token .semicolon],
      [.token .kwImport,.phrase .identifier,.token .kwAs,.phrase .identifier,.token .kwFrom,.phrase .importPath,.token .semicolon]]
      by decide)
    refine .inr (.inr ?_)
    simpa [or_assoc] using row
  · left
    have least : Form.least (Member.isPhrase .importDeclaration) _ _ ≤ _ := chosen.least_le
    have most := chosen.le_most (show Form.most (· == .token .kwAs) _ _ = some 0 by decide)
    constructor
    · rw [← length_pos_iff,length_inner]
      exact Nat.lt_of_lt_of_le (by decide) least
    · intro child inside isAs
      have counted := countP_eq_zero.mp (Nat.le_zero.mp most) child inside
      simp [isAs] at counted

end Tree

namespace Phrase

-- The alias that the number of parts tells.
def fileAlias (phrase : Phrase) (symbols : List (String × Value)) : Meaning :=
  if !symbols.isEmpty then pure .null else do
    let count ← phrase.count
    if count = 7 || count = 5 then pure (.text (← Part.textAt phrase 3)) else pure .null

theorem importDirective_eq (phrase : Phrase) : phrase.importDirective = (do
    let symbols ← (phrase.allOf .importDeclaration).mapM symbolAlias
    let unit ← phrase.fileAlias symbols
    let path ← Part.textOf (phrase.first? .importPath)
    phrase.node "ImportDirective" [("path",.text (unquoted path)),("symbolAliases",.record (Fields.ofList symbols)),
      ("unitAlias",unit)]) := by
  unfold importDirective fileAlias
  congr 1
  funext symbols
  split
  · rfl
  · cases phrase.count with
    | error fault => rfl
    | ok count =>
      simp only [bind,Except.bind]
      split
      · cases Part.textAt phrase 3 <;> rfl
      · rfl

end Phrase

namespace Tree

variable {path : Tree}
variable {tree : Tree} {located : Bool}

-- The alias of the file: the name behind the own `as`.  Without an `as` the literal of the path takes its place if names
-- are taken `from` the file, unless they stand in braces.
def unitAlias (tree path : Tree) : Value :=
  match tree.aliased? with
  | some name => .text name.text
  | none => if tree.hasToken .kwFrom && (tree.inner .importDeclaration).isEmpty then .text path.text else .null

theorem Proper.importDirective_unit (proper : tree.Proper .importDirective)
    (only : tree.inner .importPath = [path]) {symbols : List (String × Value)}
    (same : symbols.isEmpty = (tree.inner .importDeclaration).isEmpty) :
    (tree.seen located).fileAlias symbols = .ok (tree.unitAlias path) := by
  obtain ⟨level,derives⟩ := proper.derives
  rw [Phrase.fileAlias]
  rcases derives.importDirective_rows with ⟨present,plain⟩ | row | ⟨what,listed,row⟩
  · have missing : tree.aliased? = none := by
      rw [aliased?,dropWhile_eq_nil_iff.mpr (by simpa using plain),List.getElem?_nil,Option.filter_none]
    have filled : symbols.isEmpty = false := by rw [same,isEmpty_eq_false_iff.mpr present]
    rw [unitAlias,missing,← same,filled]
    simp [pure,Except.pure]
  · simp only [mem_cons,not_mem_nil,or_false,map_eq_cons_iff,map_eq_nil_iff] at row
    rcases row with ⟨first,_,children,isFirst,literal,_,rfl,isPath,last,_,rfl,isLast,rfl⟩ |
      ⟨first,_,children,isFirst,literal,_,rfl,isPath,mark,_,rfl,isMark,name,_,rfl,isName,last,_,rfl,isLast,rfl⟩
    · have empty : symbols.isEmpty = true := by simp [same,inner_eq,children,isFirst,isPath,isLast]
      simp [empty,Phrase.count,seen,children,unitAlias,aliased?,hasToken,isFirst,isPath,isLast,bind,Except.bind,pure,
        Except.pure]
    · have empty : symbols.isEmpty = true := by simp [same,inner_eq,children,isFirst,isPath,isMark,isName,isLast]
      simp [empty,Phrase.count,seen,children,unitAlias,aliased?,isFirst,isPath,isMark,isName,Option.filter_some,Part.textAt,Phrase.child?,
        Part.textOf,Part.text,bind,Except.bind,pure,Except.pure]
  · have other : what ≠ .token .kwAs ∧ what ≠ .phrase .importPath ∧ what ≠ .phrase .importDeclaration := by
      simp only [mem_cons,not_mem_nil,or_false] at listed
      rcases listed with rfl | rfl <;> simp
    simp only [mem_cons,not_mem_nil,or_false,map_eq_cons_iff,map_eq_nil_iff] at row
    rcases row with ⟨first,_,children,isFirst,taken,_,rfl,rfl,source,_,rfl,isSource,literal,_,rfl,isPath,last,_,
      rfl,isLast,rfl⟩ | ⟨first,_,children,isFirst,taken,_,rfl,rfl,mark,_,rfl,isMark,name,_,rfl,isName,source,_,
      rfl,isSource,literal,_,rfl,isPath,last,_,rfl,isLast,rfl⟩
    · have empty : symbols.isEmpty = true := by simp [same,inner_eq,children,isFirst,other,isSource,isPath,isLast]
      obtain rfl : literal = path := by simpa [inner_eq,children,isFirst,other,isSource,isPath,isLast] using only
      simp [empty,Phrase.count,seen,children,unitAlias,aliased?,isFirst,other,isSource,isPath,isLast,Part.textAt,
        Phrase.child?,Part.textOf,Part.text,bind,Except.bind,pure,Except.pure,hasToken,← same]
    · have empty : symbols.isEmpty = true := by simp [same,inner_eq,children,isFirst,other,isMark,isName,isSource,isPath,isLast]
      simp [empty,Phrase.count,seen,children,unitAlias,aliased?,isFirst,other,isMark,isName,Option.filter_some,Part.textAt,Phrase.child?,
        Part.textOf,Part.text,bind,Except.bind,pure,Except.pure]

theorem Proper.importDirective_node (proper : tree.Proper .importDirective)
    (only : tree.inner .importPath = [path]) :
    Yields (Value.IsNode fun node => Value.isOf ["ImportDirective"] node = true ∧
      node.get? "path" = some (.text (Phrase.unquoted path.text)) ∧ node.get? "unitAlias" = some (tree.unitAlias path) ∧
      ∃ pairs, List.Forall₂ Imports (tree.inner .importDeclaration) pairs ∧
        node.get? "symbolAliases" = some (.record (Fields.ofList pairs))) (tree.meaning located) := by
  have first : (tree.seen located).first? .importPath = some (path.understood located) := by
    rw [Phrase.first?,show (tree.seen located).allOf .importPath = _ from all_understood located _ tree,only]
    rfl
  rw [meaning_seen proper.rule_eq,Phrase.meaning,Phrase.importDirective_eq,
    show (tree.seen located).allOf .importDeclaration = _ from all_understood located _ tree,first]
  refine (Yields.paired _).bind fun pairs paired => ?_
  have imports : List.Forall₂ Imports (tree.inner .importDeclaration) pairs := by
    rw [forall₂_map_left_iff] at paired
    refine ((forall₂_and_left _ _).mpr ⟨fun _ inside => proper.inner inside,paired⟩).imp ?_
    rintro declaration pair ⟨own,made⟩
    exact own.importDeclaration_alias pair made
  have same : pairs.isEmpty = (tree.inner .importDeclaration).isEmpty := by
    rw [Bool.eq_iff_iff,isEmpty_iff_length_eq_zero,isEmpty_iff_length_eq_zero,imports.length_eq]
  rw [proper.importDirective_unit only same]
  refine Phrase.yields_node fun place placed _ => ⟨_,rfl,rfl,?_,?_,pairs,imports,?_⟩
  · rw [Fields.get?_made placed (by decide) (by decide)]
    simp [Part.text,Fields.get?]
  · exact Fields.get?_made placed (by decide) (by decide)
  · exact Fields.get?_made placed (by decide) (by decide)

end Tree

-- In a text read without complaint, an import keeps its path only in plain double quotes.  Its alias is the name behind its
-- own `as`, or else the literal of the path if it takes names `from` a file without braces.  Its symbols have their aliases,
-- the last of each name.
theorem parse_imports {text start : String} {located : Bool} {rule : Rule} (known : Rule.ofName? start = some rule)
    (clean : (parse text start located).2 = []) {phrase : Tree}
    (inside : phrase ∈ (Reading.ofText rule text).tree.phrases) (found : phrase.rule? = some .importDirective) :
    ∃ (node : Fields) (literal : Tree) (fragment : Fragment) (path : String) (pairs symbols : Fields),
      phrase.meaning located = .ok (.node node) ∧ Value.isOf ["ImportDirective"] node = true ∧
      phrase.inner .importPath = [literal] ∧ literal.text.toList = fragment.letters ∧
      node.get? "path" = some (.text path) ∧
      path.toList = (fragment.letters.dropWhile (· == '"')).rdropWhile (· == '"') ∧
      (path.toList = fragment.body ↔
        fragment.isUnicode = false ∧ fragment.quote = '"' ∧ fragment.body.getLast? ≠ some '"') ∧
      node.get? "unitAlias" = some (match phrase.aliased? with
        | some name => .text name.text
        | none => if phrase.hasToken .kwFrom && (phrase.inner .importDeclaration).isEmpty then .text literal.text else .null) ∧
      node.get? "symbolAliases" = some (.record symbols) ∧ symbols.names.Nodup ∧
      List.Forall₂ Tree.Imports (phrase.inner .importDeclaration) pairs ∧
      ∀ name, symbols.get? name = pairs.reverse.lookup name := by
  rw [parse_known known] at clean
  obtain ⟨_,proper⟩ := (Reading.ofText_proper clean).phrases inside
  cases proper.same found
  obtain ⟨literal,only,_⟩ := proper.only_child (show 0 < Rule.least _ (Member.isPhrase .importPath) by decide) (by decide) false
  obtain ⟨fragment,spelled⟩ := (proper.inner (only ▸ mem_singleton_self literal)).importPath_fragment
  obtain ⟨_,means⟩ := Reading.phrase_means clean inside found nofun nofun (proper.clear rfl) located
  obtain ⟨node,rfl,sort,path,unit,pairs,imports,symbols⟩ := proper.importDirective_node only _ means
  have trimmed : (Phrase.unquoted literal.text).toList = (fragment.letters.dropWhile (· == '"')).rdropWhile (· == '"') := by
    rw [Phrase.unquoted,String.toList_ofList,spelled,List.rdropWhile]
  exact ⟨node,literal,fragment,_,pairs,_,means,sort,only,spelled,path,trimmed,
    trimmed ▸ fragment.trimmed_eq_body_iff,unit,symbols,Fields.nodup_names_ofList pairs,imports,Fields.get?_ofList pairs⟩

-- Single quotes stay, and the literal is taken for an alias.
def namesFrom : String := "import a from'b';"

set_option maxRecDepth 100000 in
theorem namesFrom_read : ((Reading.ofText .importDirective namesFrom).diagnostics.isEmpty &&
    (fun tree : Tree => (tree.inner .importPath).map Tree.text == ["'b'"] && tree.aliased?.isNone &&
      (tree.hasToken .kwFrom && (tree.inner .importDeclaration).isEmpty)) (Reading.ofText .importDirective namesFrom).tree) =
    true := by
  decide +kernel

theorem namesFrom_kept : (parse namesFrom "importDirective" false).2 = [] ∧ ∃ node : Fields,
    (parse namesFrom "importDirective" false).1 = .ok (.node node) ∧
    node.get? "path" = some (.text "'b'") ∧ node.get? "unitAlias" = some (.text "'b'") := by
  have known : Rule.ofName? "importDirective" = some .importDirective := by decide
  have read := namesFrom_read
  rw [Bool.and_eq_true,List.isEmpty_iff,Bool.and_eq_true,Bool.and_eq_true,beq_iff_eq,Option.isNone_iff_eq_none] at read
  obtain ⟨whole,⟨paths,absent⟩,source⟩ := read
  have clean : (parse namesFrom "importDirective" false).2 = [] := by rw [parse_known known,whole]
  have found := (Reading.ofText_proper whole).rule_eq
  obtain ⟨node,literal,fragment,path,_,_,means,_,only,spelled,isPath,trimmed,_,unit,_⟩ :=
    parse_imports known clean (Tree.self_mem found) found
  have same : literal.text = "'b'" := by simpa [only] using paths
  rw [← spelled,same] at trimmed
  rw [absent,source,same] at unit
  refine ⟨clean,node,by rw [parse_known known]; exact means,?_,unit⟩
  rw [isPath,String.toList_inj.mp (trimmed.trans (by decide : _ = "'b'".toList))]

end SolReader
