import SolReader.Proofs.KindSet
import SolReader.Proofs.Grammar.Derivation

namespace SolReader

open List

-- The level of an operator between operands: of two operators the one with the higher level binds more tightly.
def Kind.binding? : Kind → Option Nat
  | .starStar => some 14
  | .star | .slash | .percent => some 13
  | .plus | .minus => some 12
  | .shl | .shr => some 11
  | .amp => some 10
  | .caret => some 9
  | .pipe => some 8
  | .lt | .gt | .le | .ge => some 7
  | .eqEq | .bangEq => some 6
  | .andAnd => some 5
  | .orOr => some 4
  | .question => some 3
  | .assign | .pipeAssign | .caretAssign | .ampAssign | .shlAssign | .shrAssign | .plusAssign | .minusAssign
  | .starAssign | .slashAssign | .percentAssign => some 2
  | _ => none

open SolReader.Tree (Derives)

namespace Expression

def prefixKinds : List Kind :=
  [.plusPlus,.minusMinus,.plus,.minus,.kwAfter,.kwDelete,.bang,.tilde]

def stepKinds : List Kind := [.plusPlus,.minusMinus]

def binaryKinds : List Kind :=
  [.starStar,.star,.slash,.percent,.plus,.minus,.shl,.shr,.amp,.caret,.pipe,.ge,.gt,.lt,.le,.eqEq,.bangEq,
   .andAnd,.orOr,.assign,.pipeAssign,.caretAssign,.ampAssign,.shlAssign,.shrAssign,.plusAssign,.minusAssign,
   .starAssign,.slashAssign,.percentAssign]

-- The parts of an expression that is read with a level; what is accepted as a part that is no token is left open.
inductive Made (accepts : Rule → Nat → Tree → Prop) (level : Nat) : List Tree → Prop where
  | primary {tree : Tree} (accepted : accepts .primaryExpression 0 tree) : Made accepts level [tree]
  | creation {word : Token} {type : Tree} (new : word.kind = .kwNew) (accepted : accepts .typeName 0 type) :
      Made accepts level [.leaf word,type]
  | parentheses {opening closing : Token} {inner : Tree} (left : opening.kind = .lparen) (right : closing.kind = .rparen)
      (accepted : accepts .expression 0 inner) : Made accepts level [.leaf opening,inner,.leaf closing]
  | before {operator : Token} {operand : Tree} {bound : Nat} (kind : operator.kind ∈ prefixKinds)
      (accepted : accepts .expression bound operand) (tight : 15 ≤ bound ∧ bound ≤ 19) :
      Made accepts level [.leaf operator,operand]
  | after {operator : Token} {operand : Tree} (kind : operator.kind ∈ stepKinds)
      (accepted : accepts .expression level operand) : Made accepts level [operand,.leaf operator]
  | between {operator : Token} {left right : Tree} {bound : Nat} (kind : operator.kind ∈ binaryKinds)
      (first : accepts .expression level left) (second : accepts .expression (bound + 1) right)
      (binds : operator.kind.binding? = some bound) (within : level ≤ bound) : Made accepts level [left,.leaf operator,right]
  | conditional {question colon : Token} {condition yes no : Tree} (asks : question.kind = .question)
      (divides : colon.kind = .colon) (first : accepts .expression level condition) (second : accepts .expression 0 yes)
      (third : accepts .expression 4 no) (within : level ≤ 3) :
      Made accepts level [condition,.leaf question,yes,.leaf colon,no]
  | index {opening closing : Token} {base place : Tree} (left : opening.kind = .lbracket)
      (right : closing.kind = .rbracket) (first : accepts .expression level base)
      (second : accepts .expression 0 place) : Made accepts level [base,.leaf opening,place,.leaf closing]
  | slice {opening colon closing : Token} {base : Tree} {start stop : List Tree} (left : opening.kind = .lbracket)
      (divides : colon.kind = .colon) (right : closing.kind = .rbracket) (first : accepts .expression level base) :
      Made accepts level ([base,.leaf opening] ++ start ++ [.leaf colon] ++ stop ++ [.leaf closing])
  | member {dot : Token} {base name : Tree} (kind : dot.kind = .dot) (first : accepts .expression level base)
      (second : accepts .identifier 0 name) : Made accepts level [base,.leaf dot,name]
  | options {opening closing : Token} {callee list : Tree} (left : opening.kind = .lbrace)
      (right : closing.kind = .rbrace) (first : accepts .expression level callee) :
      Made accepts level [callee,.leaf opening,list,.leaf closing]
  | call {opening closing : Token} {callee arguments : Tree} (left : opening.kind = .lparen)
      (right : closing.kind = .rparen) (first : accepts .expression level callee)
      (second : accepts .functionCallArguments 0 arguments) :
      Made accepts level [callee,.leaf opening,arguments,.leaf closing]

attribute [grind =] Form.row

section Options

variable {form option : Form Unit} {kinds : List Kind}
variable {accepts : Rule → Nat → Tree → Prop} {level bound : Nat} {trees : List Tree}

-- The form is a token of one of these kinds.
def Takes (accepts : Rule → Nat → Tree → Prop) (level : Nat) (form : Form Unit) (kinds : List Kind) : Prop :=
  ∀ trees, form.Spells accepts .expression level trees → ∃ token, token.kind ∈ kinds ∧ trees = [.leaf token]

theorem tok_takes (kind : Kind) : Takes accepts level (.tok kind) [kind] := by
  intro trees spells
  obtain ⟨token,same,split⟩ := Form.spells_token.mp spells
  exact ⟨token,mem_singleton.mpr same,split⟩

theorem among_takes (kinds : List Kind) : Takes accepts level (.among kinds) kinds := by
  intro trees spells
  obtain ⟨token,member,split⟩ := Form.spells_oneOf.mp spells
  exact ⟨token,by simpa using member,split⟩

theorem made_between (takes : Takes accepts level form kinds)
    (spells : (Form.suffix bound [form,Form.subAt .expression (bound + 1)]).Spells accepts .expression level trees)
    (listed : ∀ kind ∈ kinds, kind ∈ binaryKinds ∧ kind.binding? = some bound) : Made accepts level trees := by
  simp only [Form.suffix,Form.row,Form.subAt,Form.spells_seq,Form.spells_wrap,Form.spells_call] at spells
  obtain ⟨_,_,⟨left,within,first,rfl⟩,⟨_,_,one,⟨right,second,rfl⟩,rfl⟩,rfl⟩ := spells
  obtain ⟨operator,kind,rfl⟩ := takes _ one
  exact .between (listed _ kind).1 first second (listed _ kind).2 within

theorem made_before (takes : Takes accepts level form kinds)
    (spells : (Form.row [form,Form.subAt .expression bound]).Spells accepts .expression level trees)
    (listed : ∀ kind ∈ kinds, kind ∈ prefixKinds) (tight : 15 ≤ bound ∧ bound ≤ 19) : Made accepts level trees := by
  simp only [Form.row,Form.subAt,Form.spells_seq,Form.spells_call] at spells
  obtain ⟨_,_,one,⟨operand,accepted,rfl⟩,rfl⟩ := spells
  obtain ⟨operator,kind,rfl⟩ := takes _ one
  exact .before (listed _ kind) accepted tight

theorem made_binary (member : option ∈ Rule.binaryOperators)
    (spells : option.Spells accepts .expression level trees) : Made accepts level trees := by
  simp only [Rule.binaryOperators,mem_cons,not_mem_nil,or_false] at member
  rcases member with rfl | rfl | rfl | rfl | rfl | rfl | rfl | rfl | rfl | rfl | rfl | rfl | rfl
  · exact made_between (tok_takes _) spells (by decide)
  · exact made_between (among_takes _) spells (by decide)
  · exact made_between (among_takes _) spells (by decide)
  · exact made_between (among_takes _) spells (by decide)
  · exact made_between (tok_takes _) spells (by decide)
  · exact made_between (tok_takes _) spells (by decide)
  · exact made_between (tok_takes _) spells (by decide)
  · exact made_between (among_takes _) spells (by decide)
  · exact made_between (among_takes _) spells (by decide)
  · exact made_between (tok_takes _) spells (by decide)
  · exact made_between (tok_takes _) spells (by decide)
  · simp only [Form.suffix,Form.row,Form.tok,Form.sub,Form.subAt,Form.spells_seq,Form.spells_wrap,
      Form.spells_token,Form.spells_call] at spells
    obtain ⟨_,_,⟨condition,within,first,rfl⟩,⟨_,_,⟨question,asks,rfl⟩,⟨_,_,⟨yes,second,rfl⟩,⟨_,_,
      ⟨colon,divides,rfl⟩,⟨no,third,rfl⟩,rfl⟩,rfl⟩,rfl⟩,rfl⟩ := spells
    exact .conditional asks divides first second third within
  · exact made_between (among_takes _) spells (by decide)

theorem made_postfix (member : option ∈ Rule.postfixForms)
    (spells : option.Spells accepts .expression level trees) : Made accepts level trees := by
  simp only [Rule.postfixForms,mem_cons,not_mem_nil,or_false] at member
  rcases member with rfl | rfl | rfl | rfl | rfl | rfl <;>
    simp only [Form.suffix,Form.row,Form.tok,Form.among,Form.sub,Form.opt,Form.spells_seq,Form.spells_wrap,
      Form.spells_token,Form.spells_oneOf,Form.spells_call,KindSet.contains_ofList,decide_eq_true_eq] at spells
  · obtain ⟨_,_,⟨operand,_,accepted,rfl⟩,⟨operator,kind,rfl⟩,rfl⟩ := spells
    exact .after kind accepted
  · obtain ⟨_,_,⟨base,_,first,rfl⟩,⟨_,_,⟨opening,left,rfl⟩,⟨_,_,⟨place,second,rfl⟩,
      ⟨closing,right,rfl⟩,rfl⟩,rfl⟩,rfl⟩ := spells
    exact .index left right first second
  · obtain ⟨_,_,⟨base,_,first,rfl⟩,⟨_,_,⟨opening,left,rfl⟩,⟨start,_,_,⟨_,_,⟨colon,divides,rfl⟩,
      ⟨stop,_,_,⟨closing,right,rfl⟩,rfl⟩,rfl⟩,rfl⟩,rfl⟩,rfl⟩ := spells
    have sliced : Made accepts level ([base,.leaf opening] ++ start ++ [.leaf colon] ++ stop ++ [.leaf closing]) :=
      .slice left divides right first
    simpa using sliced
  · obtain ⟨_,_,⟨base,_,first,rfl⟩,⟨_,_,⟨dot,kind,rfl⟩,⟨name,second,rfl⟩,rfl⟩,rfl⟩ := spells
    exact .member kind first second
  · obtain ⟨_,_,⟨callee,_,first,rfl⟩,⟨_,_,⟨opening,left,rfl⟩,⟨_,_,⟨list,_,rfl⟩,
      ⟨closing,right,rfl⟩,rfl⟩,rfl⟩,rfl⟩ := spells
    exact .options left right first
  · obtain ⟨_,_,⟨callee,_,first,rfl⟩,⟨_,_,⟨opening,left,rfl⟩,⟨_,_,⟨arguments,second,rfl⟩,
      ⟨closing,right,rfl⟩,rfl⟩,rfl⟩,rfl⟩ := spells
    exact .call left right first second

-- The forms of an expression that begins with no other expression.
def starts : List (Form Unit) := [
  .row [.tok .kwNew,.sub .typeName],
  .row [.tok .lparen,.sub .expression,.tok .rparen],
  .row [.among [.plusPlus,.minusMinus],.subAt .expression 19],
  .row [.among [.plus,.minus],.subAt .expression 18],
  .row [.among [.kwAfter,.kwDelete],.subAt .expression 17],
  .row [.tok .bang,.subAt .expression 16],
  .row [.tok .tilde,.subAt .expression 15],
  .sub .primaryExpression]

theorem variants_eq : Rule.expression.variants =
    [.pick starts,.pick (Rule.binaryOperators ++ Rule.postfixForms)] := rfl

theorem made_start (member : option ∈ starts) (spells : option.Spells accepts .expression level trees) :
    Made accepts level trees := by
  simp only [starts,mem_cons,not_mem_nil,or_false] at member
  rcases member with rfl | rfl | rfl | rfl | rfl | rfl | rfl | rfl
  · simp only [Form.row,Form.tok,Form.sub,Form.spells_seq,Form.spells_token,Form.spells_call] at spells
    obtain ⟨_,_,⟨word,new,rfl⟩,⟨type,accepted,rfl⟩,rfl⟩ := spells
    exact .creation new accepted
  · simp only [Form.row,Form.tok,Form.sub,Form.spells_seq,Form.spells_token,Form.spells_call] at spells
    obtain ⟨_,_,⟨opening,left,rfl⟩,⟨_,_,⟨inner,accepted,rfl⟩,⟨closing,right,rfl⟩,rfl⟩,rfl⟩ := spells
    exact .parentheses left right accepted
  · exact made_before (among_takes _) spells (by decide) (by omega)
  · exact made_before (among_takes _) spells (by decide) (by omega)
  · exact made_before (among_takes _) spells (by decide) (by omega)
  · exact made_before (tok_takes _) spells (by decide) (by omega)
  · exact made_before (tok_takes _) spells (by decide) (by omega)
  · obtain ⟨tree,accepted,rfl⟩ := Form.spells_call.mp spells
    exact .primary accepted

theorem spells_made {variant : Form Unit} (listed : variant ∈ Rule.expression.variants)
    (spells : variant.Spells accepts .expression level trees) : Made accepts level trees := by
  rw [variants_eq,mem_cons,mem_singleton] at listed
  rcases listed with rfl | rfl
  · obtain ⟨option,member,chosen⟩ := Form.spells_choice.mp spells
    exact made_start member chosen
  · obtain ⟨option,member,chosen⟩ := Form.spells_choice.mp spells
    rcases mem_append.mp member with binary | later
    · exact made_binary binary chosen
    · exact made_postfix later chosen

end Options

theorem derives_made (derives : Derives .expression level tree) : Made Derives level tree.children := by
  obtain ⟨variant,listed,spells⟩ := derives.spelled
  exact spells_made listed spells

end Expression

namespace Primary

variable {level : Nat}

inductive Made : List Tree → Prop where
  | boolean {token : Token} (kind : token.kind = .booleanLiteral) : Made [.leaf token]
  | keyword {token : Token} (kind : token.kind = .kwType ∨ token.kind = .kwPayable) : Made [.leaf token]
  | single {rule : Rule} {tree : Tree} (listed : rule ∈ [.numberLiteral,.hexLiteral,.stringLiteral,.identifier,
      .tupleExpression,.typeNameExpression]) (derives : Derives rule 0 tree) : Made [tree]
  | array {rule : Rule} {base : Tree} {opening closing : Token} (listed : rule ∈ [.identifier,.typeNameExpression])
      (derives : Derives rule 0 base) : Made [base,.leaf opening,.leaf closing]

theorem made_brackets (listed : rule ∈ [.identifier,.typeNameExpression])
    (spells : (Form.row [Form.sub rule,Form.opt [Form.tok .lbracket,Form.tok .rbracket]]).Spells Derives
      .primaryExpression level trees) : Made trees := by
  simp only [Form.row,Form.tok,Form.sub,Form.opt,Form.spells_seq,Form.spells_token,Form.spells_call,
    Form.spells_optional] at spells
  obtain ⟨_,_,⟨base,derives,rfl⟩,brackets,rfl⟩ := spells
  rcases brackets with rfl | ⟨_,_,⟨opening,_,rfl⟩,⟨closing,_,rfl⟩,rfl⟩
  · refine .single ?_ derives
    simp only [mem_cons,not_mem_nil,or_false] at listed ⊢
    rcases listed with rfl | rfl <;> simp
  · exact .array listed derives

theorem derives_made (derives : Derives .primaryExpression level tree) : Made tree.children := by
  have spells := derives.spelled_alone rfl
  obtain ⟨option,member,chosen⟩ := Form.spells_choice.mp spells
  simp only [mem_cons,not_mem_nil,or_false] at member
  rcases member with rfl | rfl | rfl | rfl | rfl | rfl | rfl | rfl | rfl
  · obtain ⟨token,kind,split⟩ := Form.spells_token.mp chosen
    exact split ▸ .boolean kind
  · obtain ⟨inner,derived,split⟩ := Form.spells_call.mp chosen
    exact split ▸ .single (by simp) derived
  · obtain ⟨inner,derived,split⟩ := Form.spells_call.mp chosen
    exact split ▸ .single (by simp) derived
  · obtain ⟨inner,derived,split⟩ := Form.spells_call.mp chosen
    exact split ▸ .single (by simp) derived
  · exact made_brackets (by simp) chosen
  · obtain ⟨token,kind,split⟩ := Form.spells_token.mp chosen
    exact split ▸ .keyword (.inl kind)
  · obtain ⟨token,kind,split⟩ := Form.spells_token.mp chosen
    exact split ▸ .keyword (.inr kind)
  · obtain ⟨inner,derived,split⟩ := Form.spells_call.mp chosen
    exact split ▸ .single (by simp) derived
  · exact made_brackets (by simp) chosen

end Primary

-- A list with commas is its first item, then a comma and an item in each round.
theorem Form.commaList_shape (spells : (Form.commaList (Form.sub item)).Spells Derives self level trees) :
    ∃ (first : Tree) (rounds : List (Token × Tree)), Derives item 0 first ∧
      (∀ round ∈ rounds, round.1.kind = .comma ∧ Derives item 0 round.2) ∧
      trees = first :: rounds.flatMap fun round => [.leaf round.1,round.2] := by
  simp only [commaList,row,sub,tok,many,spells_seq,spells_call] at spells
  obtain ⟨_,others,⟨first,derives,rfl⟩,many,rfl⟩ := spells
  obtain ⟨rounds,made,split⟩ : ∃ rounds : List (Token × Tree),
      (∀ round ∈ rounds, round.1.kind = .comma ∧ Derives item 0 round.2) ∧
      others = rounds.flatMap fun round => [.leaf round.1,round.2] := by
    refine many.rounds_induction (fun trees => ∃ rounds : List (Token × Tree),
      (∀ round ∈ rounds, round.1.kind = .comma ∧ Derives item 0 round.2) ∧
      trees = rounds.flatMap fun round => [.leaf round.1,round.2]) ⟨[],by simp,rfl⟩ ?_
    rintro left right one ⟨rounds,made,rfl⟩
    obtain ⟨_,_,comma,inside,rfl⟩ := spells_seq.mp one
    obtain ⟨token,kind,rfl⟩ := spells_token.mp comma
    obtain ⟨tree,derived,rfl⟩ := spells_call.mp inside
    refine ⟨(token,tree) :: rounds,?_,rfl⟩
    intro round member
    rcases mem_cons.mp member with rfl | later
    · exact ⟨kind,derived⟩
    · exact made round later
  exact ⟨first,rounds,derives,made,by rw [split]; rfl⟩

namespace Tree.Derives

variable {level : Nat} {tree : Tree}

theorem single {rule : Rule} {kinds : List Kind} (body : rule.variants = [Form.among kinds])
    (derives : Derives rule level tree) : ∃ token, token.kind ∈ kinds ∧ tree.children = [.leaf token] := by
  have spells := derives.spelled_alone body
  obtain ⟨token,member,split⟩ := Form.spells_oneOf.mp spells
  exact ⟨token,by simpa using member,split⟩

theorem number (derives : Derives .numberLiteral level tree) :
    ∃ number, number.kind ∈ [Kind.decimalNumber,.hexNumber] ∧
      (tree.children = [.leaf number] ∨
        ∃ unit, unit.kind = .numberUnit ∧ tree.children = [.leaf number,.leaf unit]) := by
  have spells := derives.spelled_alone rfl
  simp only [Form.row,Form.among,Form.opt,Form.tok,Form.spells_seq,Form.spells_oneOf,Form.spells_optional,
    Form.spells_token,KindSet.contains_ofList,decide_eq_true_eq] at spells
  obtain ⟨_,_,⟨number,kind,rfl⟩,rfl | ⟨unit,only,rfl⟩,split⟩ := spells
  · exact ⟨number,kind,.inl split⟩
  · exact ⟨number,kind,.inr ⟨unit,only,split⟩⟩

theorem tuple (derives : Derives .tupleExpression level tree) :
    ∃ opening closing inside, tree.children = .leaf opening :: inside ++ [.leaf closing] ∧
      (opening.kind = .lparen ∧ closing.kind = .rparen ∨ opening.kind = .lbracket ∧ closing.kind = .rbracket) ∧
      ∀ child ∈ inside, (∃ token, token.kind = .comma ∧ child = .leaf token) ∨ Derives .expression 0 child := by
  have spells := derives.spelled_alone rfl
  obtain ⟨option,member,chosen⟩ := Form.spells_choice.mp spells
  simp only [mem_cons,not_mem_nil,or_false] at member
  rcases member with rfl | rfl
  · simp only [Form.row,Form.tok,Form.opt,Form.sub,Form.many,Form.spells_seq,Form.spells_token] at chosen
    obtain ⟨_,_,⟨opening,left,rfl⟩,⟨first,_,one,⟨others,_,many,⟨closing,right,rfl⟩,rfl⟩,rfl⟩,split⟩ :=
      chosen
    have value : ∀ trees, (Form.optional () (Form.call () Rule.expression 0)).Spells Derives .tupleExpression level trees →
        ∀ child ∈ trees, Derives .expression 0 child := by
      intro trees inside child member
      rcases Form.spells_optional.mp inside with rfl | present
      · cases member
      · obtain ⟨value,derived,rfl⟩ := Form.spells_call.mp present
        exact mem_singleton.mp member ▸ derived
    have rest : ∀ child ∈ others,
        (∃ token, token.kind = .comma ∧ child = .leaf token) ∨ Derives .expression 0 child := by
      refine many.rounds_induction (fun trees => ∀ child ∈ trees,
        (∃ token, token.kind = .comma ∧ child = .leaf token) ∨ Derives .expression 0 child) (by simp) ?_
      intro left right one ih child member
      obtain ⟨_,filled,comma,inside,rfl⟩ := Form.spells_seq.mp one
      obtain ⟨token,kind,rfl⟩ := Form.spells_token.mp comma
      rcases mem_append.mp member with round | later
      · rcases mem_cons.mp round with rfl | here
        · exact .inl ⟨token,kind,rfl⟩
        · exact .inr (value filled inside child here)
      · exact ih child later
    refine ⟨opening,closing,first ++ others,by simp [split],.inl ⟨left,right⟩,fun child member => ?_⟩
    rcases mem_append.mp member with early | late
    · exact .inr (value first one child early)
    · exact rest child late
  · simp only [Form.row,Form.tok,Form.opt,Form.spells_seq,Form.spells_token,Form.spells_optional] at chosen
    obtain ⟨_,_,⟨opening,left,rfl⟩,⟨values,_,list,⟨closing,right,rfl⟩,rfl⟩,split⟩ := chosen
    refine ⟨opening,closing,values,by simp [split],.inr ⟨left,right⟩,fun child member => ?_⟩
    rcases list with rfl | present
    · cases member
    · obtain ⟨first,rounds,derived,made,rfl⟩ := Form.commaList_shape present
      rcases mem_cons.mp member with rfl | later
      · exact .inr derived
      · obtain ⟨round,listed,here⟩ := mem_flatMap.mp later
        obtain ⟨comma,value⟩ := made round listed
        simp only [mem_cons,not_mem_nil,or_false] at here
        rcases here with rfl | rfl
        · exact .inl ⟨round.1,comma,rfl⟩
        · exact .inr value

theorem nameValue (derives : Derives .nameValue level tree) :
    ∃ name colon value, tree.children = [name,.leaf colon,value] ∧ colon.kind = .colon ∧ Derives .identifier 0 name ∧
      Derives .expression 0 value := by
  have spells := derives.spelled_alone rfl
  simp only [Form.row,Form.tok,Form.sub,Form.spells_seq,Form.spells_token,Form.spells_call] at spells
  obtain ⟨_,_,⟨name,named,rfl⟩,⟨_,_,⟨colon,kind,rfl⟩,⟨value,derived,rfl⟩,rfl⟩,split⟩ := spells
  exact ⟨name,colon,value,split,kind,named,derived⟩

end Tree.Derives

namespace Arguments

inductive Made : List Tree → Prop where
  | nothing : Made []
  | values {list : Tree} (derives : Derives .expressionList 0 list) : Made [list]
  | noNames {opening closing : Token} (left : opening.kind = .lbrace) (right : closing.kind = .rbrace) :
      Made [.leaf opening,.leaf closing]
  | names {opening closing : Token} {list : Tree} (left : opening.kind = .lbrace) (right : closing.kind = .rbrace)
      (derives : Derives .nameValueList 0 list) : Made [.leaf opening,list,.leaf closing]

theorem derives_made (derives : Derives .functionCallArguments level tree) : Made tree.children := by
  have spells := derives.spelled_alone rfl
  obtain ⟨option,member,chosen⟩ := Form.spells_choice.mp spells
  simp only [mem_cons,not_mem_nil,or_false] at member
  rcases member with rfl | rfl
  · simp only [Form.row,Form.tok,Form.sub,Form.opt,Form.spells_seq,Form.spells_token,Form.spells_optional,
      Form.spells_call] at chosen
    obtain ⟨_,_,⟨opening,left,rfl⟩,⟨_,_,rfl | ⟨list,derived,rfl⟩,⟨closing,right,rfl⟩,rfl⟩,split⟩ := chosen
    · exact split ▸ .noNames left right
    · exact split ▸ .names left right derived
  · rcases Form.spells_optional.mp chosen with absent | present
    · exact absent ▸ .nothing
    · obtain ⟨list,derived,split⟩ := Form.spells_call.mp present
      exact split ▸ .values derived

end Arguments

end SolReader
