import SolReader.Proofs.Ast.Twins

namespace SolReader

-- The node of a declaration, when the variables are known.
def Phrase.declaringNode (phrase : Phrase) (declared? : Option Value) : Meaning := do
  let value ← Part.meaningOf (phrase.first? .expression)
  match declared? with
  | some declared => phrase.node "VariableDeclarationStatement" [("variables",declared),("initialValue",value)]
  | none => throw .noVariables

namespace Alike

variable {rule : Rule}
variable {terms : Terms} {related : Value → Value → Prop} {one two : Phrase}

section Types

theorem elementaryTypeName_tied (alike : Alike terms related .elementaryTypeName one two) :
    Tied terms related one.elementaryTypeName two.elementaryTypeName := by
  apply alike.makes (by simp [Fields.names]) (by simp [Fields.Worded]) (by decide)
  simp [alike.text,alike.good.text]

theorem userDefinedTypeName_tied (alike : Alike terms related .userDefinedTypeName one two) :
    Tied terms related one.userDefinedTypeName two.userDefinedTypeName := by
  apply alike.makes (by simp [Fields.names]) (by simp [Fields.Worded]) (by decide)
  simp [alike.text,alike.good.text]

theorem typeName_tied (alike : Alike terms related .typeName one two) : Tied terms related one.typeName two.typeName := by
  simp only [Phrase.typeName,alike.count,alike.textAt]
  refine .step fun count => ?_
  have array : ∀ length other, related length other → Tied terms related
      (Part.meaningAt one 0 >>= fun base => one.node "ArrayTypeName" [("baseTypeName",base),("length",length)])
      (Part.meaningAt two 0 >>= fun base => two.node "ArrayTypeName" [("baseTypeName",base),("length",other)]) := by
    intro length other same
    refine (alike.meaningAt 0).bind fun _ _ base => ?_
    exact alike.makes (by simp [Fields.names]) (by simp [Fields.Worded]) (by decide) (by simp [base,same])
  split
  · split
    · exact (alike.meaningAt 2).bind array
    · exact array _ _ alike.good.null
  · split
    · refine .step fun name => .step fun mutability => ?_
      exact alike.makes (by simp [Fields.names]) (by simp [Fields.Worded]) (by decide) (by simp [alike.good.text])
    · exact alike.meaningAt 0

theorem mapping_tied (alike : Alike terms related .mapping one two) : Tied terms related one.mapping two.mapping := by
  refine (alike.meaning .mappingKey).bind fun _ _ key => (alike.meaning .typeName).bind fun _ _ value => ?_
  exact alike.makes (by simp [Fields.names]) (by simp [Fields.Worded]) (by decide) (by simp [key,value])

theorem functionTypeName_tied (alike : Alike terms related .functionTypeName one two) :
    Tied terms related one.functionTypeName two.functionTypeName := by
  have lists := alike.all .functionTypeParameterList
  simp only [Phrase.functionTypeName,alike.optionalText,alike.has]
  refine ((lists.get 0).within _ _).bind fun _ _ twins => (alike.listOf twins).bind fun _ _ parameters => ?_
  obtain ⟨missing,missing'⟩ | ⟨_,_,found,found',twin⟩ := (lists.get 1).either
  · simp only [missing,missing']
    apply alike.makes (by simp [Fields.names]) (by simp [Fields.Worded]) (by decide)
    simp [parameters,alike.good.list .nil,alike.good.text,Part.optionalText,alike.good.ofOption]
  · simp only [found,found']
    refine (alike.listOf (Twins.all twin.inside _)).bind fun _ _ returns => ?_
    apply alike.makes (by simp [Fields.names]) (by simp [Fields.Worded]) (by decide)
    simp [parameters,returns,alike.good.text,Part.optionalText,alike.good.ofOption]

theorem functionTypeParameter_tied (alike : Alike terms related .functionTypeParameter one two) :
    Tied terms related one.functionTypeParameter two.functionTypeParameter := by
  simp only [Phrase.functionTypeParameter,alike.optionalText]
  refine (alike.meaning .typeName).bind fun _ _ type => ?_
  refine alike.declares (by simp [Fields.names]) (by simp [Fields.Worded]) nofun ?_
  simp [type,alike.good.null,alike.good.bool,Part.optionalText,alike.good.ofOption]

end Types

section Expressions

variable {other : Value}

theorem identifier_tied (alike : Alike terms related .identifier one two) :
    Tied terms related one.identifier two.identifier := by
  apply alike.makes (by simp [Fields.names]) (by simp [Fields.Worded]) (by decide)
  simp [alike.text,alike.good.text]

theorem numberLiteral_tied (alike : Alike terms related .numberLiteral one two) :
    Tied terms related one.numberLiteral two.numberLiteral := by
  simp only [Phrase.numberLiteral,alike.count,alike.textAt]
  refine .step fun number => .step fun count => ?_
  split
  · refine .step fun unit => ?_
    exact alike.makes (by simp [Fields.names]) (by simp [Fields.Worded]) (by decide) (by simp [alike.good.text])
  · exact alike.makes (by simp [Fields.names]) (by simp [Fields.Worded]) (by decide) (by simp [alike.good.text,alike.good.null])

-- The values of the arguments go together, and so do their names.
abbrev Arguments (related : Value → Value → Prop) (given others : List Value × List Value) : Prop :=
  given.1.Forall₂ related others.1 ∧ given.2.Forall₂ related others.2

theorem nameValues_tied {rule : Rule} (alike : Alike terms related rule one two) {parts others : List Part}
    (twins : Twins terms related parts others) :
    Tied terms (List.Forall₂ fun pair other => related pair.1 other.1 ∧ related pair.2 other.2)
      (parts.mapM fun pair => do
        let value ← Part.meaningOf (Phrase.all .expression pair.parts).head?
        let name ← Part.textOf (Phrase.all .identifier pair.parts).head?
        return (value,Value.text name))
      (others.mapM fun pair => do
        let value ← Part.meaningOf (Phrase.all .expression pair.parts).head?
        let name ← Part.textOf (Phrase.all .identifier pair.parts).head?
        return (value,Value.text name)) := by
  refine .mapM twins fun pair other twin => ?_
  have inside : Twins terms related pair.parts other.parts := twin.inside
  rw [(inside.all .identifier).head.textOf]
  refine (alike.meaningOf (inside.all .expression).head).bind fun _ _ value => ?_
  exact .step fun name => .ok ⟨value,alike.good.text name⟩

theorem callArguments_tied {rule : Rule} (alike : Alike terms related rule one two) {part? other? : Option Part}
    (pair : Counterpart terms related part? other?) :
    Tied terms (Arguments related) (Phrase.callArguments part?) (Phrase.callArguments other?) := by
  cases pair with
  | none => exact .fails
  | @some part other twin =>
    have inside : Twins terms related part.parts other.parts := twin.inside
    simp only [Phrase.callArguments]
    obtain ⟨missing,missing'⟩ | ⟨_,_,found,found',plain⟩ := (inside.all .expressionList).head.either
    · obtain ⟨absent,absent'⟩ | ⟨_,_,found,found',named⟩ := (inside.all .nameValueList).head.either
      · simp only [missing,missing',absent,absent']
        exact .ok ⟨.nil,.nil⟩
      · simp only [missing,missing',found,found']
        refine (alike.nameValues_tied (Twins.all named.inside .nameValue)).bind fun pairs others paired => .ok ⟨?_,?_⟩
        · exact List.rel_map (fun _ _ same => same.1) paired
        · exact List.rel_map (fun _ _ same => same.2) paired
    · simp only [found,found']
      exact (Twins.all plain.inside .expression).meanings.bind fun _ _ values => .ok ⟨values,.nil⟩

theorem functionCall_tied (alike : Alike terms related .functionCall one two) :
    Tied terms related one.functionCall two.functionCall := by
  refine (alike.callArguments_tied (alike.first _)).bind fun _ _ ⟨values,names⟩ => ?_
  refine (alike.meaning .expression).bind fun _ _ callee => ?_
  apply alike.makes (by simp [Fields.names]) (by simp [Fields.Worded]) (by decide)
  simp [callee,alike.good.list values,alike.good.list names]

theorem tuple_tied {rule : Rule} (alike : Alike terms related rule one two) {components others : List Value}
    (listed : ("TupleExpression",["components","isArray"]) ∈ rule.makes) (paired : components.Forall₂ related others)
    (isArray : Bool) : Tied terms related (one.tuple components isArray) (two.tuple others isArray) :=
  alike.makes listed (by simp [Fields.Worded]) (by decide) (by simp [alike.good.list paired,alike.good.bool])

theorem unary_tied (alike : Alike terms related .expression one two) {operand : Value} (same : related operand other)
    (operator : String) (isPrefix : Bool) :
    Tied terms related (one.unary operator operand isPrefix) (two.unary operator other isPrefix) :=
  alike.makes (by simp [Fields.names]) (by simp [Fields.Worded]) (by decide) (by simp [same,alike.good.text,alike.good.bool])

theorem ofTwo_tied (alike : Alike terms related .expression one two) : Tied terms related one.ofTwo two.ofTwo := by
  simp only [Phrase.ofTwo,alike.textAt]
  refine .step fun first => ?_
  split
  · refine (alike.meaning .typeName).bind fun _ _ type => ?_
    exact alike.makes (by simp [Fields.names]) (by simp [Fields.Worded]) (by decide) (by simp [type])
  · split
    · exact (alike.meaningAt 1).bind fun _ _ operand => alike.unary_tied operand first true
    · refine .step fun second => ?_
      split
      · exact (alike.meaningAt 0).bind fun _ _ operand => alike.unary_tied operand second false
      · exact alike.listOf alike.paired

theorem ofThree_tied (alike : Alike terms related .expression one two) (whole : one.expression = one.ofThree) :
    Tied terms related one.ofThree two.ofThree := by
  have tuple : ("TupleExpression",["components","isArray"]) ∈ Rule.makes .expression := by decide
  simp only [Phrase.ofThree,alike.textAt] at whole ⊢
  refine .told fun opening opens => .told fun closing closes => ?_
  rw [opens,closes] at whole
  split
  · exact (alike.meaningAt 1).bind fun _ _ inside => alike.tuple_tied tuple (.cons inside .nil) false
  · rename_i bare
    refine .told fun operator operates => ?_
    split
    · refine (alike.meaningAt 0).bind fun _ _ left => (alike.meaningAt 2).bind fun _ _ right => ?_
      exact alike.tuple_tied tuple (.cons left (.cons right .nil)) false
    · rename_i noComma
      split
      · refine (alike.meaningAt 0).bind fun _ _ base => .step fun member => ?_
        exact alike.makes (by simp [Fields.names]) (by simp [Fields.Worded]) (by decide) (by simp [base,alike.good.text])
      · rename_i noDot
        split
        · rename_i binary
          refine (alike.meaningAt 0).known.bind fun _ _ ⟨first,left⟩ => ?_
          refine (alike.meaningAt 2).known.bind fun _ _ ⟨last,right⟩ => ?_
          refine alike.makesWhole (by simp [Fields.names]) (by simp [Fields.Worded]) nofun (whole.trans ?_)
            (by simp [left,right,alike.good.text])
          simp only [bind,Except.bind,if_neg bare,operates,if_neg noComma,if_neg noDot,if_pos binary,first,last]
        · exact alike.listOf alike.paired

theorem ofFour_tied (alike : Alike terms related .expression one two) : Tied terms related one.ofFour two.ofFour := by
  simp only [Phrase.ofFour,alike.textAt]
  refine .step fun opening => .step fun closing => ?_
  split
  · refine (alike.callArguments_tied (alike.first _)).bind fun _ _ ⟨values,names⟩ => ?_
    refine (alike.meaningAt 0).bind fun _ _ callee => ?_
    apply alike.makes (by simp [Fields.names]) (by simp [Fields.Worded]) (by decide)
    simp [callee,alike.good.list values,alike.good.list names]
  · split
    · refine (alike.meaningAt 0).bind fun _ _ base => (alike.meaningAt 2).bind fun _ _ index => ?_
      exact alike.makes (by simp [Fields.names]) (by simp [Fields.Worded]) (by decide) (by simp [base,index])
    · exact alike.listOf alike.paired

theorem ofFive_tied (alike : Alike terms related .expression one two) (whole : one.expression = one.ofFive) :
    Tied terms related one.ofFive two.ofFive := by
  simp only [Phrase.ofFive,alike.textAt] at whole ⊢
  refine .told fun question asks => .told fun colon divides => ?_
  rw [asks,divides] at whole
  split
  · rename_i asked
    refine (alike.meaningAt 0).known.bind fun _ _ ⟨first,condition⟩ => ?_
    refine (alike.meaningAt 2).known.bind fun _ _ ⟨second,yes⟩ => (alike.meaningAt 4).known.bind fun _ _ ⟨third,no⟩ => ?_
    refine alike.makesWhole (by simp [Fields.names]) (by simp [Fields.Worded]) nofun (whole.trans ?_)
      (by simp [condition,yes,no])
    simp only [bind,Except.bind,if_pos asked,first,second,third]
  · exact alike.listOf alike.paired

theorem expression_tied (alike : Alike terms related .expression one two) :
    Tied terms related one.expression two.expression := by
  have counted : one.expression = one.expression := rfl
  conv at counted => rhs; rw [Phrase.expression,alike.count]
  rw [Phrase.expression,Phrase.expression,alike.count]
  refine .told fun count counts => ?_
  rw [counts] at counted
  rcases count with _ | _ | _ | _ | _ | _ | _
  · exact alike.listOf alike.paired
  · exact alike.meaningAt 0
  · exact alike.ofTwo_tied
  · exact alike.ofThree_tied counted
  · exact alike.ofFour_tied
  · exact alike.ofFive_tied counted
  · exact alike.listOf alike.paired

theorem elementType_other (phrase : Phrase) {fields : Fields} {type : Value} (found : fields.get? "type" = some type)
    (other : type ≠ .text "Identifier") : phrase.elementType (.node fields) =
      (do phrase.node "ElementaryTypeName" [("name",.text (← Part.textAt phrase 0))]) := by
  rw [Phrase.elementType,found]
  split
  · rename_i same _
    exact absurd (Option.some.inj same) other
  · rename_i same _
    exact absurd (Option.some.inj same) other
  · rfl
  · rename_i impossible
    cases impossible

-- What the base is is told by its type and its name, which are the same on both sides.
theorem elementType_tied (alike : Alike terms related .primaryExpression one two) {base : Value}
    (same : related base other) : Tied terms related (one.elementType base) (two.elementType other) := by
  obtain ⟨fields,others,rfl,rfl,agree⟩ | ⟨absent,absent'⟩ := alike.good.nodes same
  · have types := agree "type" (by decide)
    have names := agree "name" (by decide)
    generalize found : Fields.get? fields "type" = type? at types
    generalize found' : Fields.get? others "type" = other? at types
    cases types with
    | none =>
      rw [Phrase.elementType,Phrase.elementType,found,found']
      exact .fails
    | @some type other alikeTypes =>
      by_cases isName : type = .text "Identifier"
      · have isName' := (alike.good.text_iff alikeTypes _).mp isName
        rw [Phrase.elementType,Phrase.elementType,found,found',isName,isName']
        generalize Fields.get? fields "name" = name? at names
        generalize Fields.get? others "name" = name'? at names
        cases names with
        | none => exact .fails
        | some name => exact alike.makes (by simp [Fields.names]) (by simp [Fields.Worded]) (by decide) (by simp [name])
      · have isOther : other ≠ .text "Identifier" := fun same => isName ((alike.good.text_iff alikeTypes _).mpr same)
        rw [elementType_other one found isName,elementType_other two found' isOther,alike.textAt]
        refine .step fun name => ?_
        exact alike.makes (by simp [Fields.names]) (by simp [Fields.Worded]) (by decide) (by simp [alike.good.text])
  · have fails : ∀ (phrase : Phrase) (value : Value), (∀ fields, value ≠ .node fields) →
        phrase.elementType value = .error (.noPart value.shape "type") := by
      intro phrase value plain
      cases value with
      | node fields => exact absurd rfl (plain fields)
      | _ => rfl
    rw [fails one base absent,fails two other absent',alike.good.shape same]
    exact .fails

theorem hasEmptyBrackets_eq {rule : Rule} (alike : Alike terms related rule one two) :
    one.hasEmptyBrackets = two.hasEmptyBrackets := by
  simp only [Phrase.hasEmptyBrackets,alike.count,alike.textAt]

theorem primaryExpression_tied (alike : Alike terms related .primaryExpression one two) :
    Tied terms related one.primaryExpression two.primaryExpression := by
  simp only [Phrase.primaryExpression,alike.isSome,alike.text,alike.hasEmptyBrackets_eq]
  obtain ⟨missing,missing'⟩ | ⟨_,_,found,found',literal⟩ := (alike.token .booleanLiteral).either
  · simp only [missing,missing']
    obtain ⟨missing,missing'⟩ | ⟨_,_,found,found',literal⟩ := (alike.first .hexLiteral).either
    · simp only [missing,missing']
      split
      · exact alike.makes (by simp [Fields.names]) (by simp [Fields.Worded]) (by decide) (by simp [alike.good.text])
      · refine .step fun brackets => ?_
        split
        · refine (alike.meaningAt 0).bind fun _ _ base => (alike.elementType_tied base).bind fun _ _ element => ?_
          exact alike.makes (by simp [Fields.names]) (by simp [Fields.Worded]) (by decide) (by simp [element,alike.good.null])
        · exact alike.meaningAt 0
    · simp only [found,found',literal.text]
      exact alike.makes (by simp [Fields.names]) (by simp [Fields.Worded]) (by decide) (by simp [alike.good.text])
  · simp only [found,found',literal.text]
    exact alike.makes (by simp [Fields.names]) (by simp [Fields.Worded]) (by decide) (by simp [alike.good.bool])

theorem innerParts_tied {rule : Rule} (alike : Alike terms related rule one two) :
    Tied terms (Twins terms related) one.innerParts two.innerParts := by
  rw [Phrase.innerParts,Phrase.innerParts,alike.paired.isEmpty]
  split
  · exact .fails
  · exact .ok (Twins.dropLast (List.forall₂_drop 1 alike.paired))

-- Commas are told by their texts, so the slots are the same.
theorem slotsFrom_tied {parts others : List Part} (twins : Twins terms related parts others) (atSlot : Bool) :
    Tied terms (List.Forall₂ (Counterpart terms related)) (Commas.slotsFrom Phrase.isComma atSlot parts)
      (Commas.slotsFrom Phrase.isComma atSlot others) := by
  induction twins generalizing atSlot with
  | nil =>
    cases atSlot with
    | false => exact .ok .nil
    | true => exact .ok (.cons .none .nil)
  | @cons part other _ _ twin _ ih =>
    have same : Phrase.isComma part = Phrase.isComma other := by rw [Phrase.isComma,Phrase.isComma,twin.text]
    cases atSlot with
    | false =>
      rw [Commas.slotsFrom,Commas.slotsFrom,same]
      cases Phrase.isComma other with
      | false => exact .fails
      | true => exact ih true
    | true =>
      rw [Commas.slotsFrom,Commas.slotsFrom,same]
      cases Phrase.isComma other with
      | false => exact (ih false).bind fun _ _ slots => .ok (List.Forall₂.cons (.some twin) slots)
      | true => exact (ih true).bind fun _ _ slots => .ok (List.Forall₂.cons .none slots)

theorem slots_tied {parts others : List Part} (twins : Twins terms related parts others) :
    Tied terms (List.Forall₂ (Counterpart terms related)) (Commas.slots Phrase.isComma parts)
      (Commas.slots Phrase.isComma others) := by
  cases twins with
  | nil => exact .ok .nil
  | cons twin rest => exact slotsFrom_tied (.cons twin rest) true

theorem tupleExpression_tied (alike : Alike terms related .tupleExpression one two) :
    Tied terms related one.tupleExpression two.tupleExpression := by
  simp only [Phrase.tupleExpression,alike.textAt]
  refine alike.innerParts_tied.bind fun _ _ twins => (slots_tied twins).bind fun _ _ slots => ?_
  refine (Tied.mapM slots fun _ _ pair => alike.meaningOf pair).bind fun _ _ components => .step fun opening => ?_
  exact alike.tuple_tied (by decide) components _

end Expressions

section Statements

theorem block_tied (alike : Alike terms related .block one two) : Tied terms related one.block two.block := by
  refine (alike.listed .statement).bind fun _ _ statements => ?_
  exact alike.makes (by simp [Fields.names]) (by simp [Fields.Worded]) (by decide) (by simp [statements])

theorem uncheckedStatement_tied (alike : Alike terms related .uncheckedStatement one two) :
    Tied terms related one.uncheckedStatement two.uncheckedStatement := by
  refine (alike.meaning .block).bind fun _ _ body => ?_
  exact alike.makes (by simp [Fields.names]) (by simp [Fields.Worded]) (by decide) (by simp [body])

theorem expressionStatement_tied (alike : Alike terms related .expressionStatement one two) :
    Tied terms related one.expressionStatement two.expressionStatement := by
  refine (alike.meaning .expression).bind fun _ _ expression => ?_
  exact alike.makes (by simp [Fields.names]) (by simp [Fields.Worded]) (by decide) (by simp [expression])

theorem emitStatement_tied (alike : Alike terms related .emitStatement one two) :
    Tied terms related one.emitStatement two.emitStatement := by
  refine (alike.meaningAt 1).bind fun _ _ call => ?_
  exact alike.makes (by simp [Fields.names]) (by simp [Fields.Worded]) (by decide) (by simp [call])

theorem revertStatement_tied (alike : Alike terms related .revertStatement one two) :
    Tied terms related one.revertStatement two.revertStatement := by
  refine (alike.meaning .functionCall).bind fun _ _ call => ?_
  exact alike.makes (by simp [Fields.names]) (by simp [Fields.Worded]) (by decide) (by simp [call])

theorem throwStatement_tied (alike : Alike terms related .throwStatement one two) :
    Tied terms related one.throwStatement two.throwStatement :=
  alike.makes (by simp [Fields.names]) (by simp [Fields.Worded]) (by decide) .nil

theorem whileLoop_tied {rule : Rule} (alike : Alike terms related rule one two) {type : String}
    (listed : (type,["condition","body"]) ∈ rule.makes) (plain : type ∉ "VariableDeclaration" :: Fields.wholes) :
    Tied terms related (one.whileLoop type) (two.whileLoop type) := by
  refine (alike.meaning .expression).bind fun _ _ condition => (alike.meaning .statement).bind fun _ _ body => ?_
  exact alike.makes listed (by simp [Fields.Worded]) plain (by simp [condition,body])

theorem ifStatement_tied (alike : Alike terms related .ifStatement one two) :
    Tied terms related one.ifStatement two.ifStatement := by
  have branches := alike.all .statement
  refine (alike.meaningOf (branches.get 0)).known.bind fun _ _ ⟨first,yes⟩ => ?_
  refine (alike.meaningOf (branches.get 1)).known.bind fun _ _ ⟨second,no⟩ => ?_
  refine (alike.meaning .expression).known.bind fun _ _ ⟨third,condition⟩ => ?_
  refine alike.makesWhole (by simp [Fields.names]) (by simp [Fields.Worded]) nofun ?_ (by simp [condition,yes,no])
  change one.ifStatement = _
  simp only [Phrase.ifStatement,bind,Except.bind,first,second,third]

theorem field_related (good : Congruent related) {value other : Value} (same : related value other) {name : String}
    (plain : name ∉ Fields.special) : related (value.field name) (other.field name) := by
  obtain ⟨fields,others,rfl,rfl,agree⟩ | ⟨absent,absent'⟩ := good.nodes same
  · have pair := agree name plain
    simp only [Value.field]
    generalize Fields.get? fields name = value? at pair
    generalize Fields.get? others name = other? at pair
    cases pair with
    | none => exact good.null
    | some same => exact same
  · have nothing : ∀ value : Value, (∀ fields, value ≠ .node fields) → value.field name = .null := by
      intro value plain
      cases value with
      | node fields => exact absurd rfl (plain fields)
      | _ => rfl
    rw [nothing value absent,nothing other absent']
    exact good.null

theorem forStatement_tied (alike : Alike terms related .forStatement one two) :
    Tied terms related one.forStatement two.forStatement := by
  refine (alike.meaning .expressionStatement).bind fun _ _ condition => ?_
  refine (alike.meaning .simpleStatement).bind fun _ _ start => (alike.meaning .expression).bind fun _ _ step => ?_
  refine (alike.makes (by simp [Fields.names]) (by simp [Fields.Worded]) (by decide) (by simp [step])).bind fun _ _ step => ?_
  refine (alike.meaning .statement).bind fun _ _ body => ?_
  apply alike.makes (by simp [Fields.names]) (by simp [Fields.Worded]) (by decide)
  have asked := field_related alike.good condition (show "expression" ∉ Fields.special by decide)
  simp [start,step,body,asked]

theorem tryStatement_tied (alike : Alike terms related .tryStatement one two) :
    Tied terms related one.tryStatement two.tryStatement := by
  refine (alike.meaning .expression).bind fun _ _ expression => (alike.meaning .block).bind fun _ _ block => ?_
  refine (alike.meaning .returnParameters).bind fun _ _ returns => (alike.listed .catchClause).bind fun _ _ clauses => ?_
  exact alike.makes (by simp [Fields.names]) (by simp [Fields.Worded]) (by decide) (by simp [expression,block,returns,clauses])

theorem catchClause_tied (alike : Alike terms related .catchClause one two) :
    Tied terms related one.catchClause two.catchClause := by
  refine (alike.meaning .identifier).bind fun _ _ name => (alike.meaning .parameterList).bind fun _ _ parameters => ?_
  refine (alike.meaning .block).bind fun _ _ block => ?_
  exact alike.makes (by simp [Fields.names]) (by simp [Fields.Worded]) (by decide) (by simp [name,parameters,block])

theorem identifierList_tied (alike : Alike terms related .identifierList one two) :
    Tied terms related one.identifierList two.identifierList := by
  refine alike.innerParts_tied.bind fun _ _ twins => (slots_tied twins).bind fun _ _ slots => ?_
  refine (Tied.mapM slots fun _ _ pair => ?_).bind fun _ _ declared => .ok (alike.good.list declared)
  cases pair with
  | none => exact .ok alike.good.null
  | some twin =>
    refine alike.declares (by simp [Fields.names]) (by simp [Fields.Worded]) nofun ?_
    have piece := Fields.held_piece terms related (show "iden" ∈ Fields.pieces by decide) twin.same
    simp [twin.text,alike.good.text,alike.good.bool,piece]

theorem listedDeclaration_tied (alike : Alike terms related .variableDeclarationList one two) (filled : one.parts ≠ [])
    {part other : Part} (twin : Part.Twin terms related part other) :
    Tied terms related (one.listedDeclaration part) (two.listedDeclaration other) := by
  have inside : Twins terms related part.parts other.parts := twin.inside
  simp only [Phrase.listedDeclaration,twin.rule?,twin.shape,(inside.all .identifier).head.textOf]
  split
  · exact .fails
  · refine .step fun name => (alike.meaningOf (inside.all .typeName).head).bind fun _ _ type => ?_
    refine alike.declares (by simp [Fields.names]) (by simp [Fields.Worded]) (fun _ => filled) ?_
    have piece := Fields.held_piece terms related (show "decl" ∈ Fields.pieces by decide) twin.same
    simp [type,alike.good.text,alike.good.bool,piece]

theorem listedDeclarations_tied (alike : Alike terms related .variableDeclarationList one two) (filled : one.parts ≠ [])
    {slots others : List (Option Part)} (paired : slots.Forall₂ (Counterpart terms related) others) :
    Tied terms (Option.Rel (List.Forall₂ related)) (one.listedDeclarations slots) (two.listedDeclarations others) := by
  induction paired with
  | nil => exact .ok (.some .nil)
  | cons pair _ ih =>
    cases pair with
    | none => exact .ok .none
    | some twin =>
      refine (alike.listedDeclaration_tied filled twin).bind fun _ _ first => ih.bind fun _ _ rest => .ok ?_
      cases rest with
      | none => exact .none
      | some rest => exact .some (.cons first rest)

theorem variableDeclarationList_tied (alike : Alike terms related .variableDeclarationList one two) :
    Tied terms related one.variableDeclarationList two.variableDeclarationList := by
  by_cases empty : one.parts = []
  · have empty' : two.parts = [] := List.isEmpty_iff.mp (alike.paired.isEmpty ▸ List.isEmpty_iff.mpr empty)
    rw [Phrase.variableDeclarationList,Phrase.variableDeclarationList,empty,empty']
    exact .ok (alike.good.list .nil)
  · refine (slots_tied alike.paired).bind fun _ _ slots => (alike.listedDeclarations_tied empty slots).bind ?_
    intro declared other pair
    cases pair with
    | none => exact .ok alike.good.null
    | some declared => exact .ok (alike.good.list declared)

theorem variableDeclarationStatement_tied (alike : Alike terms related .variableDeclarationStatement one two) :
    Tied terms related one.variableDeclarationStatement two.variableDeclarationStatement := by
  have ending : ∀ declared? other?, Option.Rel related declared? other? →
      Tied terms related (one.declaringNode declared?) (two.declaringNode other?) := by
    intro declared? other? pair
    refine (alike.meaning .expression).bind fun _ _ value => ?_
    cases pair with
    | none => exact .fails
    | some declared =>
      exact alike.makes (by simp [Fields.names]) (by simp [Fields.Worded]) (by decide) (by simp [declared,value])
  simp only [Phrase.variableDeclarationStatement]
  obtain ⟨missing,missing'⟩ | ⟨_,_,found,found',single⟩ := (alike.first .variableDeclaration).either
  · obtain ⟨absent,absent'⟩ | ⟨_,_,found,found',names⟩ := (alike.first .identifierList).either
    · obtain ⟨lacking,lacking'⟩ | ⟨_,_,found,found',list⟩ := (alike.first .variableDeclarationList).either
      · simp only [missing,missing',absent,absent',lacking,lacking']
        exact ending _ _ .none
      · simp only [missing,missing',absent,absent',found,found']
        exact (list.meaning.map fun _ _ => .some).bind ending
    · simp only [missing,missing',found,found']
      exact (names.meaning.map fun _ _ => .some).bind ending
  · simp only [found,found']
    exact single.meaning.bind fun _ _ value => ending _ _ (.some (alike.good.list (.cons value .nil)))

theorem inlineAssemblyStatement_tied (alike : Alike terms related .inlineAssemblyStatement one two) :
    Tied terms related one.inlineAssemblyStatement two.inlineAssemblyStatement := by
  simp only [Phrase.inlineAssemblyStatement]
  have language : (one.token? .stringFragment).map (fun name => Phrase.inner name.text) =
      (two.token? .stringFragment).map fun name => Phrase.inner name.text := by
    obtain ⟨missing,missing'⟩ | ⟨_,_,found,found',name⟩ := (alike.token .stringFragment).either
    · rw [missing,missing']
    · rw [found,found',Option.map_some,Option.map_some,name.text]
  rw [language]
  refine (alike.meaning .assemblyBlock).bind fun _ _ body => ?_
  exact alike.makes (by simp [Fields.names]) (by simp [Fields.Worded]) (by decide) (by simp [body,alike.good.ofOption])

end Statements

section Assembly

variable {rule : Rule} {type : String}

theorem assemblyBlock_tied (alike : Alike terms related .assemblyBlock one two) :
    Tied terms related one.assemblyBlock two.assemblyBlock := by
  refine (alike.listed .assemblyItem).bind fun _ _ operations => ?_
  exact alike.makes (by simp [Fields.names]) (by simp [Fields.Worded]) (by decide) (by simp [operations])

theorem assemblyItem_tied (alike : Alike terms related .assemblyItem one two) :
    Tied terms related one.assemblyItem two.assemblyItem := by
  simp only [Phrase.assemblyItem,alike.has]
  obtain ⟨missing,missing'⟩ | ⟨_,_,found,found',literal⟩ := (alike.first .hexLiteral).either
  · obtain ⟨absent,absent'⟩ | ⟨_,_,found,found',literal⟩ := (alike.first .stringLiteral).either
    · simp only [missing,missing',absent,absent']
      split
      · exact alike.makes (by simp [Fields.names]) (by simp [Fields.Worded]) (by decide) .nil
      · split
        · exact alike.makes (by simp [Fields.names]) (by simp [Fields.Worded]) (by decide) .nil
        · exact alike.meaningAt 0
    · simp only [missing,missing',found,found',literal.text]
      exact alike.makes (by simp [Fields.names]) (by simp [Fields.Worded]) (by decide) (by simp [alike.good.text])
  · simp only [found,found',literal.text]
    exact alike.makes (by simp [Fields.names]) (by simp [Fields.Worded]) (by decide) (by simp [alike.good.text])

theorem assemblyCall_tied (alike : Alike terms related .assemblyCall one two) :
    Tied terms related one.assemblyCall two.assemblyCall := by
  simp only [Phrase.assemblyCall,alike.textAt]
  refine .step fun name => (alike.listed .assemblyExpression).bind fun _ _ values => ?_
  exact alike.makes (by simp [Fields.names]) (by simp [Fields.Worded]) (by decide) (by simp [values,alike.good.text])

theorem assemblyLiteral_tied (alike : Alike terms related .assemblyLiteral one two) :
    Tied terms related one.assemblyLiteral two.assemblyLiteral := by
  simp only [Phrase.assemblyLiteral,alike.has,alike.isSome,alike.text]
  repeat' split
  all_goals first
    | exact alike.makes (by simp [Fields.names]) (by simp [Fields.Worded]) (by decide) (by simp [alike.good.text])
    | exact .ok alike.good.null

theorem assemblySwitch_tied (alike : Alike terms related .assemblySwitch one two) :
    Tied terms related one.assemblySwitch two.assemblySwitch := by
  refine (alike.meaning .assemblyExpression).bind fun _ _ expression => ?_
  refine (alike.listed .assemblyCase).bind fun _ _ cases => ?_
  exact alike.makes (by simp [Fields.names]) (by simp [Fields.Worded]) (by decide) (by simp [expression,cases])

theorem assemblyCase_tied (alike : Alike terms related .assemblyCase one two) :
    Tied terms related one.assemblyCase two.assemblyCase := by
  have ending : ∀ value other, related value other → Tied terms related (one.caseNode value) (two.caseNode other) := by
    intro value other same
    refine (alike.meaning .assemblyBlock).bind fun _ _ block => ?_
    have nulls := alike.good.null_iff same
    split
    · rw [nulls.mp rfl]
      exact alike.makes (by simp [Fields.names]) (by simp [Fields.Worded]) (by decide) (by simp [block,alike.good.bool])
    · rename_i given
      split
      · exact absurd (nulls.mpr rfl) given
      · exact alike.makes (by simp [Fields.names]) (by simp [Fields.Worded]) (by decide) (by simp [block,same])
  simp only [Phrase.assemblyCase,alike.textAt]
  refine .step fun first => ?_
  split
  · exact (alike.meaning .assemblyLiteral).bind ending
  · exact ending _ _ alike.good.null

theorem assignedNames_tied (alike : Alike terms related rule one two) :
    Tied terms (List.Forall₂ related) one.assignedNames two.assignedNames := by
  rw [Phrase.assignedNames,Phrase.assignedNames]
  obtain ⟨missing,missing'⟩ | ⟨_,_,found,found',names⟩ := (alike.first .assemblyIdentifierOrList).either
  · rw [missing,missing']
    exact .fails
  · have inside := Twins.all names.inside .identifier
    simp only [found,found']
    obtain ⟨missing,missing'⟩ | ⟨_,_,found,found',name⟩ := inside.head.either
    · simp only [missing,missing']
      exact ((Twins.all names.inside _).head.within _ _).bind fun _ _ twins => Twins.meanings twins
    · simp only [found,found']
      exact name.meaning.bind fun _ _ value => .ok (.cons value .nil)

theorem assignment_tied (alike : Alike terms related rule one two)
    (listed : (type,["names","expression"]) ∈ rule.makes) (plain : type ∉ "VariableDeclaration" :: Fields.wholes) :
    Tied terms related (one.assignment type) (two.assignment type) := by
  refine alike.assignedNames_tied.bind fun _ _ names => (alike.meaning .assemblyExpression).bind fun _ _ value => ?_
  exact alike.makes listed (by simp [Fields.Worded]) plain (by simp [value,alike.good.list names])

theorem assemblyFunctionDefinition_tied (alike : Alike terms related .assemblyFunctionDefinition one two) :
    Tied terms related one.assemblyFunctionDefinition two.assemblyFunctionDefinition := by
  simp only [Phrase.assemblyFunctionDefinition,alike.textOf]
  refine ((alike.first _).within _ _).bind fun _ _ parameters => ((alike.first _).within _ _).bind fun _ _ lists => ?_
  refine ((Twins.head lists).within _ _).bind fun _ _ returns => .step fun name => ?_
  refine (alike.listOf parameters).bind fun _ _ parameters => (alike.listOf returns).bind fun _ _ returns => ?_
  refine (alike.meaning .assemblyBlock).bind fun _ _ body => ?_
  apply alike.makes (by simp [Fields.names]) (by simp [Fields.Worded]) (by decide)
  simp [parameters,returns,body,alike.good.text]

theorem named_tied (alike : Alike terms related rule one two)
    (listed : (type,["name"]) ∈ rule.makes) (plain : type ∉ "VariableDeclaration" :: Fields.wholes) :
    Tied terms related (one.named type) (two.named type) := by
  simp only [Phrase.named,alike.textOf]
  exact .step fun name => alike.makes listed (by simp [Fields.Worded]) plain (by simp [alike.good.text])

theorem assemblyFor_tied (alike : Alike terms related .assemblyFor one two) :
    Tied terms related one.assemblyFor two.assemblyFor := by
  refine (alike.meaningAt 1).bind fun _ _ start => (alike.meaningAt 2).bind fun _ _ condition => ?_
  refine (alike.meaningAt 3).bind fun _ _ step => (alike.meaningAt 4).bind fun _ _ body => ?_
  exact alike.makes (by simp [Fields.names]) (by simp [Fields.Worded]) (by decide) (by simp [start,condition,step,body])

theorem assemblyIf_tied (alike : Alike terms related .assemblyIf one two) :
    Tied terms related one.assemblyIf two.assemblyIf := by
  refine (alike.meaning .assemblyExpression).bind fun _ _ condition => ?_
  refine (alike.meaning .assemblyBlock).bind fun _ _ body => ?_
  exact alike.makes (by simp [Fields.names]) (by simp [Fields.Worded]) (by decide) (by simp [condition,body])

end Assembly

section Definitions

variable {part other : Part} {rule : Rule}

theorem sourceUnit_tied (alike : Alike terms related .sourceUnit one two) :
    Tied terms related one.sourceUnit two.sourceUnit := by
  simp only [Phrase.sourceUnit,alike.paired.isEmpty]
  split
  · exact .fails
  · refine (alike.listOf alike.paired.dropLast).bind fun _ _ children => ?_
    exact alike.makes (by simp [Fields.names]) (by simp [Fields.Worded]) (by decide) (by simp [children])

theorem pragmaDirective_tied (alike : Alike terms related .pragmaDirective one two) :
    Tied terms related one.pragmaDirective two.pragmaDirective := by
  simp only [Phrase.pragmaDirective,alike.textOf]
  refine .step fun name => .step fun value => ?_
  exact alike.makes (by simp [Fields.names]) (by simp [Fields.Worded]) (by decide) (by simp [alike.good.text])

theorem symbolAlias_tied (twin : Part.Twin terms related part other) :
    Tied terms (fun symbol again => symbol = again ∧ symbol.2.isSimple = true) (Phrase.symbolAlias part)
      (Phrase.symbolAlias other) := by
  have names : Twins terms related (Phrase.all .identifier part.parts) (Phrase.all .identifier other.parts) :=
    Twins.all twin.inside _
  simp only [Phrase.symbolAlias,(names.get 0).textOf,(names.get 1).optionalText]
  refine .step fun name => .ok ⟨rfl,?_⟩
  cases (Phrase.all .identifier other.parts)[1]? <;> rfl

theorem simple_set {fields : Fields} (simple : ∀ field ∈ fields, field.2.isSimple = true) (name : String) {value : Value}
    (also : value.isSimple = true) : ∀ field ∈ fields.set name value, field.2.isSimple = true := by
  rw [Fields.set]
  split
  · intro field member
    obtain ⟨old,inside,rfl⟩ := List.mem_map.mp member
    split
    · exact also
    · exact simple old inside
  · intro field member
    rcases List.mem_append.mp member with inside | last
    · exact simple field inside
    · cases List.mem_singleton.mp last
      exact also

theorem simple_ofList {pairs : List (String × Value)} (simple : ∀ pair ∈ pairs, pair.2.isSimple = true) :
    ∀ field ∈ Fields.ofList pairs, field.2.isSimple = true := by
  refine List.foldlRecOn (motive := fun fields : Fields => ∀ field ∈ fields, field.2.isSimple = true) pairs _ (by simp) ?_
  intro fields done pair member
  exact simple_set done _ (simple pair member)

theorem importDirective_tied (alike : Alike terms related .importDirective one two) :
    Tied terms related one.importDirective two.importDirective := by
  simp only [Phrase.importDirective,alike.textOf,alike.textAt,alike.count]
  refine (Tied.mapM (alike.all .importDeclaration) fun _ _ twin => symbolAlias_tied twin).bind fun symbols others same => ?_
  have equal : symbols = others := List.forall₂_eq_eq_eq ▸ same.imp fun _ _ pair => pair.1
  subst equal
  have simple : ∀ symbol ∈ symbols, symbol.2.isSimple = true := fun symbol member =>
    (List.forall₂_same.mp same symbol member).2
  have record := alike.good.record (simple_ofList simple)
  have ending : ∀ unit other, related unit other → Tied terms related
      (Part.textOf (two.first? .importPath) >>= fun path => one.node "ImportDirective"
        [("path",.text (Phrase.unquoted path)),("symbolAliases",.record (Fields.ofList symbols)),("unitAlias",unit)])
      (Part.textOf (two.first? .importPath) >>= fun path => two.node "ImportDirective"
        [("path",.text (Phrase.unquoted path)),("symbolAliases",.record (Fields.ofList symbols)),("unitAlias",other)]) := by
    intro unit other same
    refine .step fun path => ?_
    exact alike.makes (by simp [Fields.names]) (by simp [Fields.Worded]) (by decide) (by simp [record,same,alike.good.text])
  split
  · exact ending _ _ alike.good.null
  · refine .step fun count => ?_
    split
    · exact .step fun unit => ending _ _ (alike.good.text unit)
    · exact ending _ _ alike.good.null

theorem contractDefinition_tied (alike : Alike terms related .contractDefinition one two) :
    Tied terms related one.contractDefinition two.contractDefinition := by
  simp only [Phrase.contractDefinition,alike.textOf,alike.textAt]
  refine .step fun name => (alike.listed .inheritanceSpecifier).bind fun _ _ bases => ?_
  refine (alike.listed .contractPart).bind fun _ _ parts => .step fun kind => ?_
  exact alike.makes (by simp [Fields.names]) (by simp [Fields.Worded]) (by decide) (by simp [bases,parts,alike.good.text])

theorem inheritanceSpecifier_tied (alike : Alike terms related .inheritanceSpecifier one two) :
    Tied terms related one.inheritanceSpecifier two.inheritanceSpecifier := by
  refine (alike.meaning .userDefinedTypeName).bind fun _ _ base => ?_
  refine (alike.meaning .expressionList).bind fun _ _ values => ?_
  exact alike.makes (by simp [Fields.names]) (by simp [Fields.Worded]) (by decide) (by simp [base,values])

theorem contractPart_tied (alike : Alike terms related .contractPart one two) :
    Tied terms related one.contractPart two.contractPart := by
  rw [Phrase.contractPart,Phrase.contractPart]
  have paired := alike.paired
  generalize one.parts = parts at paired
  generalize two.parts = others at paired
  cases paired with
  | nil => exact .fails
  | cons twin _ => exact twin.meaning

theorem enumDefinition_tied (alike : Alike terms related .enumDefinition one two) :
    Tied terms related one.enumDefinition two.enumDefinition := by
  simp only [Phrase.enumDefinition,alike.textOf]
  refine .step fun name => (alike.listed .enumValue).bind fun _ _ members => ?_
  exact alike.makes (by simp [Fields.names]) (by simp [Fields.Worded]) (by decide) (by simp [members,alike.good.text])

theorem structDefinition_tied (alike : Alike terms related .structDefinition one two) :
    Tied terms related one.structDefinition two.structDefinition := by
  simp only [Phrase.structDefinition,alike.textOf]
  refine .step fun name => (alike.listed .variableDeclaration).bind fun _ _ members => ?_
  exact alike.makes (by simp [Fields.names]) (by simp [Fields.Worded]) (by decide) (by simp [members,alike.good.text])

theorem typeDefinition_tied (alike : Alike terms related .typeDefinition one two) :
    Tied terms related one.typeDefinition two.typeDefinition := by
  simp only [Phrase.typeDefinition,(alike.token .kwType).textOf]
  refine .step fun keyword => (alike.meaning .elementaryTypeName).bind fun _ _ type => ?_
  exact alike.makes (by simp [Fields.names]) (by simp [Fields.Worded]) (by decide) (by simp [type,alike.good.text])

theorem customErrorDefinition_tied (alike : Alike terms related .customErrorDefinition one two) :
    Tied terms related one.customErrorDefinition two.customErrorDefinition := by
  refine (alike.meaning .identifier).bind fun _ _ name => (alike.meaning .parameterList).bind fun _ _ parameters => ?_
  exact alike.makes (by simp [Fields.names]) (by simp [Fields.Worded]) (by decide) (by simp [name,parameters])

theorem fileLevelConstant_tied (alike : Alike terms related .fileLevelConstant one two) :
    Tied terms related one.fileLevelConstant two.fileLevelConstant := by
  refine (alike.meaning .identifier).bind fun _ _ name => (alike.meaning .typeName).bind fun _ _ type => ?_
  refine (alike.meaningOf (alike.token .kwConstant)).bind fun _ _ keyword => ?_
  exact alike.makes (by simp [Fields.names]) (by simp [Fields.Worded]) (by decide) (by simp [name,type,keyword])

theorem usingForDeclaration_tied (alike : Alike terms related .usingForDeclaration one two) :
    Tied terms related one.usingForDeclaration two.usingForDeclaration := by
  simp only [Phrase.usingForDeclaration,alike.textOf]
  refine (alike.meaningAt 3).bind fun _ _ type => .step fun library => ?_
  exact alike.makes (by simp [Fields.names]) (by simp [Fields.Worded]) (by decide) (by simp [type,alike.good.text])

theorem wordAmong_eq {parts others : List Part} (twins : Twins terms related parts others)
    (words : List (Kind × String)) : Phrase.wordAmong parts words = Phrase.wordAmong others words := by
  simp only [Phrase.wordAmong,twins.any]

theorem functionName_eq (alike : Alike terms related rule one two) : one.functionName = two.functionName := by
  rw [Phrase.functionName,Phrase.functionName]
  obtain ⟨missing,missing'⟩ | ⟨part,other,found,found',twin⟩ := (alike.first .functionDescriptor).either
  · rw [missing,missing']
  · have inside : Twins terms related part.parts other.parts := twin.inside
    simp only [found,found',alike.text]
    obtain ⟨one,one'⟩ | ⟨_,_,found,found',word⟩ := (inside.find .kwConstructor).either
    · obtain ⟨two,two'⟩ | ⟨_,_,found,found',word⟩ := (inside.find .kwFallback).either
      · obtain ⟨three,three'⟩ | ⟨_,_,found,found',word⟩ := (inside.find .kwReceive).either
        · obtain ⟨four,four'⟩ | ⟨_,_,found,found',word⟩ := (inside.all .identifier).head.either
          · simp only [one,one',two,two',three,three',four,four']
          · simp only [one,one',two,two',three,three',found,found',word.text]
        · simp only [one,one',two,two',found,found',word.text]
      · simp only [one,one',found,found',word.text]
    · simp only [found,found',word.text]

theorem meaningOrEmpty_tied (alike : Alike terms related rule one two) {part? other? : Option Part}
    (pair : Counterpart terms related part? other?) :
    Tied terms related (Phrase.meaningOrEmpty part?) (Phrase.meaningOrEmpty other?) := by
  cases pair with
  | none => exact .ok (alike.good.list .nil)
  | some twin => exact twin.meaning

theorem functionDefinition_tied (alike : Alike terms related .functionDefinition one two) :
    Tied terms related one.functionDefinition two.functionDefinition := by
  have marks : Twins terms related (((one.first? .modifierList).map Part.parts).getD [])
      (((two.first? .modifierList).map Part.parts).getD []) := by
    obtain ⟨missing,missing'⟩ | ⟨_,_,found,found',list⟩ := (alike.first .modifierList).either
    · rw [missing,missing']
      exact .nil
    · rw [found,found']
      exact list.inside
  simp only [Phrase.functionDefinition,alike.functionName_eq,wordAmong_eq marks,(marks.all _).head.optionalText]
  refine .step fun ⟨name,isConstructor,isFallback,isReceive⟩ => (alike.meaning .parameterList).bind fun _ _ parameters => ?_
  refine (alike.meaningOrEmpty_tied (alike.first _)).bind fun _ _ returns => ?_
  refine (alike.meaningOrEmpty_tied (alike.first _)).bind fun _ _ body => ?_
  refine ((alike.first _).within _ _).bind fun _ _ twins => (alike.listOf twins).bind fun _ _ modifiers => ?_
  apply alike.makes (by simp [Fields.names]) (by simp [Fields.Worded]) (by decide)
  simp [parameters,returns,body,modifiers,alike.good.text,alike.good.bool,Part.optionalText,alike.good.ofOption]

theorem parameterList_tied (alike : Alike terms related .parameterList one two) :
    Tied terms related one.parameterList two.parameterList := by
  refine (alike.listed .parameter).bind fun _ _ parameters => ?_
  exact alike.makes (by simp [Fields.names]) (by simp [Fields.Worded]) (by decide) (by simp [parameters])

theorem parameter_tied (alike : Alike terms related .parameter one two) : Tied terms related one.parameter two.parameter := by
  simp only [Phrase.parameter,alike.optionalText]
  refine (alike.meaning .typeName).bind fun _ _ type => ?_
  apply alike.makes (by simp [Fields.names]) (by simp [Fields.Worded]) (by decide)
  simp [type,alike.good.bool,Part.optionalText,alike.good.ofOption]

theorem modifierInvocation_tied (alike : Alike terms related .modifierInvocation one two) :
    Tied terms related one.modifierInvocation two.modifierInvocation := by
  simp only [Phrase.modifierInvocation,alike.textOf]
  obtain ⟨missing,missing'⟩ | ⟨_,_,found,found',list⟩ := (alike.first .expressionList).either
  · simp only [missing,missing']
    refine Tied.bind (.ok (alike.good.list .nil)) fun _ _ values => .step fun name => ?_
    exact alike.makes (by simp [Fields.names]) (by simp [Fields.Worded]) (by decide) (by simp [values,alike.good.text])
  · simp only [found,found']
    refine (alike.listOf (Twins.all list.inside _)).bind fun _ _ values => .step fun name => ?_
    exact alike.makes (by simp [Fields.names]) (by simp [Fields.Worded]) (by decide) (by simp [values,alike.good.text])

theorem modifierDefinition_tied (alike : Alike terms related .modifierDefinition one two) :
    Tied terms related one.modifierDefinition two.modifierDefinition := by
  simp only [Phrase.modifierDefinition,alike.textOf]
  refine (alike.meaningOrEmpty_tied (alike.first _)).bind fun _ _ parameters => .step fun name => ?_
  refine (alike.meaning .block).bind fun _ _ body => ?_
  exact alike.makes (by simp [Fields.names]) (by simp [Fields.Worded]) (by decide) (by simp [parameters,body,alike.good.text])

theorem variableDeclaration_tied (alike : Alike terms related .variableDeclaration one two) :
    Tied terms related one.variableDeclaration two.variableDeclaration := by
  simp only [Phrase.variableDeclaration,alike.textOf,alike.optionalText]
  refine (alike.meaning .typeName).bind fun _ _ type => .step fun name => ?_
  refine alike.declares (by simp [Fields.names]) (by simp [Fields.Worded]) nofun ?_
  simp [type,alike.good.text,Part.optionalText,alike.good.ofOption]

theorem stateVariableDeclaration_tied (alike : Alike terms related .stateVariableDeclaration one two) :
    Tied terms related one.stateVariableDeclaration two.stateVariableDeclaration := by
  simp only [Phrase.stateVariableDeclaration,alike.textOf,alike.has,wordAmong_eq alike.paired]
  refine (alike.meaning .typeName).bind fun _ _ type => .step fun name => ?_
  refine (alike.meaning .expression).bind fun _ _ value => ?_
  refine (alike.declares (by simp [Fields.names]) (by simp [Fields.Worded]) nofun
    (by simp [type,value,alike.good.text,alike.good.bool])).bind fun _ _ declared => ?_
  apply alike.makes (by simp [Fields.names]) (by simp [Fields.Worded]) (by decide)
  simp [value,alike.good.list (.cons declared .nil)]

theorem eventDefinition_tied (alike : Alike terms related .eventDefinition one two) :
    Tied terms related one.eventDefinition two.eventDefinition := by
  simp only [Phrase.eventDefinition,alike.textOf,alike.has]
  refine .step fun name => (alike.meaning .eventParameterList).bind fun _ _ parameters => ?_
  apply alike.makes (by simp [Fields.names]) (by simp [Fields.Worded]) (by decide)
  simp [parameters,alike.good.text,alike.good.bool]

theorem listedEventParameter_tied (alike : Alike terms related .eventParameterList one two)
    (twin : Part.Twin terms related part other) :
    Tied terms related (one.listedEventParameter part) (two.listedEventParameter other) := by
  have inside : Twins terms related part.parts other.parts := twin.inside
  simp only [Phrase.listedEventParameter,inside.any,(inside.all .identifier).head.optionalText]
  refine (alike.meaningOf (inside.all .typeName).head).bind fun _ _ type => ?_
  refine alike.declares (by simp [Fields.names]) (by simp [Fields.Worded]) nofun ?_
  simp [type,alike.good.bool,Part.optionalText,alike.good.ofOption]

theorem eventParameterList_tied (alike : Alike terms related .eventParameterList one two) :
    Tied terms related one.eventParameterList two.eventParameterList := by
  refine (Tied.mapM (alike.all .eventParameter) fun _ _ twin => alike.listedEventParameter_tied twin).bind
    fun _ _ parameters => ?_
  exact alike.makes (by simp [Fields.names]) (by simp [Fields.Worded]) (by decide) (by simp [alike.good.list parameters])

theorem eventParameter_tied (alike : Alike terms related .eventParameter one two) :
    Tied terms related one.eventParameter two.eventParameter := by
  simp only [Phrase.eventParameter,alike.textOf,alike.has]
  refine (alike.meaning .typeName).bind fun _ _ type => .step fun name => ?_
  refine alike.declares (by simp [Fields.names]) (by simp [Fields.Worded]) nofun ?_
  simp [type,alike.good.text,alike.good.null,alike.good.bool]

end Definitions

theorem lastMeaning_tied (alike : Alike terms related rule one two) :
    Tied terms related one.lastMeaning two.lastMeaning := by
  refine alike.paired.meanings.bind fun values others paired => .ok ?_
  have last := List.forall₂_reverse_iff.mpr paired
  rw [← List.head?_reverse,← List.head?_reverse]
  generalize values.reverse = values at last
  generalize others.reverse = others at last
  cases last with
  | nil => exact alike.good.null
  | cons same _ => exact same

theorem meaning_tied (alike : Alike terms related rule one two) :
    Tied terms related (one.meaning rule) (two.meaning rule) := by
  cases rule with
  | sourceUnit => exact alike.sourceUnit_tied
  | pragmaDirective => exact alike.pragmaDirective_tied
  | importDirective => exact alike.importDirective_tied
  | contractDefinition => exact alike.contractDefinition_tied
  | inheritanceSpecifier => exact alike.inheritanceSpecifier_tied
  | contractPart => exact alike.contractPart_tied
  | stateVariableDeclaration => exact alike.stateVariableDeclaration_tied
  | fileLevelConstant => exact alike.fileLevelConstant_tied
  | customErrorDefinition => exact alike.customErrorDefinition_tied
  | typeDefinition => exact alike.typeDefinition_tied
  | usingForDeclaration => exact alike.usingForDeclaration_tied
  | structDefinition => exact alike.structDefinition_tied
  | modifierDefinition => exact alike.modifierDefinition_tied
  | modifierInvocation => exact alike.modifierInvocation_tied
  | functionDefinition => exact alike.functionDefinition_tied
  | returnParameters => exact alike.meaning .parameterList
  | eventDefinition => exact alike.eventDefinition_tied
  | enumValue => exact alike.named_tied (by decide) (by decide)
  | enumDefinition => exact alike.enumDefinition_tied
  | parameterList => exact alike.parameterList_tied
  | parameter => exact alike.parameter_tied
  | eventParameterList => exact alike.eventParameterList_tied
  | eventParameter => exact alike.eventParameter_tied
  | functionTypeParameter => exact alike.functionTypeParameter_tied
  | variableDeclaration => exact alike.variableDeclaration_tied
  | typeName => exact alike.typeName_tied
  | userDefinedTypeName => exact alike.userDefinedTypeName_tied
  | mapping => exact alike.mapping_tied
  | functionTypeName => exact alike.functionTypeName_tied
  | block => exact alike.block_tied
  | statement => exact alike.meaningAt 0
  | simpleStatement => exact alike.meaningAt 0
  | assemblyExpression => exact alike.meaningAt 0
  | expressionStatement => exact alike.expressionStatement_tied
  | ifStatement => exact alike.ifStatement_tied
  | tryStatement => exact alike.tryStatement_tied
  | catchClause => exact alike.catchClause_tied
  | whileStatement => exact alike.whileLoop_tied (by decide) (by decide)
  | uncheckedStatement => exact alike.uncheckedStatement_tied
  | forStatement => exact alike.forStatement_tied
  | inlineAssemblyStatement => exact alike.inlineAssemblyStatement_tied
  | doWhileStatement => exact alike.whileLoop_tied (by decide) (by decide)
  | returnStatement => exact alike.meaning .expression
  | throwStatement => exact alike.throwStatement_tied
  | emitStatement => exact alike.emitStatement_tied
  | revertStatement => exact alike.revertStatement_tied
  | variableDeclarationStatement => exact alike.variableDeclarationStatement_tied
  | variableDeclarationList => exact alike.variableDeclarationList_tied
  | identifierList => exact alike.identifierList_tied
  | elementaryTypeName => exact alike.elementaryTypeName_tied
  | expression => exact alike.expression_tied
  | primaryExpression => exact alike.primaryExpression_tied
  | functionCall => exact alike.functionCall_tied
  | assemblyBlock => exact alike.assemblyBlock_tied
  | assemblyItem => exact alike.assemblyItem_tied
  | assemblyMember => exact .fails
  | assemblyCall => exact alike.assemblyCall_tied
  | assemblyLocalDefinition => exact alike.assignment_tied (by decide) (by decide)
  | assemblyAssignment => exact alike.assignment_tied (by decide) (by decide)
  | assemblyStackAssignment => exact alike.named_tied (by decide) (by decide)
  | labelDefinition => exact alike.named_tied (by decide) (by decide)
  | assemblySwitch => exact alike.assemblySwitch_tied
  | assemblyCase => exact alike.assemblyCase_tied
  | assemblyFunctionDefinition => exact alike.assemblyFunctionDefinition_tied
  | assemblyFor => exact alike.assemblyFor_tied
  | assemblyIf => exact alike.assemblyIf_tied
  | assemblyLiteral => exact alike.assemblyLiteral_tied
  | tupleExpression => exact alike.tupleExpression_tied
  | numberLiteral => exact alike.numberLiteral_tied
  | identifier => exact alike.identifier_tied
  | _ => exact alike.lastMeaning_tied

end Alike

end SolReader
