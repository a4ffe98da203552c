import SolReader.Proofs.Grammar.Phrases
import SolReader.Proofs.Parse.Frames
import SolReader.Proofs.Parse.Outcome

namespace SolReader

open List Bool

namespace Decision

theorem key_rule {rule : Rule} (place : todo ∈ rule.form.places []) {decision : Decision}
    (made : ofTodo? todo = some (label,decision)) : label.rule = rule := by
  have checked := keys_checked rule
  rw [and_eq_true] at checked
  have listed : label ∈ keys rule := mem_filterMap.mpr ⟨todo,place,by simp [key?,made]⟩
  exact Label.rule_eq (by simpa using all_eq_true.mp checked.2 label listed)

-- Where another round of a rule that begins with itself is decided on, nothing comes after the rounds.
set_option maxRecDepth 100000 in
theorem repeats_checked : (Grammar.places.all fun
    | .loop .again entry back body :: rest =>
      let round := Todo.reach (body :: .loop .again entry back body :: rest)
      !round.isLeveled ||
        (rest.isEmpty && round.calls.isEmpty && !round.ends && round.heads.all (·.label.isRound))
    | _ => true) = true := by
  decide

theorem repeats_loop (place : .loop .again entry back body :: rest ∈ Grammar.places) :
    Repeats (Todo.reach (body :: .loop .again entry back body :: rest)).isLeveled
      [Todo.reach (body :: .loop .again entry back body :: rest),Todo.reach rest] := by
  intro leveled
  have checked := List.all_eq_true.mp repeats_checked _ place
  simp only [leveled,Bool.not_true,Bool.false_or,Bool.and_eq_true,List.isEmpty_iff,Bool.not_eq_true',
    List.all_eq_true] at checked
  obtain ⟨⟨⟨rfl,calls⟩,ends⟩,rounds⟩ := checked
  exact ⟨_,rfl,calls,ends,rounds⟩

theorem repeats_plain (reaches : List Reach) : Repeats false reaches := fun recursive => by cases recursive

theorem exists_chosen (member : reach ∈ reaches) (reads : reach.Reads level sites ahead) :
    ∃ option, Chosen level reaches sites ahead option := by
  classical
  obtain ⟨index,found⟩ := mem_iff_getElem?.mp member
  have filled : ∃ option, ∃ reach, 1 ≤ option ∧ reaches[option - 1]? = some reach ∧ reach.Reads level sites ahead :=
    ⟨index + 1,reach,by omega,found,reads⟩
  exact ⟨Nat.find filled,Nat.find_spec filled,fun option' reach counted found reads =>
    Nat.find_min' filled ⟨reach,counted,found,reads⟩⟩

end Decision

namespace Parse

variable {input : Input}

section Pick

variable {base : Rule} {parse : Parse} {sites : List Label}

-- The kinds of the tokens ahead.
def kindsAhead (parse : Parse) : List Kind := parse.input.ahead.map (·.kind)

-- What is left to do in the innermost frame, and then in the others, reads the tokens ahead.
def Reads (parse : Parse) (sites : List Label) (todo : Todo) : Prop :=
  (Todo.reach todo).Reads parse.frame.level sites parse.kindsAhead

variable {isRecursive mayPass : Bool} {options : List Todo}

-- The first option with which the whole text can be read is picked, by one token or by looking ahead.
theorem pick_chosen (outermost : base.callers = []) (framed : Framed base parse.frame parse.callers sites)
    (closed : Token.Closed parse.input.ahead) (sited : ∀ option ∈ options, Todo.Sited parse.frame.rule option)
    (repeats : Decision.Repeats isRecursive (options.map Todo.reach)) (two : mayPass = true → options.length = 2)
    (chosen : Decision.Chosen parse.frame.level (options.map Todo.reach) sites parse.kindsAhead index) :
    ∃ looked, parse.pick (.make parse.frame.rule isRecursive (options.map Todo.reach)) mayPass =
      ({ parse with looked },.ok index) := by
  have located : ∀ reach ∈ options.map Todo.reach, reach.Located parse.frame.rule := by
    intro reach member
    obtain ⟨option,listed,rfl⟩ := mem_map.mp member
    exact Todo.reach_located (sited option listed)
  cases tested : (Decision.make parse.frame.rule isRecursive (options.map Todo.reach)).tests with
  | none =>
    have option := Decision.forecast_option outermost located framed.linked repeats closed chosen
    simp only [pick,tested,framed.pending,option]
    exact ⟨_,rfl⟩
  | some tests =>
    obtain ⟨⟨reach,counted,found,reads⟩,_⟩ := chosen
    have first := Decision.tests_index framed.linked tested found reads
    simp only [pick,tested,first]
    have bound := (List.getElem?_eq_some_iff.mp found).1
    have exactly : (if mayPass = true then min (index - 1) 1 + 1 else index - 1 + 1) = index := by
      split
      · rename_i passes
        have count := two passes
        rw [length_map] at bound
        omega
      · omega
    exact ⟨parse.looked,by rw [exactly]⟩

theorem follow_reads (outermost : base.callers = []) (framed : Framed base parse.frame parse.callers sites)
    (closed : Token.Closed parse.input.ahead) (sited : ∀ option ∈ options, Todo.Sited parse.frame.rule option)
    (repeats : Decision.Repeats isRecursive (options.map Todo.reach)) (two : mayPass = true → options.length = 2)
    (member : option ∈ options) (reads : parse.Reads sites option) (source : List Token)
    (label : Label) : ∃ chosen ∈ options, parse.Reads sites chosen ∧ ∃ looked,
      parse.follow source label (.make parse.frame.rule isRecursive (options.map Todo.reach)) mayPass options =
        { parse with looked }.goto chosen := by
  obtain ⟨index,chosen⟩ := Decision.exists_chosen (mem_map_of_mem member) reads
  obtain ⟨looked,picked⟩ := pick_chosen outermost framed closed sited repeats two chosen
  obtain ⟨⟨reach,_,found,readable⟩,_⟩ := chosen
  obtain ⟨target,listed,rfl⟩ := Option.map_eq_some_iff.mp ((List.getElem?_map ..).symm.trans found)
  have same : options.getD (index - 1) [] = target := by
    rw [getD_eq_getElem?_getD,listed]
    rfl
  exact ⟨target,mem_of_getElem? listed,readable,looked,by simp only [follow,picked,same]⟩

theorem passes (quiet : parse.widened = []) (reads : parse.Reads sites parse.frame.todo) :
    parse.next.kinds.contains parse.input.current.kind = true ∨ parse.next.ends = true := by
  have same : parse.next = parse.frame.todo.next := by
    rw [next]
    split
    · rw [quiet]
      rfl
    · rfl
  rw [same,← (Todo.reach_agrees parse.frame.todo).ends,← (Todo.reach_agrees parse.frame.todo).kinds]
  cases reads with
  | take meets taken _ =>
    cases meets with
    | own member _ =>
      exact .inl (Decision.contains_of_enters (Reach.Enters.own member : (Todo.reach _).Enters sites _ sites) taken)
    | call member enters => exact .inl (Decision.contains_of_enters (.call member enters) taken)
    | up ends _ => exact .inr ends

theorem checkEntry_passes (quiet : parse.widened = []) (reads : parse.Reads sites parse.frame.todo) :
    parse.checkEntry = (parse,true) := by
  rw [checkEntry,if_pos]
  rcases passes quiet reads with known | ends
  · simp [known]
  · simp [ends]

theorem checkRound_passes (quiet : parse.widened = []) (reads : parse.Reads sites parse.frame.todo) (label : Label) :
    parse.checkRound label = parse := by
  rw [checkRound]
  dsimp only
  rw [if_pos]
  rcases passes quiet reads with known | ends
  · simp [known]
  · simp [ends]

end Pick

theorem whole_uncalled : Rule.sourceUnit.callers = [] := by
  refine eq_nil_iff_forall_not_mem.mpr fun (site,level) calls => ?_
  obtain ⟨rest,place⟩ := Rule.mem_callers.mp calls
  have checked := all_eq_true.mp calls_checked _ place
  simp at checked

-- The tokens ahead can be read from here, or the end of the text has been taken.
structure Readable (parse : Parse) : Prop where
  diagnostics : parse.diagnostics = []
  widened : parse.widened = []
  ahead : (∃ sites, Framed .sourceUnit parse.frame parse.callers sites ∧ parse.Reads sites parse.frame.todo) ∨
    (parse.frame.todo = [] ∧ parse.callers = [])

section Step

variable {source : List Token}
variable {parse after : Parse} {sites : List Label} {rest : Todo}

theorem Readable.goto {looked : Nat} (readable : Readable parse)
    (framed : Framed .sourceUnit parse.frame parse.callers sites) (reads : parse.Reads sites todo) :
    Readable ({ parse with looked }.goto todo) :=
  ⟨readable.diagnostics,readable.widened,.inl ⟨sites,framed.same rfl,reads⟩⟩

theorem Readable.take (readable : Readable parse) (placed : Placed parse)
    (framed : Framed .sourceUnit parse.frame parse.callers sites) (reads : parse.Reads sites parse.frame.todo)
    {form : Form Label} (head : parse.frame.todo = form :: rest) {kinds : KindSet} (takes : form.Takes kinds)
    (label : Label) (source : List Token) (isSet : Bool) : Readable (parse.take source label kinds isSet rest) := by
  have sited := head ▸ placed.top
  obtain ⟨_,_,first,after,own⟩ := takes.marked sited
  rw [Parse.Reads,head,Todo.reads_head first after] at reads
  obtain ⟨kind,others,same,taken,reads⟩ := reads
  obtain ⟨rfl,rfl⟩ : parse.input.current.kind = kind ∧ parse.input.later.map (·.kind) = others := by
    simpa [kindsAhead,Input.ahead] using same
  rw [Parse.take,if_pos taken]
  cases ended : parse.input.atEnd with
  | true =>
    -- only a whole source takes the end of the text, and it does so last
    rw [consume_of_atEnd parse.settle ended]
    have last : parse.input.current.kind = .eof := (Input.atEnd_iff placed.closed).mp ended
    obtain ⟨rfl,outer⟩ := takes_last sited takes (last ▸ taken)
    have alone : parse.callers = [] := by
      generalize parse.callers = callers at framed
      cases framed with
      | outermost _ _ _ => rfl
      | called _ calls _ _ _ => simp [outer,whole_uncalled] at calls
    exact ⟨readable.diagnostics,readable.widened,.inr ⟨rfl,alone⟩⟩
  | false =>
    rw [consume_of_more parse.settle ended]
    have later : parse.input.advance.ahead.map (·.kind) = parse.input.later.map (·.kind) := by
      have split := Input.ahead_advance ended
      rw [Input.ahead] at split
      rw [(List.cons.inj split).2]
    refine ⟨readable.diagnostics,readable.widened,.inl ⟨sites,framed.same rfl,?_⟩⟩
    rw [← after,← later] at reads
    have raised := framed.raised own reads
    rw [after] at raised
    exact raised

theorem Readable.follow (readable : Readable parse) (placed : Placed parse)
    (framed : Framed .sourceUnit parse.frame parse.callers sites) {options : List Todo}
    (sited : ∀ option ∈ options, Todo.Sited parse.frame.rule option)
    (repeats : Decision.Repeats isRecursive (options.map Todo.reach)) (two : mayPass = true → options.length = 2)
    (member : option ∈ options) (reads : parse.Reads sites option) {decision : Decision}
    (made : decision = .make parse.frame.rule isRecursive (options.map Todo.reach)) (source : List Token) (label : Label) :
    Readable (parse.follow source label decision mayPass options) := by
  obtain ⟨chosen,_,reads,looked,same⟩ :=
    follow_reads whole_uncalled framed placed.closed sited repeats two member reads source label
  rw [made,same]
  exact readable.goto framed reads

theorem Readable.loop (readable : Readable parse) (placed : Placed parse)
    (framed : Framed .sourceUnit parse.frame parse.callers sites)
    (sited : Todo.Sited parse.frame.rule (.loop rounds entry back body :: rest))
    (repeats : rounds ≠ .atLeastOne) (reads : parse.Reads sites (.loop rounds entry back body :: rest))
    (source : List Token) (label : Label) : Readable
      (parse.follow source label (Decision.get entry) true [body :: .loop .again entry back body :: rest,rest]) := by
  have parts := Todo.sited_loop sited
  have again : .loop .again entry back body :: rest ∈ parse.frame.rule.form.places [] := parts.2.place rfl
  have place := again_mem_places sited
  have made := Decision.get_of_place place rfl
  rw [Decision.key_rule again rfl] at made
  obtain ⟨option,member,reads⟩ : ∃ option ∈ [body :: .loop .again entry back body :: rest,rest],
      parse.Reads sites option := by
    rcases (Todo.reads_loop sited repeats).mp reads with more | spent
    · exact ⟨_,mem_cons_self,more⟩
    · exact ⟨_,mem_cons_of_mem _ (mem_singleton_self _),spent⟩
  exact readable.follow placed framed (forall_mem_cons.mpr ⟨parts,forall_mem_singleton.mpr sited.2⟩)
    (Decision.repeats_loop place) (fun _ => rfl) member reads made source label

theorem Readable.step_ahead (readable : Readable parse) (placed : Placed parse)
    (framed : Framed .sourceUnit parse.frame parse.callers sites) (reads : parse.Reads sites parse.frame.todo)
    (next : parse.step source = .more after) : Readable after := by
  have entry := checkEntry_passes readable.widened reads
  have round := checkRound_passes readable.widened reads
  match head : parse.frame.todo, placed.top with
  | [], _ =>
    simp only [Parse.step,head,Parse.leave] at next
    rw [head] at reads
    cases below : parse.callers with
    | nil =>
      rw [below] at next
      cases next
    | cons caller callers =>
      rw [below] at next framed
      cases next
      cases framed with
      | called _ _ own after below =>
        have onward := below.raised own ((Reach.reads_nothing parse.frame.level).mp reads)
        rw [after] at onward
        exact ⟨readable.diagnostics,readable.widened,.inl ⟨_,below.same rfl,onward⟩⟩
  | .skip :: rest, _ =>
    simp only [Parse.step,head] at next
    cases next
    rw [head,Parse.Reads,Todo.reach_skip] at reads
    exact readable.goto framed reads
  | .seq first second :: rest, sited =>
    simp only [Parse.step,head] at next
    cases next
    rw [head,Parse.Reads,Todo.reach_seq sited] at reads
    exact readable.goto framed reads
  | .token label kind :: rest, _ =>
    simp only [Parse.step,head] at next
    cases next
    exact readable.take placed framed reads head (.token label kind) label source false
  | .oneOf label kinds :: rest, _ =>
    simp only [Parse.step,head] at next
    cases next
    exact readable.take placed framed reads head (.oneOf label kinds) label source true
  | .call label rule level :: rest, sited =>
    simp only [Parse.step,head] at next
    cases next
    rw [head,Parse.Reads,Todo.reads_call sited _ level,← Rule.reach_start] at reads
    have place := sited.place rfl
    refine ⟨readable.diagnostics,readable.widened,.inl ⟨label :: sites,.called rfl ?_ ?_ ?_ (framed.same rfl),reads⟩⟩
    · exact Rule.mem_callers.mpr ⟨rest,Grammar.mem_places sited.mem rfl⟩
    · exact Label.rule_of_mark place rfl
    · exact Label.after_eq place rfl
  | .wrap label level :: rest, sited =>
    rw [head,Parse.Reads,Todo.reads_wrap sited] at reads
    simp only [Parse.step,head,reads.1,if_true] at next
    cases next
    exact ⟨readable.diagnostics,readable.widened,.inl ⟨sites,framed.same rfl,reads.2⟩⟩
  | .choice label options :: rest, sited =>
    simp only [Parse.step,head,Parse.enter,entry] at next
    cases next
    rw [head,Parse.Reads,Todo.reads_choice sited] at reads
    obtain ⟨option,member,reads⟩ := reads
    have made := Decision.get_of_place (Grammar.mem_places sited.mem rfl) rfl
    rw [Decision.key_rule (sited.place rfl) rfl] at made
    have each : ∀ todo ∈ options.map (· :: rest), Todo.Sited parse.frame.rule todo := by
      intro todo listed
      obtain ⟨option,inside,rfl⟩ := mem_map.mp listed
      exact Todo.sited_option sited inside
    exact readable.follow placed framed each (Decision.repeats_plain _) (fun passes => by cases passes)
      (mem_map_of_mem member) reads (by rw [made,map_map]; rfl) source label
  | .optional label body :: rest, sited =>
    simp only [Parse.step,head,Parse.enter,entry] at next
    cases next
    have made := Decision.get_of_place (Grammar.mem_places sited.mem rfl) rfl
    rw [Decision.key_rule (sited.place rfl) rfl] at made
    rw [head,Parse.Reads,Todo.reads_optional sited] at reads
    obtain ⟨option,member,reads⟩ : ∃ option ∈ [body :: rest,rest], parse.Reads sites option := by
      rcases reads with inside | past
      · exact ⟨_,mem_cons_self,inside⟩
      · exact ⟨_,mem_cons_of_mem _ (mem_singleton_self _),past⟩
    exact readable.follow placed framed
      (forall_mem_cons.mpr ⟨Todo.sited_body sited,forall_mem_singleton.mpr sited.2⟩)
      (Decision.repeats_plain _) (fun _ => rfl) member reads made source label
  | .loop .many start back body :: rest, sited =>
    simp only [Parse.step,head,Parse.enter,entry] at next
    cases next
    exact readable.loop placed framed sited (by decide) (head ▸ reads) source start
  | .loop .atLeastOne start back body :: rest, sited =>
    simp only [Parse.step,head,entry] at next
    cases next
    rw [head,Parse.Reads,Todo.reach_first sited] at reads
    exact readable.goto framed reads
  | .loop .again start back body :: rest, sited =>
    simp only [Parse.step,head,round] at next
    cases next
    exact readable.loop placed framed sited (by decide) (head ▸ reads) source back

theorem Readable.step (readable : Readable parse) (placed : Placed parse)
    (next : parse.step source = .more after) : Readable after := by
  rcases readable.ahead with ⟨sites,framed,reads⟩ | ⟨done,alone⟩
  · exact readable.step_ahead placed framed reads next
  · rw [Parse.step,done,Parse.leave,alone] at next
    cases next

end Step

theorem start_readable (reads : Rule.sourceUnit.reach.Reads 0 [] (input.ahead.map (·.kind))) :
    Readable (start .sourceUnit input) := by
  rw [← Rule.reach_start] at reads
  exact ⟨rfl,rfl,.inl ⟨[],.outermost rfl rfl rfl,reads⟩⟩

theorem outcome_readable (closed : Token.Closed input.ahead)
    (reads : Rule.sourceUnit.reach.Reads 0 [] (input.ahead.map (·.kind))) :
    (outcome source .sourceUnit input).2.1.diagnostics = [] := by
  cases ran : outcome source .sourceUnit input with
  | mk tree rest =>
    exact (run_follows Readable source (fun placed readable next _ => readable.step placed next) _ (start_placed closed)
      (start_readable reads) ran).2.1.diagnostics

-- A source is read without a report just if its tokens, with the end of the text after them, are a phrase of the grammar
-- of whole sources; levels of binding make no difference for that.
theorem outcome_clean_iff (source : List Token) (input : Input) (closed : Token.Closed input.ahead) :
    (outcome source .sourceUnit input).2.1.diagnostics = [] ↔
      ∃ tree, Tree.Phrase .sourceUnit tree ∧ tree.tokens.map (·.kind) = input.ahead.map (·.kind) := by
  constructor
  · intro clean
    cases ran : outcome source .sourceUnit input with
    | mk tree rest =>
      rw [ran] at clean
      obtain ⟨_,_,derives,_⟩ := outcome_last closed ran clean
      exact ⟨tree,derives.phrase,by rw [outcome_whole closed ran clean]⟩
  · rintro ⟨tree,phrase,same⟩
    have spent : (Todo.reach []).Reads 0 [] [] := .done (.bottom rfl)
    have reads := phrase.gives.reads Rule.sourceUnit.form_facts.1 (Todo.sited_start .sourceUnit) spent
    rw [append_nil,Rule.reach_start,same] at reads
    exact outcome_readable closed reads

-- An enumeration without members, as tokens.
def emptyEnum : Input :=
  ⟨⟨.kwEnum,"enum",⟨1,0⟩,0,4⟩,[⟨.identifier,"E",⟨1,5⟩,5,1⟩,⟨.lbrace,"\x7b",⟨1,7⟩,7,1⟩,
    ⟨.rbrace,"\x7d",⟨1,8⟩,8,1⟩,.endOfText ⟨1,9⟩ 9]⟩

set_option maxRecDepth 100000 in
theorem emptyEnum_clean : (outcome [] .sourceUnit emptyEnum).2.1.diagnostics = [] := by
  decide

theorem emptyEnum_phrase : Token.Closed emptyEnum.ahead ∧
    ∃ tree, Tree.Phrase .sourceUnit tree ∧ tree.tokens.map (·.kind) = [.kwEnum,.identifier,.lbrace,.rbrace,.eof] := by
  have closed : Token.Closed emptyEnum.ahead := by simp [emptyEnum,Input.ahead,Token.Closed,Token.endOfText]
  exact ⟨closed,(outcome_clean_iff [] emptyEnum closed).mp emptyEnum_clean⟩

end Parse

end SolReader
