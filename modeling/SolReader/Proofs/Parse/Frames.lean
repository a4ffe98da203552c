import SolReader.Proofs.Parse.Stack
import SolReader.Proofs.Prediction.Glance
import SolReader.Proofs.Prediction.Todo

namespace SolReader

theorem Form.Takes.marked {form : Form Label} {kinds : KindSet} (takes : form.Takes kinds)
    (sited : Todo.Sited rule (form :: rest)) : ∃ label, form.label? = some label ∧
      form.reach Rule.reach = .head label kinds ∧ label.after = Todo.reach rest ∧ label.rule = rule := by
  cases takes with
  | token label kind => exact ⟨label,rfl,rfl,Label.after_eq (sited.place rfl) rfl,Label.rule_of_mark (sited.place rfl) rfl⟩
  | oneOf label kinds =>
    exact ⟨label,rfl,rfl,Label.after_eq (sited.place rfl) rfl,Label.rule_of_mark (sited.place rfl) rfl⟩

namespace Parse

-- The calls under which a frame stands, down to the rule that the parse began with.
inductive Framed (base : Rule) : Frame → List Frame → List Label → Prop where
  | outermost {frame : Frame} (rule : frame.rule = base) (level : frame.level = 0) (site : frame.site = none) :
      Framed base frame [] []
  | called {frame caller : Frame} {callers : List Frame} {site : Label} {sites : List Label}
      (opened : frame.site = some site) (calls : (site,frame.level) ∈ frame.rule.callers)
      (own : site.rule = caller.rule) (after : site.after = Todo.reach caller.todo)
      (below : Framed base caller callers sites) : Framed base frame (caller :: callers) (site :: sites)

variable {base : Rule} {frame other : Frame} {callers : List Frame} {sites : List Label}

theorem Framed.same (framed : Framed base frame callers sites) (title : other.title = frame.title) :
    Framed base other callers sites := by
  obtain ⟨rule,level,site⟩ : other.rule = frame.rule ∧ other.level = frame.level ∧ other.site = frame.site := by
    simpa [Frame.title] using title
  cases framed with
  | outermost rule' level' site' => exact .outermost (rule.trans rule') (level.trans level') (site.trans site')
  | called opened calls own after below =>
    exact .called (site.trans opened) (by rw [rule,level]; exact calls) own after below

theorem Framed.asked (framed : Framed base frame callers sites) :
    frame.level = 0 ∨ ∃ site, (site,frame.level) ∈ frame.rule.callers := by
  cases framed with
  | outermost _ level _ => exact .inl level
  | called _ calls _ _ _ => exact .inr ⟨_,calls⟩

theorem Framed.linked (framed : Framed base frame callers sites) : Linked base frame.rule sites := by
  induction framed with
  | outermost rule _ _ => exact rule
  | called _ calls own _ _ ih => exact ⟨⟨_,calls⟩,own ▸ ih⟩

theorem Framed.pending {parse : Parse} (framed : Framed base parse.frame parse.callers sites) :
    parse.pending = .single sites := by
  rw [Parse.pending,List.foldr_cons]
  generalize parse.frame = frame at framed
  generalize parse.callers = callers at framed
  induction framed with
  | outermost _ _ site =>
    rw [site]
    rfl
  | called opened _ _ _ _ ih =>
    rw [opened,List.foldr_cons,ih]
    rfl

-- The level asked for does not matter for what can be read behind a token or a call.
theorem Framed.raised (framed : Framed base frame callers sites) {label : Label} (own : label.rule = frame.rule)
    {kinds : List Kind} (reads : label.after.Reads 0 sites kinds) : label.after.Reads frame.level sites kinds := by
  cases framed with
  | outermost _ level _ => rwa [level]
  | called _ calls _ _ _ =>
    obtain ⟨same,closes⟩ := Rule.caller_facts calls
    by_cases free : frame.level = 0
    · rwa [free]
    · exact reads.raised (closes free) ((same (closes free)).trans own.symm) frame.level

theorem Effect.framed (effect : Effect before after) (placed : Placed before)
    (framed : Framed base before.frame before.callers sites) : ∃ sites, Framed base after.frame after.callers sites := by
  have keeps (callers : after.callers = before.callers) (title : after.frame.title = before.frame.title) :
      ∃ sites, Framed base after.frame after.callers sites := ⟨sites,callers ▸ framed.same title⟩
  cases effect with
  | left _ below alike =>
    rw [below] at framed
    rw [alike.frame,alike.callers]
    cases framed with
    | called _ _ _ _ below => exact ⟨_,below.same rfl⟩
  | @opened count _ _ alike => exact keeps (alike.callers.trans (dropped_callers ..)) (alike.title.trans (dropped_title count before))
  | @called label rule level rest head alike =>
    have sited := head ▸ placed.top
    have place := sited.place rfl
    rw [alike.frame,alike.callers]
    refine ⟨label :: sites,.called rfl (Rule.mem_callers.mpr ⟨rest,Grammar.mem_places sited.mem rfl⟩)
      (Label.rule_of_mark place rfl) (Label.after_eq place rfl) (framed.same rfl)⟩
  | wrapped _ _ alike => exact keeps alike.callers alike.title
  | matched _ _ _ alike => exact keeps alike.callers alike.title
  | matchedLate _ _ _ alike => exact keeps alike.callers alike.title
  | supplied _ _ _ _ alike =>
    rcases alike with alike | ⟨_,_,alike⟩
    · exact keeps alike.callers alike.title
    · exact keeps alike.callers alike.title
  | @abandoned _ _ _ base count _ _ origin givesUp =>
    exact keeps (givesUp.alike.callers.trans ((dropped_callers count base).trans (origin_same origin).1))
      (givesUp.alike.title.trans ((dropped_title count base).trans (origin_title origin)))

end Parse

end SolReader
