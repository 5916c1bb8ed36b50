import Mathlib.Data.List.Forall2
import StoryPress.Proofs.ScriptText

/-!
# Authored text in scripts

Scripts whose plans differ in authored text only differ inside literals and comments.

* `ScriptPlan.Reworded`: two plans differ in nothing but authored text and targets that lead to the same place;
* `ScriptText.Agree`: two lines are the same, or literals of one form, or comments, at one depth;
* `ScriptPlan.same_structure`: reworded plans give scripts that agree line by line.
-/

namespace StoryPress

/-- A label book gives out the label, for some text and some lead that is made as names are. -/
def LabelBook.Gives (l : String) : Prop :=
  ∃ (book : LabelBook) (raw lead : String), (∀ c ∈ lead.toList, Naming.NameChar c) ∧ l = (book.allocate raw lead).1

theorem LabelBook.Gives.onLine {l : String} (h : Gives l) : OnLine l := by
  obtain ⟨book, raw, lead, hlead, rfl⟩ := h
  exact onLine_of_named fun _ => nameChar_of_mem_allocate hlead

namespace ScriptText

/-! ## Lines with literals and comments -/

/-- What stands around the literals of a line. -/
inductive LiteralForm where
  | text
  /-- A speaker before the text. -/
  | spoken
  /-- A colon after the text. -/
  | caption
deriving DecidableEq

/-- The form of a line after its opening quote, if nothing but literals stands there. -/
def literalForm? (cs : List Char) : Option LiteralForm :=
  match Quoted.decode cs with
  | some (_, []) => some .text
  | some (_, [':']) => some .caption
  | some (_, ' ' :: '"' :: rest) =>
    match Quoted.decode rest with
    | some (_, []) => some .spoken
    | _ => none
  | _ => none

/-- The form of a line with literals. -/
def literal? (line : String) : Option LiteralForm :=
  match content line with
  | '"' :: rest => literalForm? rest
  | _ => none

def isComment (line : String) : Bool := (content line).head? == some '#'

/-- The number of spaces that a line begins with. -/
def indentation (line : String) : Nat := (line.toList.takeWhile (· == ' ')).length

/-- A line that is neither made of literals nor a comment. -/
def isStatement (line : String) : Bool := (literal? line).isNone && !isComment line

/-- The lines are the same, or differ inside literals, or in a comment. -/
inductive Agree (a b : String) : Prop where
  | same (h : a = b)
  | literal (form : LiteralForm) (ha : literal? a = some form) (hb : literal? b = some form)
      (hi : indentation a = indentation b)
  | comment (ha : isComment a = true) (hb : isComment b = true) (hi : indentation a = indentation b)

theorem Agree.isStatement_imp {a b : String} (h : Agree a b) (ha : isStatement a = true ∨ isStatement b = true) :
    a = b := by
  cases h with
  | same h => exact h
  | literal form hla hlb => simp [isStatement, hla, hlb] at ha
  | comment hca hcb => simp [isStatement, hca, hcb] at ha

/-- Files of which only literals and comments differ. -/
structure SameStructure (a b : String) : Prop where
  length_eq : (linesOf a).length = (linesOf b).length
  no_return : '\r' ∉ a.toList ∧ '\r' ∉ b.toList
  agree : List.Forall₂ Agree (linesOf a) (linesOf b)
  statements_eq : (linesOf a).filter isStatement = (linesOf b).filter isStatement

theorem filter_isStatement_eq {a b : List String} (h : List.Forall₂ Agree a b) :
    a.filter isStatement = b.filter isStatement := by
  induction h with
  | nil => rfl
  | @cons x y xs ys hxy _ ih =>
    by_cases hx : isStatement x = true ∨ isStatement y = true
    · obtain rfl := hxy.isStatement_imp hx
      simp [List.filter_cons, ih]
    · rw [not_or] at hx
      simp [hx, ih]

end ScriptText

/-! ## Lines that differ in authored text -/

/-- The lines are the same statement at the same depth, but for authored text. -/
inductive Line.Reworded : Line → Line → Prop where
  | same (l : Line) : Reworded l l
  | say (depth : Nat) {speaker speaker' : Option String} (h : speaker.isSome = speaker'.isSome)
      (text text' : String) : Reworded ⟨depth, .say speaker text⟩ ⟨depth, .say speaker' text'⟩
  | option (depth : Nat) (text text' : String) : Reworded ⟨depth, .option text⟩ ⟨depth, .option text'⟩
  | comment (depth : Nat) (text text' : String) : Reworded ⟨depth, .comment text⟩ ⟨depth, .comment text'⟩

namespace ScriptText

theorem indentation_text (l : Line) : indentation l.text = 4 * l.depth := by
  rw [indentation, Line.toList_text, List.takeWhile_append_of_pos fun c hc => by simp [List.eq_of_mem_replicate hc],
    l.statement.takeWhile_text, List.append_nil, List.length_replicate]

theorem indentation_congr (depth : Nat) (s s' : Statement) :
    indentation (Line.text ⟨depth, s⟩) = indentation (Line.text ⟨depth, s'⟩) := by
  rw [indentation_text, indentation_text]

theorem literal?_say (depth : Nat) (text : String) : literal? (Line.text ⟨depth, .say none text⟩) = some .text := by
  have hread : Quoted.decode (Quoted.encode text.toList ++ ['"']) = some (_, []) := Quoted.decode_encode _ []
  simp only [literal?, content_text, Statement.text, Quoted.toList_quote, literalForm?, hread]

theorem literal?_option (depth : Nat) (text : String) :
    literal? (Line.text ⟨depth, .option text⟩) = some .caption := by
  have hread : Quoted.decode (Quoted.encode text.toList ++ '"' :: [':']) = some (_, [':']) :=
    Quoted.decode_encode _ [':']
  have hcolon : (":" : String).toList = [':'] := rfl
  simp only [literal?, content_text, Statement.text, String.toList_append, Quoted.toList_quote, hcolon,
    List.cons_append, List.append_assoc, List.nil_append, literalForm?, hread]

theorem literal?_spoken (depth : Nat) (speaker text : String) :
    literal? (Line.text ⟨depth, .say (some speaker) text⟩) = some .spoken := by
  have hspeaker (rest : List Char) : Quoted.decode (Quoted.encode speaker.toList ++ '"' :: rest) = some (_, rest) :=
    Quoted.decode_encode _ rest
  have hread : Quoted.decode (Quoted.encode text.toList ++ ['"']) = some (_, []) := Quoted.decode_encode _ []
  have hspace : (" " : String).toList = [' '] := rfl
  simp only [literal?, content_text, Statement.text, String.toList_append, Quoted.toList_quote, hspace,
    List.cons_append, List.append_assoc, List.nil_append, literalForm?, hspeaker, hread]

theorem isComment_comment (depth : Nat) (text : String) : isComment (Line.text ⟨depth, .comment text⟩) = true := by
  simp [isComment, content_text, Statement.text]

end ScriptText

open ScriptText

theorem Line.Reworded.agree {l l' : Line} (h : l.Reworded l') : Agree l.text l'.text := by
  cases h with
  | same => exact .same rfl
  | @say depth speaker speaker' h text text' =>
    have hi := indentation_congr depth (.say speaker text) (.say speaker' text')
    cases speaker with
    | none =>
      cases speaker' with
      | none => exact .literal .text (literal?_say depth text) (literal?_say depth text') hi
      | some s => cases h
    | some s =>
      cases speaker' with
      | none => cases h
      | some s' => exact .literal .spoken (literal?_spoken depth s text) (literal?_spoken depth s' text') hi
  | option depth text text' =>
    have hi := indentation_congr depth (.option text) (.option text')
    exact .literal .caption (literal?_option depth text) (literal?_option depth text') hi
  | comment depth text text' =>
    have hi := indentation_congr depth (.comment text) (.comment text')
    exact .comment (isComment_comment depth text) (isComment_comment depth text') hi

theorem Line.Reworded.alias?_eq {l l' : Line} (h : l.Reworded l') : l.statement.alias? = l'.statement.alias? := by
  cases h <;> rfl

/-! ## Nodes that differ in authored text -/

/-- The targets lead to the same label, or both nowhere. -/
def ChoiceOption.Reworded (t : JumpTargets) (o o' : ChoiceOption) : Prop :=
  o.target.bind t.resolve? = o'.target.bind t.resolve?

/-- The nodes differ in authored text, and in targets that lead to the same label or nowhere. -/
inductive SceneNode.Reworded (t : JumpTargets) : SceneNode → SceneNode → Prop where
  | line {speaker speaker' : Option String} (h : speaker.isSome = speaker'.isSome) (text text' : String) :
      Reworded t (.line speaker text) (.line speaker' text')
  | choice {prompt prompt' : Option String} (h : prompt.isSome = prompt'.isSome) {options options' : List ChoiceOption}
      (ho : List.Forall₂ (ChoiceOption.Reworded t) options options') :
      Reworded t (.choice prompt options) (.choice prompt' options')
  | jump {target target' : String} (h : t.resolve? target = t.resolve? target') :
      Reworded t (.jump target) (.jump target')
  | background (reference : String) : Reworded t (.background reference) (.background reference)
  | portrait (reference : String) : Reworded t (.portrait reference) (.portrait reference)
  | unsupported (type type' : String) : Reworded t (.unsupported type) (.unsupported type')

namespace CompiledScene

variable {t : JumpTargets}

theorem reworded_prompt (depth : Nat) {prompt prompt' : Option String} (h : prompt.isSome = prompt'.isSome) :
    List.Forall₂ Line.Reworded (prompt.toList.map fun p => ⟨depth, .say none p⟩)
      (prompt'.toList.map fun p => ⟨depth, .say none p⟩) := by
  cases prompt with
  | none =>
    cases prompt' with
    | none => exact .nil
    | some p => cases h
  | some p =>
    cases prompt' with
    | none => cases h
    | some p' => exact .cons (.say depth rfl p p') .nil

theorem reworded_optionLines {o o' : ChoiceOption} (h : o.Reworded t o') :
    List.Forall₂ Line.Reworded (optionLines t o) (optionLines t o') := by
  unfold optionLines
  rw [h]
  exact .cons (.option 2 o.text o'.text) (.cons (.same _) .nil)

/-- Reworded nodes become lines that differ in authored text only. -/
theorem reworded_nodeLines (catalog : AssetCatalog) {n n' : SceneNode} (h : n.Reworded t n') :
    List.Forall₂ Line.Reworded (nodeLines catalog t n) (nodeLines catalog t n') := by
  cases h with
  | line h text text' => exact .cons (.say 1 h text text') .nil
  | choice h ho =>
    cases ho with
    | nil => exact List.rel_append (reworded_prompt 1 h) (.cons (.same _) .nil)
    | cons hoo hos =>
      refine List.rel_append (List.rel_append (.cons (.same _) .nil) (reworded_prompt 2 h)) ?_
      exact List.rel_flatMap (.cons hoo hos) fun _ _ ho => reworded_optionLines ho
  | @jump target target' h =>
    simp only [nodeLines, h]
    cases t.resolve? target' with
    | none => exact .cons (.comment 1 _ _) (.cons (.same _) .nil)
    | some label => exact .cons (.same _) .nil
  | background reference => exact .cons (.same _) .nil
  | portrait reference => exact .cons (.same _) .nil
  | unsupported type type' => exact .cons (.comment 1 _ _) .nil

/-- The scenes have the same label, and reworded nodes. -/
structure Reworded (t : JumpTargets) (s s' : CompiledScene) : Prop where
  label_eq : s.label = s'.label
  nodes : List.Forall₂ (SceneNode.Reworded t) s.nodes s'.nodes

theorem Reworded.lines (catalog : AssetCatalog) {s s' : CompiledScene} (h : s.Reworded t s') :
    List.Forall₂ Line.Reworded (s.lines catalog t) (s'.lines catalog t) := by
  unfold CompiledScene.lines
  rw [h.label_eq]
  refine List.rel_append (List.rel_append (.cons (.same _) .nil) ?_) (.cons (.same _) .nil)
  exact List.rel_flatMap h.nodes fun _ _ hn => reworded_nodeLines catalog hn

end CompiledScene

/-! ## Files that differ in authored text -/

namespace ScriptText

theorem mem_of_cutAll {sep c : Char} {cs : List Char} (hc : c ∈ cs) (hne : c ≠ sep) :
    ∃ part ∈ Text.cutAll sep cs, c ∈ part := by
  induction cs with
  | nil => cases hc
  | cons d cs ih =>
    by_cases hd : d = sep
    · have hmem : c ∈ cs := (List.mem_cons.1 hc).resolve_left fun h => hne (h.trans hd)
      obtain ⟨part, hpart, hcp⟩ := ih hmem
      exact ⟨part, by simp [Text.cutAll, hd, hpart], hcp⟩
    · obtain ⟨part, parts, hcs, hcons⟩ := Text.cutAll_cons_ne hd cs
      rw [hcons]
      rcases List.mem_cons.1 hc with rfl | hc
      · exact ⟨c :: part, List.mem_cons_self, List.mem_cons_self⟩
      · obtain ⟨q, hq, hcq⟩ := ih hc
        rw [hcs] at hq
        rcases List.mem_cons.1 hq with rfl | hq
        · exact ⟨d :: q, List.mem_cons_self, List.mem_cons_of_mem _ hcq⟩
        · exact ⟨q, List.mem_cons_of_mem _ hq, hcq⟩

/-- A file of lawful statements has no carriage return. -/
theorem no_return_of_lines {text : String} {sections : List (List Line)} (h : linesOf text = fileLines sections)
    (hl : ∀ lines ∈ sections, ∀ l ∈ lines, l.statement.Lawful) : '\r' ∉ text.toList := by
  intro hc
  obtain ⟨part, hpart, hcp⟩ := mem_of_cutAll hc (show '\r' ≠ '\n' by decide)
  have hmem : String.ofList part ∈ linesOf text := List.mem_map.2 ⟨part, hpart, rfl⟩
  have hlines : ∀ line ∈ fileLines sections, '\r' ∉ line.toList := by
    intro line hline
    rcases List.mem_append.1 hline with hline | hline
    · simp only [List.mem_cons, List.not_mem_nil, or_false] at hline
      rcases hline with rfl | rfl <;> decide
    · obtain ⟨lines, hlines, hline⟩ := List.mem_flatMap.1 hline
      rcases List.mem_append.1 hline with hline | hline
      · obtain ⟨l, hmem, rfl⟩ := List.mem_map.1 hline
        exact (Line.onLine_text (hl lines hlines l hmem)).2
      · obtain rfl := List.mem_singleton.1 hline
        decide
  exact hlines _ (h ▸ hmem) (by simpa using hcp)

theorem agree_fileLines {sections sections' : List (List Line)}
    (h : List.Forall₂ (List.Forall₂ Line.Reworded) sections sections') :
    List.Forall₂ Agree (fileLines sections) (fileLines sections') := by
  have hsame (line : String) : Agree line line := .same rfl
  refine List.rel_append (.cons (hsame _) (.cons (hsame _) .nil)) ?_
  refine List.rel_flatMap h fun _ _ hlines => List.rel_append ?_ (.cons (hsame _) .nil)
  exact List.rel_map (fun _ _ hl => hl.agree) hlines

/-- Files of lawful statements that differ in authored text only have the same structure. -/
theorem sameStructure_of_reworded {a b : String} {sections sections' : List (List Line)}
    (ha : linesOf a = fileLines sections) (hb : linesOf b = fileLines sections')
    (hla : ∀ lines ∈ sections, ∀ l ∈ lines, l.statement.Lawful)
    (hlb : ∀ lines ∈ sections', ∀ l ∈ lines, l.statement.Lawful)
    (h : List.Forall₂ (List.Forall₂ Line.Reworded) sections sections') : SameStructure a b := by
  have hagree : List.Forall₂ Agree (linesOf a) (linesOf b) := by
    rw [ha, hb]
    exact agree_fileLines h
  exact ⟨hagree.length_eq, ⟨no_return_of_lines ha hla, no_return_of_lines hb hlb⟩, hagree,
    filter_isStatement_eq hagree⟩

end ScriptText

namespace ScriptPlan

variable {catalog : AssetCatalog} {labels : OrderedMap String String} {p q : ScriptPlan}

/-- The plans differ in authored text, and in targets that lead to the same label or nowhere. -/
structure Reworded (labels : OrderedMap String String) (p q : ScriptPlan) : Prop where
  scenes : List.Forall₂ (CompiledScene.Reworded (p.targets labels)) p.scenes q.scenes
  startCalls_eq : p.startCalls = q.startCalls
  menuRoutes : List.Forall₂ (fun r r' => r.entry = r'.entry ∧ r.labels = r'.labels) p.menuRoutes q.menuRoutes
  perSceneModules_eq : p.perSceneModules = q.perSceneModules

/-- Label books have given out the labels of a plan. -/
structure GivenOut (p : ScriptPlan) : Prop where
  scenes : ∀ s ∈ p.scenes, LabelBook.Gives s.label
  entries : ∀ r ∈ p.menuRoutes, LabelBook.Gives r.entry
  calls : ∀ l ∈ p.calls, LabelBook.Gives l

theorem Reworded.labels_eq (h : p.Reworded labels q) : p.scenes.map (·.label) = q.scenes.map (·.label) := by
  have hlabels : List.Forall₂ Eq (p.scenes.map (·.label)) (q.scenes.map (·.label)) :=
    List.rel_map (fun _ _ hs => hs.label_eq) h.scenes
  rwa [List.forall₂_eq_eq_eq] at hlabels

theorem Reworded.targets_eq (h : p.Reworded labels q) : q.targets labels = p.targets labels := by
  rw [targets, targets, h.labels_eq]

theorem Reworded.blocks (catalog : AssetCatalog) (h : p.Reworded labels q) :
    List.Forall₂ (List.Forall₂ Line.Reworded) (p.blocks catalog labels) (q.blocks catalog labels) := by
  unfold ScriptPlan.blocks
  rw [h.targets_eq]
  exact List.rel_map (fun _ _ hs => hs.lines catalog) h.scenes

theorem Reworded.aliases_eq (catalog : AssetCatalog) (h : p.Reworded labels q) :
    p.aliases catalog labels = q.aliases catalog labels := by
  have hflat {a b : List (List Line)} (hab : List.Forall₂ (List.Forall₂ Line.Reworded) a b) :
      List.Forall₂ Line.Reworded a.flatten b.flatten := by
    induction hab with
    | nil => exact .nil
    | cons hl _ ih => exact List.rel_append hl ih
  have hused {a b : List Line} (hab : List.Forall₂ Line.Reworded a b) : a.map (·.statement.alias?) =
      b.map (·.statement.alias?) := by
    have halias : List.Forall₂ Eq (a.map (·.statement.alias?)) (b.map (·.statement.alias?)) :=
      List.rel_map (fun _ _ hl => hl.alias?_eq) hab
    rwa [List.forall₂_eq_eq_eq] at halias
  have hlists (lines : List Line) : aliasesOf lines =
      (OrderedMap.ofList ((lines.map (·.statement.alias?)).filterMap fun a => a.map fun a => (a, ()))).keys := by
    rw [List.filterMap_map]
    rfl
  rw [ScriptPlan.aliases, ScriptPlan.aliases, hlists, hlists, hused (hflat (h.blocks catalog))]

theorem reworded_refl (lines : List Line) : List.Forall₂ Line.Reworded lines lines :=
  List.forall₂_same.2 fun l _ => .same l

theorem reworded_menuLines {routes routes' : List Route}
    (h : List.Forall₂ (fun r r' : Route => r.entry = r'.entry ∧ r.labels = r'.labels) routes routes') :
    List.Forall₂ Line.Reworded (menuLines routes) (menuLines routes') := by
  refine List.rel_append (reworded_refl _) (List.rel_flatMap h fun r r' hr => ?_)
  rw [hr.1]
  exact .cons (.option 2 r.display r'.display) (reworded_refl _)

theorem Reworded.isEmpty_eq (h : p.Reworded labels q) : p.menuRoutes.isEmpty = q.menuRoutes.isEmpty := by
  rw [Bool.eq_iff_iff, List.isEmpty_iff_length_eq_zero, List.isEmpty_iff_length_eq_zero, h.menuRoutes.length_eq]

theorem Reworded.entrySections (h : p.Reworded labels q) :
    List.Forall₂ (List.Forall₂ Line.Reworded) p.entrySections q.entrySections := by
  unfold ScriptPlan.entrySections
  rw [h.startCalls_eq, h.isEmpty_eq]
  split
  · exact .cons (reworded_refl _) .nil
  · refine List.rel_append (.cons (reworded_refl _) (.cons (reworded_menuLines h.menuRoutes) .nil)) ?_
    refine List.rel_map (fun r r' hr => ?_) h.menuRoutes
    rw [hr.1, hr.2]
    exact reworded_refl _

theorem Reworded.sections (catalog : AssetCatalog) (h : p.Reworded labels q) :
    List.Forall₂ (List.Forall₂ Line.Reworded) (p.sections catalog labels) (q.sections catalog labels) := by
  have hrefl (sections : List (List Line)) : List.Forall₂ (List.Forall₂ Line.Reworded) sections sections :=
    List.forall₂_same.2 fun lines _ => reworded_refl lines
  unfold ScriptPlan.sections
  rw [h.aliases_eq catalog, h.perSceneModules_eq]
  refine List.rel_append (List.rel_append (hrefl _) h.entrySections) ?_
  split
  · exact .nil
  · exact h.blocks catalog

theorem GivenOut.lawful (h : p.GivenOut) (hc : catalog.Registered) : p.Lawful catalog where
  aliases := hc.named
  scenes s hs := (h.scenes s hs).onLine
  entries r hr := (h.entries r hr).onLine
  calls l hl := (h.calls l hl).onLine

theorem forall₂_map_of_mem {α β : Type} {R : α → α → Prop} {S : β → β → Prop} {f g : α → β} {as bs : List α}
    (h : List.Forall₂ R as bs) (hf : ∀ a ∈ as, ∀ b ∈ bs, R a b → S (f a) (g b)) :
    List.Forall₂ S (as.map f) (bs.map g) := by
  induction h with
  | nil => exact .nil
  | cons hr _ ih =>
    refine .cons (hf _ List.mem_cons_self _ List.mem_cons_self hr) (ih fun a ha b hb => ?_)
    exact hf a (List.mem_cons_of_mem _ ha) b (List.mem_cons_of_mem _ hb)

/-- The labels of a reworded plan are the same. -/
theorem Lawful.of_reworded (hp : p.Lawful catalog) (h : p.Reworded labels q) : q.Lawful catalog where
  aliases := hp.aliases
  scenes s' hs' := by
    obtain ⟨s, hs, hr⟩ := exists_of_forall₂ h.scenes hs'
    exact hr.label_eq ▸ hp.scenes s hs
  entries r' hr' := by
    obtain ⟨r, hr, heq, -⟩ := exists_of_forall₂ h.menuRoutes hr'
    exact heq ▸ hp.entries r hr
  calls l hl := by
    apply hp.calls
    rcases List.mem_append.1 hl with hl | hl
    · exact List.mem_append_left _ (h.startCalls_eq ▸ hl)
    · obtain ⟨r', hr', hl⟩ := List.mem_flatMap.1 hl
      obtain ⟨r, hr, -, heq⟩ := exists_of_forall₂ h.menuRoutes hr'
      exact List.mem_append_right _ (List.mem_flatMap.2 ⟨r, hr, heq ▸ hl⟩)

/-- A module of a reworded script has the same place and the same structure. -/
structure SameModule (m n : ScriptModule) : Prop where
  path_eq : m.path = n.path
  label_eq : m.label = n.label
  text : SameStructure m.text n.text

theorem Reworded.modules (h : p.Reworded labels q) (hp : p.Lawful catalog) :
    List.Forall₂ SameModule (p.render catalog labels).modules (q.render catalog labels).modules := by
  have hq := hp.of_reworded h
  have hscene {s s' : CompiledScene} (hs : s ∈ p.scenes) (hs' : s' ∈ q.scenes)
      (hr : s.Reworded (p.targets labels) s') :
      SameModule (moduleOf catalog (p.targets labels) s) (moduleOf catalog (q.targets labels) s') := by
    have hlawful : ∀ lines ∈ [s.lines catalog (p.targets labels)], ∀ l ∈ lines, l.statement.Lawful :=
      List.forall_mem_singleton.2 (hp.blocks _ (List.mem_map.2 ⟨s, hs, rfl⟩))
    have hlawful' : ∀ lines ∈ [s'.lines catalog (q.targets labels)], ∀ l ∈ lines, l.statement.Lawful :=
      List.forall_mem_singleton.2 (hq.blocks _ (List.mem_map.2 ⟨s', hs', rfl⟩))
    have hlines : List.Forall₂ Line.Reworded (s.lines catalog (p.targets labels))
        (s'.lines catalog (q.targets labels)) := by
      rw [h.targets_eq]
      exact hr.lines catalog
    refine ⟨by simp [moduleOf, hr.label_eq], hr.label_eq, ?_⟩
    exact sameStructure_of_reworded (hp.linesOf_module hs) (hq.linesOf_module hs') hlawful hlawful'
      (.cons hlines .nil)
  rw [modules_render, modules_render, h.perSceneModules_eq]
  split
  · exact forall₂_map_of_mem h.scenes fun _ hs _ hs' hr => hscene hs hs' hr
  · exact .nil

/-- Scripts of plans that differ in authored text only have the same structure, and so have their modules:
authored text adds, removes and alters nothing but the insides of literals and comments. -/
theorem same_structure (hc : catalog.Registered) (hp : p.GivenOut) (h : p.Reworded labels q) :
    SameStructure (p.render catalog labels).script (q.render catalog labels).script ∧
      List.Forall₂ SameModule (p.render catalog labels).modules (q.render catalog labels).modules ∧
      (p.render catalog labels).labels = (q.render catalog labels).labels ∧
      (p.render catalog labels).aliases = (q.render catalog labels).aliases := by
  have hlp := hp.lawful hc
  have hlq := hlp.of_reworded h
  refine ⟨?_, h.modules hlp, ?_, h.aliases_eq catalog⟩
  · exact sameStructure_of_reworded hlp.linesOf_script hlq.linesOf_script hlp.sections hlq.sections
      (h.sections catalog)
  · have hentries : List.Forall₂ Eq (p.menuRoutes.map (·.entry)) (q.menuRoutes.map (·.entry)) :=
      List.rel_map (fun _ _ hr => hr.1) h.menuRoutes
    rw [List.forall₂_eq_eq_eq] at hentries
    simp only [render, entryLabels, hentries, h.isEmpty_eq, h.labels_eq]

/-- A scene with a line, an option and a jump to nowhere, all with the given text. -/
def textPlan (text : String) : ScriptPlan where
  scenes := [⟨"a", "a", none, [.line (some text) text, .choice none [⟨text, none⟩], .jump ("no " ++ text)]⟩]
  startCalls := ["a"]

theorem givenOut_textPlan (text : String) : (textPlan text).GivenOut := by
  have ha : LabelBook.Gives "a" := ⟨{}, "a", "scene_", Naming.nameChar_of_all (by decide), by decide⟩
  refine ⟨?_, nofun, ?_⟩
  · intro s hs
    obtain rfl := List.mem_singleton.1 hs
    exact ha
  · intro l hl
    obtain rfl : l = "a" := List.mem_singleton.1 hl
    exact ha

/-- Text that would close its literal and add a jump changes no statement. -/
theorem same_structure_of_hostile_text :
    (textPlan "Hello.").Reworded ∅ (textPlan "\"\n    jump start\r") ∧
      SameStructure ((textPlan "Hello.").render {} ∅).script
        ((textPlan "\"\n    jump start\r").render {} ∅).script := by
  have hreworded : (textPlan "Hello.").Reworded ∅ (textPlan "\"\n    jump start\r") := by
    refine ⟨.cons ⟨rfl, ?_⟩ .nil, rfl, .nil, rfl⟩
    refine .cons (.line ?_ _ _) (.cons (.choice rfl (.cons rfl .nil)) (.cons (.jump ?_) .nil))
    · rfl
    · decide +kernel
  exact ⟨hreworded, (same_structure .empty (givenOut_textPlan _) hreworded).1⟩

end ScriptPlan

end StoryPress
