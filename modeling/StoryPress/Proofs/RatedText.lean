import StoryPress.Proofs.AuthoredText
import StoryPress.Proofs.ControlFlow
import StoryPress.Proofs.Literals
import StoryPress.Proofs.Refusals

/-!
# What is rated and what is rendered

The rating reads one text that is put together from the nodes of all scenes; the renderer goes over the nodes by itself.
Whatever it writes as a literal into the block of a scene has been rated.

* `Text.InOrder`: texts that stand in another one, one after the other;
* `ScriptText.literals`: the literals in a text of a script, as they stand there;
* `ScriptPlan.literals_eq`: the literals in the blocks of a script are those of the texts of its nodes;
* `Compilation.inOrder_ratedText`: the texts of the nodes stand in the rated text in order;
* `Compilation.literals_rated`: what is rendered of compiled scenes has been rated;
* `Preparation.rated_of_run`: an export has let its rating see all literals of its scenes, in the bundle and in forks.
-/

namespace StoryPress

/-! ## Texts in order -/

namespace Text

/-- The parts stand in a text one after the other, none before the end of the one before it. -/
def InOrder : List String → String → Prop
  | [], _ => True
  | part :: parts, text => ∃ before after, text = before ++ part ++ after ∧ InOrder parts after

variable {parts others : List String} {text : String}

theorem InOrder.prepend (h : InOrder parts text) (front : String) : InOrder parts (front ++ text) := by
  cases parts with
  | nil => trivial
  | cons part parts =>
    obtain ⟨before, after, rfl, hafter⟩ := h
    exact ⟨front ++ before, after, by simp only [String.append_assoc], hafter⟩

theorem InOrder.append (h : InOrder parts text) {next : String} (hnext : InOrder others next) :
    InOrder (parts ++ others) (text ++ next) := by
  induction parts generalizing text with
  | nil => exact hnext.prepend text
  | cons part parts ih =>
    obtain ⟨before, after, rfl, hafter⟩ := h
    exact ⟨before, after ++ next, by simp only [String.append_assoc], ih hafter⟩

/-- What stands in order in joined texts and in more of them, stands in order in all of them joined. -/
theorem InOrder.joinWith_append {sep : String} {front back : List String} (h : InOrder parts (joinWith sep front))
    (hback : InOrder others (joinWith sep back)) : InOrder (parts ++ others) (joinWith sep (front ++ back)) := by
  have hnone : joinWith sep [] = "" := String.intercalate_nil
  by_cases hf : front = []
  · rw [hf, hnone] at h
    rw [hf, List.nil_append, ← String.empty_append (s := joinWith sep back)]
    exact h.append hback
  · by_cases hb : back = []
    · rw [hb, hnone] at hback
      rw [hb, List.append_nil, ← String.append_empty (s := joinWith sep front)]
      exact h.append hback
    · have hjoin : joinWith sep (front ++ back) = joinWith sep front ++ (sep ++ joinWith sep back) := by
        rw [← String.append_assoc]
        exact String.intercalate_append_of_ne_nil hf hb
      rw [hjoin]
      exact h.append (hback.prepend sep)

/-- What stands in order in the parts of each item, stands in order in the parts of all items, also if items are left
out. -/
theorem inOrder_of_sublist {α : Type} {sep : String} {f g : α → List String} {items all : List α}
    (hsub : items.Sublist all) (h : ∀ x ∈ all, InOrder (f x) (joinWith sep (g x))) :
    InOrder (items.flatMap f) (joinWith sep (all.flatMap g)) := by
  induction hsub with
  | slnil => trivial
  | cons x _ ih =>
    have hnone : InOrder [] (joinWith sep (g x)) := trivial
    exact hnone.joinWith_append (ih fun y hy => h y (List.mem_cons_of_mem _ hy))
  | cons_cons x _ ih => exact (h x List.mem_cons_self).joinWith_append (ih fun y hy => h y (List.mem_cons_of_mem _ hy))

theorem inOrder_joinWith (sep : String) (parts : List String) : InOrder parts (joinWith sep parts) := by
  have heach : ∀ part ∈ parts, InOrder [part] (joinWith sep [part]) := by
    intro part _
    have hself : joinWith sep [part] = "" ++ part ++ "" := by simp [joinWith]
    exact ⟨"", "", hself, trivial⟩
  have hall := inOrder_of_sublist (List.Sublist.refl parts) heach
  rwa [List.flatMap_singleton'] at hall

end Text

/-! ## Literals in the text of a script -/

/-- The texts that a statement writes as literals. -/
def Statement.quoted : Statement → List String
  | say speaker text => speaker.toList ++ [text]
  | option text => [text]
  | image _ path => [path]
  | _ => []

namespace ScriptText

/-- Reads the literals in a line as they stand there. With a literal that is still open comes what has been read of it;
there a backslash takes the next character with it. -/
def literalsFrom : Option (List Char) → List Char → List String
  | _, [] => []
  | none, c :: cs => if c = '"' then literalsFrom (some [c]) cs else literalsFrom none cs
  | some read, '\\' :: c :: cs => literalsFrom (some (read ++ ['\\', c])) cs
  | some read, c :: cs =>
    if c = '"' then String.ofList (read ++ [c]) :: literalsFrom none cs else literalsFrom (some (read ++ [c])) cs

/-- The literals in a line; a comment has none. -/
def literalsIn (line : String) : List String := if isComment line then [] else literalsFrom none (content line)

/-- The literals in a text, line by line. -/
def literals (text : String) : List String := (linesOf text).flatMap literalsIn

theorem literalsFrom_of_not_mem {cs : List Char} (h : '"' ∉ cs) : literalsFrom none cs = [] := by
  induction cs with
  | nil => rfl
  | cons c cs ih =>
    rw [List.mem_cons, not_or] at h
    rw [literalsFrom, if_neg (Ne.symm h.1), ih h.2]

/-- What is written for a text is read up to the quote after it. -/
theorem literalsFrom_encode (read text rest : List Char) :
    literalsFrom (some read) (Quoted.encode text ++ '"' :: rest) =
      String.ofList (read ++ Quoted.encode text ++ ['"']) :: literalsFrom none rest := by
  induction text generalizing read with
  | nil => simp [Quoted.encode, literalsFrom]
  | cons c cs ih =>
    have hc := Quoted.encodes_encodeChar c
    rw [Quoted.encode_cons]
    generalize Quoted.encodeChar c = written at hc ⊢
    cases hc with
    | escape d => simp [literalsFrom, ih]
    | twice hc | once hc =>
      have hplain : c ≠ '\\' ∧ c ≠ '"' := by
        constructor <;> (rintro rfl; simp at hc)
      simp [literalsFrom, hplain, ih]
    | nothing => simp [ih]

theorem literalsFrom_quote_append (text : String) (rest : List Char) :
    literalsFrom none ((Quoted.quote text).toList ++ rest) = Quoted.quote text :: literalsFrom none rest := by
  have hread := literalsFrom_encode ['"'] text.toList rest
  have hquote : String.ofList ('"' :: (Quoted.encode text.toList ++ ['"'])) = Quoted.quote text := by
    rw [← Quoted.toList_quote, String.ofList_toList]
  simpa [Quoted.toList_quote, literalsFrom, hquote] using hread

/-- A line without quotes has no literals. -/
theorem literalsIn_of_not_mem {l : Line} (h : '"' ∉ l.statement.text.toList) : literalsIn l.text = [] := by
  unfold literalsIn
  split
  · rfl
  · rw [content_text, literalsFrom_of_not_mem h]

theorem isComment_text (l : Line) : isComment l.text = (l.statement.text.toList.head? == some '#') := by
  rw [isComment, content_text]

end ScriptText

namespace Statement

/-- The literals of a statement are read from its line: those of its texts. -/
def LiteralsRead (s : Statement) : Prop :=
  ∀ depth, ScriptText.literalsIn (Line.text ⟨depth, s⟩) = s.quoted.map Quoted.quote

open ScriptText

theorem literalsRead_of_not_mem {s : Statement} (hnone : s.quoted = []) (h : '"' ∉ s.text.toList) : LiteralsRead s := by
  intro depth
  rw [literalsIn_of_not_mem h, hnone]
  rfl

theorem asksOfNames_literalsRead : AsksOfNames LiteralsRead := by
  constructor
  · exact literalsRead_of_not_mem rfl (by decide)
  · exact literalsRead_of_not_mem rfl (by decide)
  · exact literalsRead_of_not_mem rfl (by decide)
  · intro speaker text depth
    have hno : isComment (Line.text ⟨depth, .say speaker text⟩) = false := by
      rw [isComment_text]
      cases speaker <;> simp [Statement.text, Quoted.toList_quote]
    have hlast := literalsFrom_quote_append text []
    rw [List.append_nil] at hlast
    rw [literalsIn, hno, content_text]
    cases speaker with
    | none => simpa [Statement.text, quoted, literalsFrom] using hlast
    | some speaker =>
      have hfirst := literalsFrom_quote_append speaker (' ' :: (Quoted.quote text).toList)
      simpa [Statement.text, quoted, literalsFrom, hlast] using hfirst
  · intro text depth
    have hno : isComment (Line.text ⟨depth, .option text⟩) = false := by
      rw [isComment_text]
      simp [Statement.text, Quoted.toList_quote]
    have hread := literalsFrom_quote_append text [':']
    rw [literalsIn, hno, content_text]
    simpa [Statement.text, quoted, literalsFrom] using hread
  · intro text depth
    have hcomment : isComment (Line.text ⟨depth, .comment text⟩) = true := by
      rw [isComment_text]
      simp [Statement.text]
    rw [literalsIn, hcomment]
    rfl

/-- A name has no quotes in it, so a statement with a name and without texts has no literals. -/
theorem literalsRead_of_named {name : String} (h : ∀ c ∈ name.toList, Naming.NameChar c) :
    LiteralsRead (.label name) ∧ LiteralsRead (.jump name) := by
  have hname : '"' ∉ name.toList := fun hmem => (h _ hmem).ne (by decide) (by decide) rfl
  constructor <;> exact literalsRead_of_not_mem rfl (by simp [Statement.text, hname])

theorem literalsRead_of_token {token : AssetToken} (h : ∀ c ∈ token.tag.toList, Naming.NameChar c) :
    LiteralsRead (.scene token) ∧ LiteralsRead (.show_ token) := by
  have htag : '"' ∉ token.tag.toList := fun hmem => (h _ hmem).ne (by decide) (by decide) rfl
  constructor <;> exact literalsRead_of_not_mem rfl (by simp [Statement.text, htag])

end Statement

/-! ## Literals in the blocks of scenes -/

/-- The texts of a node that are shown: who speaks and what is said, a prompt and captions. -/
def SceneNode.texts : SceneNode → List String
  | line speaker text => speaker.toList ++ [text]
  | choice prompt options => prompt.toList ++ options.map (·.text)
  | _ => []

namespace CompiledScene

variable {catalog : AssetCatalog} {t : JumpTargets}

theorem quoted_nodeLines (node : SceneNode) :
    (nodeLines catalog t node).flatMap (·.statement.quoted) = node.texts := by
  have hprompt (depth : Nat) (prompt : Option String) :
      (prompt.toList.map fun p => (⟨depth, .say none p⟩ : Line)).flatMap (·.statement.quoted) = prompt.toList := by
    cases prompt <;> rfl
  have hoption (o : ChoiceOption) : (optionLines t o).flatMap (·.statement.quoted) = [o.text] := by
    unfold optionLines
    cases o.target.bind t.resolve? <;> rfl
  cases node with
  | line speaker text => exact List.append_nil _
  | background => rfl
  | portrait => rfl
  | unsupported => rfl
  | jump target =>
    simp only [nodeLines]
    cases t.resolve? target <;> rfl
  | choice prompt options =>
    cases options with
    | nil =>
      rw [nodeLines, List.flatMap_append, hprompt]
      rfl
    | cons o options =>
      have hoptions : ((o :: options).flatMap (optionLines t)).flatMap (·.statement.quoted) =
          (o :: options).map (·.text) := by
        simp only [List.flatMap_assoc, hoption]
        exact List.map_eq_flatMap.symm
      rw [nodeLines, List.flatMap_append, List.flatMap_append, hprompt, hoptions]
      · rfl
      · intro hnil
        cases hnil

theorem quoted_lines (s : CompiledScene) :
    (s.lines catalog t).flatMap (·.statement.quoted) = s.nodes.flatMap SceneNode.texts := by
  have hnodes : (s.nodes.flatMap (nodeLines catalog t)).flatMap (·.statement.quoted) =
      s.nodes.flatMap SceneNode.texts := by
    rw [List.flatMap_assoc]
    exact List.flatMap_congr fun node _ => quoted_nodeLines node
  rw [lines, List.flatMap_append, List.flatMap_append, hnodes]
  simp [Statement.quoted]

end CompiledScene

namespace ScriptPlan

variable {catalog : AssetCatalog} {labels : OrderedMap String String} {p : ScriptPlan}

/-- The texts of the scenes of a plan, in order. -/
def texts (p : ScriptPlan) : List String := p.scenes.flatMap fun s => s.nodes.flatMap SceneNode.texts

/-- The literals in the blocks of scenes, in order. -/
def literals (catalog : AssetCatalog) (labels : OrderedMap String String) (p : ScriptPlan) : List String :=
  (p.blocks catalog labels).flatMap fun lines => ScriptText.literals (printLines lines)

end ScriptPlan

namespace ScriptText

theorem literals_printLines {lines : List Line} (hlawful : ∀ l ∈ lines, l.statement.Lawful)
    (hread : ∀ l ∈ lines, l.statement.LiteralsRead) :
    literals (printLines lines) = (lines.flatMap (·.statement.quoted)).map Quoted.quote := by
  have hlines := linesOf_printLines hlawful ""
  rw [String.append_empty] at hlines
  have hempty : (linesOf "").flatMap literalsIn = [] := by decide
  rw [literals, hlines, List.flatMap_append, hempty, List.append_nil, List.flatMap_map, List.map_flatMap]
  exact List.flatMap_congr fun l hl => hread l hl l.depth

end ScriptText

namespace ScriptPlan

variable {catalog : AssetCatalog} {labels : OrderedMap String String} {p : ScriptPlan}

/-- The literals in the blocks of scenes are those of the texts of their nodes. -/
theorem literals_eq (hcatalog : catalog.Named) (hlabels : ∀ s ∈ p.scenes, ∀ c ∈ s.label.toList, Naming.NameChar c) :
    p.literals catalog labels = p.texts.map Quoted.quote := by
  -- the blocks do not depend on what a plan has beside its scenes
  have hlawful : Lawful catalog { scenes := p.scenes } :=
    ⟨hcatalog, fun s hs => onLine_of_named (hlabels s hs), by simp, by simp [calls]⟩
  have hread : ∀ s ∈ p.scenes, ∀ l ∈ s.lines catalog (p.targets labels), l.statement.LiteralsRead := by
    intro s hs
    apply CompiledScene.forall_lines Statement.asksOfNames_literalsRead
    · intro label hlabel
      obtain ⟨s', hs', rfl⟩ := List.mem_map.1 hlabel
      exact (Statement.literalsRead_of_named (hlabels s' hs')).2
    · exact fun reference => (Statement.literalsRead_of_token (hcatalog.nameChar_of_mem_tag _ reference)).1
    · exact fun reference => (Statement.literalsRead_of_token (hcatalog.nameChar_of_mem_tag _ reference)).2
    · exact (Statement.literalsRead_of_named (hlabels s hs)).1
  rw [literals, blocks, List.flatMap_map, texts, List.map_flatMap]
  apply List.flatMap_congr
  intro s hs
  have hblock : s.lines catalog (p.targets labels) ∈ p.blocks catalog labels := List.mem_map.2 ⟨s, hs, rfl⟩
  rw [ScriptText.literals_printLines (hlawful.blocks _ hblock) (hread s hs), CompiledScene.quoted_lines]

end ScriptPlan

/-! ## What the rating reads -/

/-- What the rating reads of a node. -/
def SceneNode.rated : SceneNode → List String
  | line (some speaker) text => [speaker ++ ": " ++ text]
  | line none text => [text]
  | choice prompt options => prompt.toList ++ options.map (·.text)
  | _ => []

/-- The texts of a node stand in order in what the rating reads of it. -/
theorem SceneNode.inOrder_rated (node : SceneNode) : Text.InOrder node.texts (Text.joinWith "\n" node.rated) := by
  cases node with
  | line speaker text =>
    cases speaker with
    | none => exact Text.inOrder_joinWith "\n" [text]
    | some speaker =>
      have hone : Text.joinWith "\n" [speaker ++ ": " ++ text] = "" ++ speaker ++ (": " ++ text) := by
        simp [Text.joinWith, String.append_assoc]
      exact ⟨"", ": " ++ text, hone, ": ", "", String.append_empty.symm, trivial⟩
  | choice prompt options => exact Text.inOrder_joinWith "\n" _
  | jump | background | portrait | unsupported => trivial

namespace Compilation

theorem ratedText_eq (scenes : List CompiledScene) : ratedText scenes =
    Text.joinWith "\n" (scenes.flatMap fun s => s.title.toList ++ s.nodes.flatMap SceneNode.rated) := by
  unfold ratedText
  dsimp only
  apply congrArg
  apply List.flatMap_congr
  intro s _
  apply congrArg
  apply List.flatMap_congr
  intro node _
  cases node with
  | line speaker text => cases speaker <;> rfl
  | choice | jump | background | portrait | unsupported => rfl

/-- The texts of scenes stand in order in what the rating reads of these scenes and of others among them. -/
theorem inOrder_ratedText {p : ScriptPlan} {scenes : List CompiledScene} (h : p.scenes.Sublist scenes) :
    Text.InOrder p.texts (ratedText scenes) := by
  rw [ratedText_eq]
  apply Text.inOrder_of_sublist h
  intro s _
  have htitle : Text.InOrder [] (Text.joinWith "\n" s.title.toList) := trivial
  exact htitle.joinWith_append (Text.inOrder_of_sublist (List.Sublist.refl _) fun node _ => node.inOrder_rated)

end Compilation

/-- The rating has seen the literals of the scenes of a plan. -/
structure ScriptPlan.Rated (catalog : AssetCatalog) (labels : OrderedMap String String) (content : String)
    (p : ScriptPlan) : Prop where
  /-- The literals in the blocks of scenes are those of the texts of nodes, in order. -/
  literals_eq : p.literals catalog labels = p.texts.map Quoted.quote
  /-- These texts stand in order in what the rating is asked. -/
  inOrder : Text.InOrder p.texts content

theorem Compilation.rated_of_named {c : Compilation} (hcatalog : c.catalog.Named) (hlabelled : c.Labelled)
    {p : ScriptPlan} (hp : p.scenes.Sublist c.scenes) : p.Rated c.catalog c.labels (ratedText c.scenes) :=
  ⟨ScriptPlan.literals_eq hcatalog fun s hs => hlabelled.named s (hp.subset hs), inOrder_ratedText hp⟩

/-- Whatever scenes are compiled, the literals that are rendered of them, or of some of them, have been rated. -/
theorem Compilation.literals_rated {fs : FileSystem} {index : AssetIndex} {scenes : List Scene} {c : Compilation}
    (h : ofScenes fs index scenes = .ok c) {p : ScriptPlan} (hp : p.scenes.Sublist c.scenes) (options : ExportOptions)
    (project : Project) : p.Rated c.catalog c.labels (c.ratingRequest options project).content :=
  rated_of_named (registered_ofScenes h).named (labelled_ofScenes h) hp

/-- A scene with a title, and one with a bare text, a line with a speaker, a menu, and a menu without options. -/
def tavernScenes : List Scene :=
  [{ id := "road", title := some "The road" },
    { id := "tavern", dialogue := [.string "Rain.",
        .object [("speaker", .string "Ann"), ("text", .string "\"Stay [here]\"?"), ("type", .string "say")],
        .object [("content", .object [("options", .array [.string "Yes", .object [("label", .string "No")]])]),
          ("prompt", .string "Well?"), ("type", .string "menu")]]
      nodes := [.object [("text", .string "Alone"), ("type", .string "choice")]] }]

theorem literals_rated_of_tavern :
    ∃ c, Compilation.ofScenes {} (AssetIndex.build {} ⟨"art"⟩) tavernScenes = .ok c ∧
      ({ scenes := c.scenes.drop 1 } : ScriptPlan).scenes.Sublist c.scenes ∧
      ScriptPlan.Rated c.catalog c.labels "The road\nRain.\nAnn: \"Stay [here]\"?\nWell?\nYes\nNo\nAlone"
        { scenes := c.scenes.drop 1 } ∧
      ScriptPlan.literals c.catalog c.labels { scenes := c.scenes.drop 1 } =
        ["\"Rain.\"", "\"Ann\"", "\"\\\"Stay [[here]\\\"?\"", "\"Well?\"", "\"Yes\"", "\"No\"", "\"Alone\""] := by
  have hrun : (Compilation.ofScenes {} (AssetIndex.build {} ⟨"art"⟩) tavernScenes).toOption.map
      (fun c => (Compilation.ratedText c.scenes, ({ scenes := c.scenes.drop 1 } : ScriptPlan).texts)) =
        some ("The road\nRain.\nAnn: \"Stay [here]\"?\nWell?\nYes\nNo\nAlone",
          ["Rain.", "Ann", "\"Stay [here]\"?", "Well?", "Yes", "No", "Alone"]) := by
    decide
  cases hc : Compilation.ofScenes {} (AssetIndex.build {} ⟨"art"⟩) tavernScenes with
  | error e =>
    rw [hc] at hrun
    cases hrun
  | ok c =>
    rw [hc] at hrun
    simp only [Except.toOption, Option.map_some, Option.some.injEq, Prod.mk.injEq] at hrun
    have hsub : ({ scenes := c.scenes.drop 1 } : ScriptPlan).scenes.Sublist c.scenes := List.drop_sublist 1 c.scenes
    have hrated := Compilation.literals_rated hc hsub { project := "tale", output := ⟨"out"⟩, assets := ⟨"art"⟩ }
      { id := "tale" }
    rw [Compilation.ratingRequest, hrun.1] at hrated
    refine ⟨c, rfl, hsub, hrated, ?_⟩
    rw [hrated.literals_eq, hrun.2]
    decide

namespace Preparation

variable {fs : FileSystem} {store : Store} {options : ExportOptions} {reviewers : Reviewers BundleView}
variable {p : Preparation}

/-- An export goes on only after its rating has let pass the literals of all its scenes, in the bundle and in forks. -/
theorem rated_of_run (h : run fs store options reviewers = .ok p) :
    (reviewers.rating (p.compiled.ratingRequest options p.docs.project)).allowed = true ∧
      ∀ plan ∈ p.bundlePlan options :: p.plan.routes.map (forkPlan options p.compiled),
        plan.Rated p.compiled.catalog p.compiled.labels (p.compiled.ratingRequest options p.docs.project).content := by
  have hs := settled_of_run h
  refine ⟨(run_eq_ok_iff.1 h).rated, ?_⟩
  intro plan hplan
  refine Compilation.rated_of_named hs.named hs.labelled ?_
  rcases List.mem_cons.1 hplan with rfl | hplan
  · exact List.Sublist.refl _
  · obtain ⟨route, -, rfl⟩ := List.mem_map.1 hplan
    exact List.filter_sublist

end Preparation

end StoryPress
