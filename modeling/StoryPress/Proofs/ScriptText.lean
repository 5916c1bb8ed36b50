import StoryPress.Proofs.Catalogued
import StoryPress.Proofs.Jumps

/-!
# The text of a script

A script is read back line by line: what a line says stands after its indentation.

* `OnLine`: a text without line breaks. Literals, comments and tags are such texts, whatever was authored;
* `linesOf_fileText`: the lines of a file are the statements that it was made of, section by section;
* `definedLabel?_text`, `target?_text`: a label, and where a jump or a call leads, are read from a line if and
  only if they were written to it;
* `bodyOf_fileLines`: what is read under a label is what was put there;
* `ScriptPlan.forall_entrySections`, `CompiledScene.forall_lines`: what holds of the names in a script, holds of
  all its statements;
* `ScriptPlan.Lawful.linesOf_script`: a script whose names stay on their lines reads as its sections.
-/

namespace StoryPress

/-- The text has no line break in it. -/
def OnLine (s : String) : Prop := '\n' ∉ s.toList ∧ '\r' ∉ s.toList

theorem OnLine.append {s t : String} (hs : OnLine s) (ht : OnLine t) : OnLine (s ++ t) := by
  simp only [OnLine, String.toList_append, List.mem_append, not_or]
  exact ⟨⟨hs.1, ht.1⟩, hs.2, ht.2⟩

theorem onLine_of_named {s : String} (h : ∀ c ∈ s.toList, Naming.NameChar c) : OnLine s :=
  ⟨fun hc => (h _ hc).ne (by decide) (by decide) rfl, fun hc => (h _ hc).ne (by decide) (by decide) rfl⟩

instance (s : String) : Decidable (OnLine s) := inferInstanceAs (Decidable (_ ∧ _))

/-! ## What is written for authored text -/

namespace Quoted

theorem not_mem_encodeChar (c : Char) : '\n' ∉ encodeChar c ∧ '\r' ∉ encodeChar c := by
  unfold encodeChar
  split_ifs with h1 h2 h3 h4
  iterate 7 exact ⟨by decide, by decide⟩
  simp [Ne.symm h3, Ne.symm h4]

theorem toList_quote (text : String) : (quote text).toList = '"' :: (encode text.toList ++ ['"']) := by
  simp [quote, quoteChars]

theorem onLine_quote (text : String) : OnLine (quote text) := by
  have hencode (d : Char) (hd : ∀ c, d ∉ encodeChar c) (hq : d ≠ '"') : d ∉ (quote text).toList := by
    simp only [toList_quote, List.mem_cons, List.mem_append, List.mem_nil_iff, or_false,
      not_or]
    refine ⟨hq, fun hmem => ?_, hq⟩
    obtain ⟨c, -, hc⟩ := List.mem_flatMap.1 hmem
    exact hd c hc
  exact ⟨hencode _ (fun c => (not_mem_encodeChar c).1) (by decide),
    hencode _ (fun c => (not_mem_encodeChar c).2) (by decide)⟩

end Quoted

theorem onLine_commentText (text : String) : OnLine (Statement.commentText text) := by
  have hne (d : Char) (hd : d = '\n' ∨ d = '\r') : d ∉ (Statement.commentText text).toList := by
    intro hmem
    simp only [Statement.commentText, Text.mapChars, String.toList_ofList] at hmem
    obtain ⟨c, -, hc⟩ := List.mem_map.1 hmem
    split at hc
    · rcases hd with rfl | rfl <;> cases hc
    · next h => rcases hd with rfl | rfl <;> simp [hc] at h
  exact ⟨hne _ (.inl rfl), hne _ (.inr rfl)⟩

/-- The tag of a reference without a file has the characters of a slug. -/
theorem nameChar_of_mem_rawTag (reference : String) : ∀ c ∈ (rawTag reference).toList, Naming.NameChar c := by
  have hslug (stem : String) :
      ∀ c ∈ (if (Naming.slug stem).isEmpty then missingTag else Naming.slug stem).toList, Naming.NameChar c := by
    split
    · exact Naming.nameChar_of_all (by decide)
    · exact fun c => Naming.nameChar_of_mem_slug
  unfold rawTag
  dsimp only
  exact hslug _

theorem onLine_rawTag (reference : String) : OnLine (rawTag reference) :=
  onLine_of_named (nameChar_of_mem_rawTag reference)

/-- The names in a statement stay on its line; for all other text its writing sees to that. -/
def Statement.Lawful : Statement → Prop
  | label name | jump name | call name | scene (.alias_ name) | show_ (.alias_ name) | image name _ => OnLine name
  | _ => True

theorem Statement.Lawful.onLine_text {s : Statement} (h : s.Lawful) : OnLine s.text := by
  have htag (keyword : String) (hk : OnLine keyword) (token : AssetToken)
      (ht : ∀ name, token = .alias_ name → OnLine name) : OnLine (keyword ++ token.tag) := by
    cases token with
    | alias_ name => exact hk.append (ht name rfl)
    | raw reference => exact hk.append (onLine_rawTag reference)
  cases s with
  | label name => exact (OnLine.append (by decide) h).append (by decide)
  | jump name | call name => exact OnLine.append (by decide) h
  | finish | pass | menu => exact of_decide_eq_true rfl
  | say speaker text =>
    cases speaker with
    | none => exact Quoted.onLine_quote text
    | some speaker => exact ((Quoted.onLine_quote speaker).append (by decide)).append (Quoted.onLine_quote text)
  | option text => exact (Quoted.onLine_quote text).append (by decide)
  | scene token | show_ token =>
    apply htag _ (by decide)
    rintro name rfl
    exact h
  | image name path =>
    exact ((OnLine.append (by decide) h).append (by decide)).append (Quoted.onLine_quote path)
  | comment text => exact OnLine.append (by decide) (onLine_commentText text)

theorem Line.onLine_text {l : Line} (h : l.statement.Lawful) : OnLine l.text := by
  refine OnLine.append ?_ h.onLine_text
  simp [OnLine, List.mem_replicate]

/-! ## The lines of a file -/

namespace ScriptText

/-- The lines of a file; after the last line break stands an empty one. -/
def linesOf (text : String) : List String := Text.pieces '\n' text

theorem linesOf_append {a : String} (ha : OnLine a) (b : String) : linesOf (a ++ "\n" ++ b) = a :: linesOf b := by
  have h : ("\n" : String).toList = ['\n'] := rfl
  have hcut := Text.cutAll_append '\n' a.toList b.toList
  rw [Text.cutAll_eq_singleton ha.1] at hcut
  simp [linesOf, Text.pieces, h, hcut]

theorem linesOf_printLines {lines : List Line} (h : ∀ l ∈ lines, l.statement.Lawful) (rest : String) :
    linesOf (printLines lines ++ rest) = lines.map Line.text ++ linesOf rest := by
  induction lines with
  | nil => simp [printLines]
  | cons l lines ih =>
    have hstep : printLines (l :: lines) ++ rest = l.text ++ "\n" ++ (printLines lines ++ rest) := by
      simp [printLines, String.append_assoc]
    rw [hstep, linesOf_append (Line.onLine_text (h l (by simp))), ih fun x hx => h x (by simp [hx])]
    rfl

/-- What a file with the given sections reads: two lines before the sections, and an empty one after each. -/
def fileLines (sections : List (List Line)) : List String :=
  ["# Generated by talewright. Do not edit by hand.", ""] ++
    sections.flatMap fun lines => lines.map Line.text ++ [""]

theorem linesOf_joinWith {sections : List (List Line)} (hne : sections ≠ [])
    (h : ∀ lines ∈ sections, ∀ l ∈ lines, l.statement.Lawful) :
    linesOf (Text.joinWith "\n" (sections.map printLines)) =
      sections.flatMap fun lines => lines.map Line.text ++ [""] := by
  have hempty : linesOf "" = [""] := rfl
  induction sections with
  | nil => exact absurd rfl hne
  | cons lines sections ih =>
    have hlines := h lines (by simp)
    cases sections with
    | nil =>
      have := linesOf_printLines hlines ""
      simpa [Text.joinWith, hempty] using this
    | cons next sections =>
      have hjoin : Text.joinWith "\n" ((lines :: next :: sections).map printLines) =
          printLines lines ++ ("" ++ "\n" ++ Text.joinWith "\n" ((next :: sections).map printLines)) := by
        rw [List.map_cons, Text.joinWith, String.intercalate_cons_of_ne_nil (by simp)]
        simp [Text.joinWith, String.append_assoc]
      rw [hjoin, linesOf_printLines hlines, linesOf_append (by decide),
        ih (by simp) fun x hx => h x (by simp [hx])]
      simp

/-- A file reads line by line as the statements of its sections. -/
theorem linesOf_fileText {sections : List (List Line)} (hne : sections ≠ [])
    (h : ∀ lines ∈ sections, ∀ l ∈ lines, l.statement.Lawful) :
    linesOf (ScriptPlan.fileText sections) = fileLines sections := by
  have htext : ScriptPlan.fileText sections = "# Generated by talewright. Do not edit by hand." ++ "\n" ++
      ("" ++ "\n" ++ Text.joinWith "\n" (sections.map printLines)) := by
    rw [ScriptPlan.fileText, String.append_assoc]
    exact String.toList_injective rfl
  rw [htext, linesOf_append (by decide), linesOf_append (by decide), linesOf_joinWith hne h]
  rfl

/-! ## What a line says -/

/-- What stands in a line after its indentation. -/
def content (line : String) : List Char := line.toList.dropWhile (· == ' ')

/-- What follows a keyword and a space. -/
def operand? (keyword line : String) : Option (List Char) :=
  Text.afterStart? (keyword.toList ++ [' ']) (content line)

/-- The label that a line defines. -/
def definedLabel? (line : String) : Option String :=
  match operand? "label" line with
  | some name => if name.getLast? = some ':' then some (String.ofList name.dropLast) else none
  | none => none

/-- The label that a line jumps to or calls. -/
def target? (line : String) : Option String :=
  ((operand? "jump" line).orElse fun _ => operand? "call" line).map String.ofList

def definedLabels (lines : List String) : List String := lines.filterMap definedLabel?

def targets (lines : List String) : List String := lines.filterMap target?

/-- The lines under a label, up to the next one, without the empty ones. -/
def bodyOf (name : String) (lines : List String) : List String :=
  (((lines.dropWhile fun l => definedLabel? l != some name).drop 1).takeWhile fun l =>
    (definedLabel? l).isNone).filter (· != "")

end ScriptText

namespace Statement

def label? : Statement → Option String
  | label name => some name
  | _ => none

/-- Where a statement leads. -/
def target? : Statement → Option String
  | jump target | call target => some target
  | _ => none

theorem text_head (s : Statement) : s.text.toList.head? ≠ some ' ' := by
  cases s with
  | say speaker => cases speaker <;> simp [text, Quoted.toList_quote]
  | option => simp [text, Quoted.toList_quote]
  | _ => simp [text]

theorem takeWhile_text (s : Statement) : s.text.toList.takeWhile (· == ' ') = [] := by
  cases htext : s.text.toList with
  | nil => rfl
  | cons c cs =>
    have hc : c ≠ ' ' := by simpa [htext] using s.text_head
    simp [hc]

theorem dropWhile_text (s : Statement) : s.text.toList.dropWhile (· == ' ') = s.text.toList := by
  have hsplit := List.takeWhile_append_dropWhile (p := (· == ' ')) (l := s.text.toList)
  rwa [takeWhile_text, List.nil_append] at hsplit

theorem text_ne_empty (s : Statement) : s.text ≠ "" := by
  intro h
  have h := congrArg String.toList h
  cases s with
  | say speaker => cases speaker <;> simp [text, Quoted.toList_quote] at h
  | _ => simp [text, Quoted.toList_quote] at h

end Statement

/-- A line is a statement after its indentation. -/
theorem Line.toList_text (l : Line) :
    l.text.toList = List.replicate (4 * l.depth) ' ' ++ l.statement.text.toList := by
  simp only [Line.text, String.toList_append, String.toList_ofList]

theorem Line.text_ne_empty (l : Line) : l.text ≠ "" := by
  intro h
  have := congrArg String.toList h
  simp only [Line.text, String.toList_append, String.toList_empty, List.append_eq_nil_iff] at this
  exact l.statement.text_ne_empty (String.toList_injective this.2)

namespace ScriptText

theorem content_text (l : Line) : content l.text = l.statement.text.toList := by
  rw [content, Line.toList_text, List.dropWhile_append_of_pos fun c hc => by simp [List.eq_of_mem_replicate hc]]
  exact l.statement.dropWhile_text

theorem definedLabel?_text (l : Line) : definedLabel? l.text = l.statement.label? := by
  simp only [definedLabel?, operand?, content_text]
  cases l.statement with
  | say speaker => cases speaker <;> simp [Statement.text, Quoted.toList_quote, Text.afterStart?, Statement.label?]
  | _ => simp [Statement.text, Quoted.toList_quote, Text.afterStart?, Statement.label?]

theorem target?_text (l : Line) : target? l.text = l.statement.target? := by
  simp only [target?, operand?, content_text]
  cases l.statement with
  | say speaker => cases speaker <;> simp [Statement.text, Quoted.toList_quote, Text.afterStart?, Statement.target?]
  | _ => simp [Statement.text, Quoted.toList_quote, Text.afterStart?, Statement.target?]

/-! ## What a file says -/

/-- What is read from the lines of statements is read from a file of them. -/
theorem filterMap_fileLines {α : Type} {read : String → Option α} {said : Statement → Option α}
    (hempty : read "" = none) (hheader : read "# Generated by talewright. Do not edit by hand." = none)
    {sections : List (List Line)} (hread : ∀ lines ∈ sections, ∀ l ∈ lines, read l.text = said l.statement) :
    (fileLines sections).filterMap read = sections.flatMap fun lines => lines.filterMap fun l => said l.statement := by
  have hlines : ∀ lines ∈ sections,
      (lines.map Line.text ++ [""]).filterMap read = lines.filterMap fun l => said l.statement := by
    intro lines hl
    have hlast : [""].filterMap read = [] := by simp [hempty]
    rw [List.filterMap_append, hlast, List.append_nil, List.filterMap_map]
    apply List.filterMap_congr
    exact hread lines hl
  have hstart : ["# Generated by talewright. Do not edit by hand.", ""].filterMap read = [] := by
    simp [hheader, hempty]
  rw [fileLines, List.filterMap_append, hstart, List.nil_append, List.filterMap_flatMap]
  exact List.flatMap_congr hlines

/-- A section that a label begins. -/
def block (b : String × List Line) : List Line := ⟨0, .label b.1⟩ :: b.2

def Unlabelled (lines : List Line) : Prop := ∀ l ∈ lines, l.statement.label? = none

theorem Unlabelled.filterMap_eq_nil {lines : List Line} (h : Unlabelled lines) :
    lines.filterMap (fun l => l.statement.label?) = [] := by
  rw [List.filterMap_eq_nil_iff]
  exact h

theorem labels_block {b : String × List Line} (h : Unlabelled b.2) :
    (block b).filterMap (fun l => l.statement.label?) = [b.1] := by
  have hlabel : (Statement.label b.1).label? = some b.1 := rfl
  simp only [block, List.filterMap_cons, hlabel, h.filterMap_eq_nil]

theorem labels_blocks {blocks : List (String × List Line)} (h : ∀ b ∈ blocks, Unlabelled b.2) :
    ((blocks.map block).flatMap fun lines => lines.filterMap fun l => l.statement.label?) =
      blocks.map (·.1) := by
  induction blocks with
  | nil => rfl
  | cons b blocks ih =>
    have hb := labels_block (h b (by simp))
    rw [List.map_cons, List.flatMap_cons, hb, ih fun x hx => h x (by simp [hx])]
    rfl

theorem bodyOf_append {name head : String} {before body after : List String}
    (hbefore : ∀ l ∈ before, definedLabel? l ≠ some name) (hhead : definedLabel? head = some name)
    (hbody : ∀ l ∈ body, definedLabel? l = none) (hafter : ∀ l, after.head? = some l → definedLabel? l ≠ none) :
    bodyOf name (before ++ head :: (body ++ after)) = body.filter (· != "") := by
  have hdrop : (before ++ head :: (body ++ after)).dropWhile (fun l => definedLabel? l != some name) =
      head :: (body ++ after) := by
    rw [List.dropWhile_append_of_pos (by simpa using hbefore)]
    simp [hhead]
  have htake : (body ++ after).takeWhile (fun l => (definedLabel? l).isNone) = body := by
    rw [List.takeWhile_append_of_pos (by simpa using hbody)]
    cases after with
    | nil => simp
    | cons l after =>
      have := hafter l rfl
      simp [Option.isNone_iff_eq_none, this]
  rw [bodyOf, hdrop, List.drop_one, List.tail_cons, htake]

/-- Under a label of its own, a file reads as the statements that were put there. -/
theorem bodyOf_fileLines {first : List (List Line)} (hfirst : ∀ lines ∈ first, Unlabelled lines)
    {blocks : List (String × List Line)} (hb : ∀ b ∈ blocks, Unlabelled b.2)
    (hn : (blocks.map (·.1)).Nodup) {b : String × List Line} (hmem : b ∈ blocks) :
    bodyOf b.1 (fileLines (first ++ blocks.map block)) = b.2.map Line.text := by
  obtain ⟨before, after, rfl⟩ := List.append_of_mem hmem
  have hempty : definedLabel? "" = none := by decide
  have hheader : definedLabel? "# Generated by talewright. Do not edit by hand." = none := by decide
  have hsplit : fileLines (first ++ (before ++ b :: after).map block) =
      fileLines (first ++ before.map block) ++ (Line.text ⟨0, .label b.1⟩ ::
        ((b.2.map Line.text ++ [""]) ++ (after.map block).flatMap fun lines => lines.map Line.text ++ [""])) := by
    simp [fileLines, block]
  rw [hsplit, bodyOf_append]
  · have htext : ∀ l ∈ b.2.map Line.text, (l != "") = true := by simp [Line.text_ne_empty]
    rw [List.filter_append, List.filter_eq_self.2 htext]
    simp
  · -- no section before has the label
    intro l hl hlabel
    have hmem : b.1 ∈ (fileLines (first ++ before.map block)).filterMap definedLabel? :=
      List.mem_filterMap.2 ⟨l, hl, hlabel⟩
    rw [filterMap_fileLines hempty hheader fun _ _ l _ => definedLabel?_text l, List.flatMap_append,
      labels_blocks fun x hx => hb x (by simp [hx])] at hmem
    rcases List.mem_append.1 hmem with hmem | hmem
    · obtain ⟨lines, hlines, hmem⟩ := List.mem_flatMap.1 hmem
      rw [(hfirst lines hlines).filterMap_eq_nil] at hmem
      cases hmem
    · rw [List.map_append, List.map_cons] at hn
      exact (List.nodup_append.1 hn).2.2 _ hmem _ (by simp) rfl
  · rw [definedLabel?_text]
    rfl
  · intro l hl
    rcases List.mem_append.1 hl with hl | hl
    · obtain ⟨line, hline, rfl⟩ := List.mem_map.1 hl
      rw [definedLabel?_text]
      exact hb b (by simp) line hline
    · rw [List.mem_singleton.1 hl, hempty]
  · cases after with
    | nil => simp
    | cons c after =>
      intro l hl
      obtain rfl : Line.text ⟨0, .label c.1⟩ = l := by simpa [block] using hl
      rw [definedLabel?_text]
      simp [Statement.label?]

end ScriptText

/-! ## The files of a script -/

/-- The script and its modules, line by line. -/
def RenderedScript.lines (r : RenderedScript) : List String :=
  (r.script :: r.modules.map (·.text)).flatMap ScriptText.linesOf

theorem JumpTargets.mem_of_resolve? {t : JumpTargets} {target l : String} (h : t.resolve? target = some l) :
    l ∈ t.available := by
  have hliteral : (if t.available.contains (Text.trim target) then some (Text.trim target) else none) = some l →
      l ∈ t.available := by
    intro h
    split at h
    · next ha =>
      obtain rfl := Option.some.inj h
      simpa using ha
    · cases h
  unfold resolve? at h
  dsimp only at h
  split at h
  · split at h
    · next ha =>
      obtain rfl := Option.some.inj h
      simpa using ha
    · exact hliteral h
  · exact hliteral h

namespace AssetCatalog

theorem Named.nameChar_of_lookup {c : AssetCatalog} (h : Named c) {kind : AssetKind} {reference name : String}
    (hl : c.lookup kind reference = .alias_ name) : ∀ ch ∈ name.toList, Naming.NameChar ch := by
  obtain ⟨r, hr, u, hu, rfl⟩ := AssetCatalog.usage_of_lookup hl
  exact h.usages r hr u hu

theorem Named.lookup {c : AssetCatalog} (h : Named c) {kind : AssetKind} {reference name : String}
    (hl : c.lookup kind reference = .alias_ name) : OnLine name :=
  onLine_of_named (h.nameChar_of_lookup hl)

/-- What stands for a reference has the characters of names. -/
theorem Named.nameChar_of_mem_tag {c : AssetCatalog} (h : Named c) (kind : AssetKind) (reference : String) :
    ∀ ch ∈ (c.lookup kind reference).tag.toList, Naming.NameChar ch := by
  cases htoken : c.lookup kind reference with
  | alias_ name => exact h.nameChar_of_lookup htoken
  | raw reference => exact nameChar_of_mem_rawTag reference

theorem Named.byAlias? {c : AssetCatalog} (h : Named c) {name : String} {u : AssetUsage}
    (hu : c.byAlias? name = some u) : OnLine name := by
  obtain ⟨hmem, rfl⟩ := byAlias?_eq_some hu
  obtain ⟨r, hr, hru⟩ := mem_usages hmem
  exact onLine_of_named (h.usages r hr u hru)

end AssetCatalog

/-! ## The statements of a plan -/

/-- The property asks nothing of a statement without a name in it. -/
structure Statement.AsksOfNames (P : Statement → Prop) : Prop where
  finish : P .finish
  pass : P .pass
  menu : P .menu
  say : ∀ speaker text, P (.say speaker text)
  option : ∀ text, P (.option text)
  comment : ∀ text, P (.comment text)

theorem Statement.asksOfNames_lawful : AsksOfNames Lawful :=
  ⟨trivial, trivial, trivial, fun _ _ => trivial, fun _ => trivial, fun _ => trivial⟩

namespace CompiledScene

variable {catalog : AssetCatalog} {t : JumpTargets} {P : Statement → Prop}

theorem forall_optionLines (hP : Statement.AsksOfNames P) (hjump : ∀ l ∈ t.available, P (.jump l)) (o : ChoiceOption) :
    ∀ l ∈ optionLines t o, P l.statement := by
  intro l hl
  rcases List.mem_cons.1 hl with rfl | hl
  · exact hP.option _
  · obtain rfl := List.mem_singleton.1 hl
    dsimp only
    split
    · next label hlabel =>
      obtain ⟨target, -, hr⟩ := Option.bind_eq_some_iff.1 hlabel
      exact hjump label (JumpTargets.mem_of_resolve? hr)
    · exact hP.pass

/-- What holds of jumps to the labels of a script and of what stands for references, holds of all that a node
becomes. -/
theorem forall_nodeLines (hP : Statement.AsksOfNames P) (hjump : ∀ l ∈ t.available, P (.jump l))
    (hscene : ∀ reference, P (.scene (catalog.lookup .background reference)))
    (hshow : ∀ reference, P (.show_ (catalog.lookup .portrait reference))) (node : SceneNode) :
    ∀ l ∈ nodeLines catalog t node, P l.statement := by
  have hprompt (depth : Nat) (prompt : Option String) :
      ∀ l ∈ prompt.toList.map (fun p => (⟨depth, .say none p⟩ : Line)), P l.statement := by
    intro l hl
    obtain ⟨p, -, rfl⟩ := List.mem_map.1 hl
    exact hP.say none p
  intro l hl
  cases node with
  | line speaker text =>
    obtain rfl := List.mem_singleton.1 hl
    exact hP.say speaker text
  | choice prompt options =>
    cases options with
    | nil =>
      rcases List.mem_append.1 hl with hl | hl
      · exact hprompt 1 prompt l hl
      · obtain rfl := List.mem_singleton.1 hl
        exact hP.comment _
    | cons o options =>
      rcases List.mem_append.1 hl with hl | hl
      · rcases List.mem_append.1 hl with hl | hl
        · obtain rfl := List.mem_singleton.1 hl
          exact hP.menu
        · exact hprompt 2 prompt l hl
      · obtain ⟨o, -, hl⟩ := List.mem_flatMap.1 hl
        exact forall_optionLines hP hjump o l hl
  | jump target =>
    simp only [nodeLines] at hl
    split at hl
    · next label hlabel =>
      obtain rfl := List.mem_singleton.1 hl
      exact hjump label (JumpTargets.mem_of_resolve? hlabel)
    · rcases List.mem_cons.1 hl with rfl | hl
      · exact hP.comment _
      · obtain rfl := List.mem_singleton.1 hl
        exact hP.pass
  | background reference =>
    obtain rfl := List.mem_singleton.1 hl
    exact hscene reference
  | portrait reference =>
    obtain rfl := List.mem_singleton.1 hl
    exact hshow reference
  | unsupported type =>
    obtain rfl := List.mem_singleton.1 hl
    exact hP.comment _

theorem forall_lines (hP : Statement.AsksOfNames P) (hjump : ∀ l ∈ t.available, P (.jump l))
    (hscene : ∀ reference, P (.scene (catalog.lookup .background reference)))
    (hshow : ∀ reference, P (.show_ (catalog.lookup .portrait reference))) {s : CompiledScene}
    (hlabel : P (.label s.label)) : ∀ l ∈ s.lines catalog t, P l.statement := by
  intro l hl
  rcases List.mem_append.1 hl with hl | hl
  · rcases List.mem_append.1 hl with hl | hl
    · obtain rfl := List.mem_singleton.1 hl
      exact hlabel
    · obtain ⟨node, -, hl⟩ := List.mem_flatMap.1 hl
      exact forall_nodeLines hP hjump hscene hshow node l hl
  · obtain rfl := List.mem_singleton.1 hl
    exact hP.finish

end CompiledScene

namespace ScriptPlan

variable {catalog : AssetCatalog} {labels : OrderedMap String String} {p : ScriptPlan} {P : Statement → Prop}

/-- The labels that `start` and the entries of routes call. -/
def calls (p : ScriptPlan) : List String := p.startCalls ++ p.menuRoutes.flatMap (·.labels)

theorem forall_callLines (hP : Statement.AsksOfNames P) {label : String} {calls : List String}
    (hlabel : P (.label label)) (hcall : ∀ l ∈ calls, P (.call l)) : ∀ l ∈ callLines label calls, P l.statement := by
  intro l hl
  rcases List.mem_append.1 hl with hl | hl
  · rcases List.mem_append.1 hl with hl | hl
    · obtain rfl := List.mem_singleton.1 hl
      exact hlabel
    · obtain ⟨c, hc, rfl⟩ := List.mem_map.1 hl
      exact hcall c hc
  · obtain rfl := List.mem_singleton.1 hl
    exact hP.finish

theorem forall_menuLines (hP : Statement.AsksOfNames P) {routes : List Route} (hlabel : P (.label menuLabel))
    (hjump : ∀ r ∈ routes, P (.jump r.entry)) : ∀ l ∈ menuLines routes, P l.statement := by
  intro l hl
  rcases List.mem_append.1 hl with hl | hl
  · rcases List.mem_cons.1 hl with rfl | hl
    · exact hlabel
    · rcases List.mem_cons.1 hl with rfl | hl
      · exact hP.menu
      · obtain rfl := List.mem_singleton.1 hl
        exact hP.say _ _
  · obtain ⟨r, hr, hl⟩ := List.mem_flatMap.1 hl
    rcases List.mem_cons.1 hl with rfl | hl
    · exact hP.option _
    · obtain rfl := List.mem_singleton.1 hl
      exact hjump r hr

theorem mem_entryLabels_of_route {r : Route} (hr : r ∈ p.menuRoutes) :
    menuLabel ∈ p.entryLabels ∧ r.entry ∈ p.entryLabels := by
  have hne : p.menuRoutes.isEmpty = false := by simpa using List.ne_nil_of_mem hr
  constructor
  · simp [entryLabels, hne]
  · simp only [entryLabels, hne, Bool.false_eq_true, if_false]
    exact List.mem_cons_of_mem _ (List.mem_cons_of_mem _ (List.mem_map.2 ⟨r, hr, rfl⟩))

/-- What holds of the labels before the scenes, of jumps to these and of calls, holds of all that stands
there. -/
theorem forall_entrySections (hP : Statement.AsksOfNames P) (hlabel : ∀ l ∈ p.entryLabels, P (.label l))
    (hjump : ∀ l ∈ p.entryLabels, P (.jump l)) (hcall : ∀ l ∈ p.calls, P (.call l)) :
    ∀ lines ∈ p.entrySections, ∀ l ∈ lines, P l.statement := by
  have hstart : P (.label "start") := hlabel _ List.mem_cons_self
  intro lines hlines
  unfold entrySections at hlines
  split at hlines
  · obtain rfl := List.mem_singleton.1 hlines
    exact forall_callLines hP hstart fun l hl => hcall l (List.mem_append_left _ hl)
  · next hne =>
    obtain ⟨r, hr⟩ := List.exists_mem_of_ne_nil p.menuRoutes (by simpa using hne)
    have hmenu := (mem_entryLabels_of_route hr).1
    rcases List.mem_append.1 hlines with hlines | hlines
    · rcases List.mem_cons.1 hlines with rfl | hlines
      · intro l hl
        rcases List.mem_cons.1 hl with rfl | hl
        · exact hstart
        · obtain rfl := List.mem_singleton.1 hl
          exact hjump _ hmenu
      · obtain rfl := List.mem_singleton.1 hlines
        exact forall_menuLines hP (hlabel _ hmenu) fun r hr => hjump _ (mem_entryLabels_of_route hr).2
    · obtain ⟨r, hr, rfl⟩ := List.mem_map.1 hlines
      apply forall_callLines hP (hlabel _ (mem_entryLabels_of_route hr).2)
      intro l hl
      exact hcall l (List.mem_append_right _ (List.mem_flatMap.2 ⟨r, hr, hl⟩))

theorem sections_ne_nil : p.sections catalog labels ≠ [] := by
  have hentry : p.entrySections ≠ [] := by
    unfold entrySections
    split <;> simp
  simp [sections, hentry]

/-- The names in a plan stay on their lines. -/
structure Lawful (catalog : AssetCatalog) (p : ScriptPlan) : Prop where
  aliases : catalog.Named
  scenes : ∀ s ∈ p.scenes, OnLine s.label
  entries : ∀ r ∈ p.menuRoutes, OnLine r.entry
  calls : ∀ l ∈ p.calls, OnLine l

theorem Lawful.entryLabels (h : p.Lawful catalog) : ∀ l ∈ p.entryLabels, OnLine l := by
  intro l hl
  unfold ScriptPlan.entryLabels at hl
  rcases List.mem_cons.1 hl with rfl | hl
  · decide
  · split at hl
    · cases hl
    · rcases List.mem_cons.1 hl with rfl | hl
      · decide
      · obtain ⟨r, hr, rfl⟩ := List.mem_map.1 hl
        exact h.entries r hr

theorem Lawful.blocks (h : p.Lawful catalog) :
    ∀ lines ∈ p.blocks catalog labels, ∀ l ∈ lines, l.statement.Lawful := by
  have htoken (token : AssetToken) (hname : ∀ name, token = .alias_ name → OnLine name) :
      (Statement.scene token).Lawful ∧ (Statement.show_ token).Lawful := by
    cases token with
    | alias_ name => exact ⟨hname name rfl, hname name rfl⟩
    | raw reference => exact ⟨trivial, trivial⟩
  intro lines hlines
  obtain ⟨s, hs, rfl⟩ := List.mem_map.1 hlines
  apply CompiledScene.forall_lines Statement.asksOfNames_lawful
  · intro l hl
    obtain ⟨s, hs, rfl⟩ := List.mem_map.1 hl
    exact h.scenes s hs
  · exact fun reference => (htoken _ fun _ => h.aliases.lookup).1
  · exact fun reference => (htoken _ fun _ => h.aliases.lookup).2
  · exact h.scenes s hs

theorem Lawful.sections (h : p.Lawful catalog) :
    ∀ lines ∈ p.sections catalog labels, ∀ l ∈ lines, l.statement.Lawful := by
  intro lines hlines
  unfold ScriptPlan.sections at hlines
  rcases List.mem_append.1 hlines with hlines | hlines
  · rcases List.mem_append.1 hlines with hlines | hlines
    · split at hlines
      · cases hlines
      · obtain rfl := List.mem_singleton.1 hlines
        intro l hl
        obtain ⟨name, -, hl⟩ := List.mem_filterMap.1 hl
        obtain ⟨u, hu, rfl⟩ := Option.map_eq_some_iff.1 hl
        exact h.aliases.byAlias? hu
    · exact forall_entrySections Statement.asksOfNames_lawful h.entryLabels h.entryLabels h.calls lines hlines
  · split at hlines
    · cases hlines
    · exact h.blocks lines hlines

/-- The script reads line by line as its sections. -/
theorem Lawful.linesOf_script (h : p.Lawful catalog) :
    ScriptText.linesOf (p.render catalog labels).script = ScriptText.fileLines (p.sections catalog labels) :=
  ScriptText.linesOf_fileText sections_ne_nil h.sections

/-- The module of a scene. -/
def moduleOf (catalog : AssetCatalog) (t : JumpTargets) (s : CompiledScene) : ScriptModule :=
  ⟨Layout.sceneModule s.label, s.label, fileText [s.lines catalog t]⟩

theorem modules_render : (p.render catalog labels).modules =
    if p.perSceneModules then p.scenes.map (moduleOf catalog (p.targets labels)) else [] := by
  have hzip (scenes : List CompiledScene) (f : CompiledScene → List Line)
      (g : CompiledScene × List Line → ScriptModule) :
      (scenes.zip (scenes.map f)).map g = scenes.map fun s => g (s, f s) := by
    induction scenes with
    | nil => rfl
    | cons s scenes ih => simp [ih]
  unfold render
  dsimp only
  rw [ScriptPlan.blocks, hzip]
  rfl

/-- A module reads as the block of its scene. -/
theorem Lawful.linesOf_module (h : p.Lawful catalog) {s : CompiledScene} (hs : s ∈ p.scenes) :
    ScriptText.linesOf (moduleOf catalog (p.targets labels) s).text =
      ScriptText.fileLines [s.lines catalog (p.targets labels)] := by
  apply ScriptText.linesOf_fileText (by simp)
  intro lines hlines
  obtain rfl := List.mem_singleton.1 hlines
  exact h.blocks _ (List.mem_map.2 ⟨s, hs, rfl⟩)

end ScriptPlan

end StoryPress
