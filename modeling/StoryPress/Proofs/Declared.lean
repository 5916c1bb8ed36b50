import StoryPress.Proofs.Accounts
import StoryPress.Proofs.ControlFlow
import StoryPress.Proofs.Kept
import StoryPress.Proofs.Literals

/-!
# Declared pictures and copied files

The pictures of a game are read from the text of its script: which names it declares, and the path of each.

* `ScriptText.declared?_image`: a declaration reads back as its name and its path, without carriage returns;
* `ScriptPlan.Lawful.declarations_script`: a script declares the aliases that its scenes show, in order, and its
  modules declare none;
* `ScriptPlan.Lawful.shown_render`: what a script and its modules show;
* `Preparation.mem_copies_iff`: the copies of a game are those of the pictures that it declares;
* `Preparation.declared_copied_iff`: they are at the declared paths, unless a carriage return is left out.
-/

namespace StoryPress

namespace Statement

/-- The picture that a statement declares, as it is read back. -/
def declared? : Statement → Option (String × String)
  | image name path => some (name, Text.withoutReturns path)
  | _ => none

/-- What a statement shows. -/
def shown? : Statement → Option AssetToken
  | scene token | show_ token => some token
  | _ => none

/-- The name under which a statement shows a picture. -/
def tag? (s : Statement) : Option String := s.shown?.map AssetToken.tag

theorem asksOfNames_shown : AsksOfNames fun s => s.shown? = none :=
  ⟨rfl, rfl, rfl, fun _ _ => rfl, fun _ => rfl, fun _ => rfl⟩

theorem alias?_eq_some_iff {s : Statement} {name : String} :
    s.alias? = some name ↔ s.shown? = some (.alias_ name) := by
  cases s with
  | scene token | show_ token => cases token <;> simp [alias?, shown?]
  | _ => simp [alias?, shown?]

end Statement

/-! ## What lines declare and show -/

namespace ScriptText

/-- The name and the path that a line declares. -/
def declared? (line : String) : Option (String × String) :=
  match operand? "image" line with
  | none => none
  | some cs =>
    match Text.afterStart? [' ', '=', ' ', '"'] (cs.dropWhile (· != ' ')) with
    | none => none
    | some literal =>
      match Quoted.decode literal with
      | some (path, []) => some (String.ofList (cs.takeWhile (· != ' ')), String.ofList path)
      | _ => none

/-- The names and the paths that a file declares. -/
def declarations (text : String) : List (String × String) := (linesOf text).filterMap declared?

/-- The name of the picture that a line shows, as a background or as a portrait. -/
def shown? (line : String) : Option String :=
  ((operand? "scene" line).orElse fun _ => operand? "show" line).map String.ofList

/-- A declaration is read back, but for carriage returns in its path. -/
theorem declared?_image {name : String} (h : ∀ c ∈ name.toList, Naming.NameChar c) (depth : Nat) (path : String) :
    declared? (Line.text ⟨depth, .image name path⟩) = some (name, Text.withoutReturns path) := by
  have hoperand : operand? "image" (Line.text ⟨depth, .image name path⟩) =
      some (name.toList ++ ' ' :: '=' :: ' ' :: '"' :: (Quoted.encode path.toList ++ ['"'])) := by
    simp [operand?, content_text, Statement.text, Quoted.toList_quote, Text.afterStart?]
  have hname : ∀ c ∈ name.toList, (c != ' ') = true := by
    intro c hc
    have hne : c ≠ ' ' := (h c hc).ne (by decide) (by decide)
    simpa using hne
  have hread : Quoted.decode (Quoted.encode path.toList ++ ['"']) = some (path.toList.filter (· != '\r'), []) :=
    Quoted.decode_encode _ []
  simp only [declared?, hoperand, List.dropWhile_append_of_pos hname, List.takeWhile_append_of_pos hname]
  simp [Text.afterStart?, hread, Text.withoutReturns]

theorem declared?_text {l : Line} (h : ∀ name path, l.statement = .image name path →
    ∀ c ∈ name.toList, Naming.NameChar c) : declared? l.text = l.statement.declared? := by
  obtain ⟨depth, s⟩ := l
  cases s with
  | image name path => exact declared?_image (h name path rfl) depth path
  | say speaker =>
    cases speaker <;>
      simp [declared?, operand?, content_text, Statement.text, Quoted.toList_quote, Text.afterStart?,
        Statement.declared?]
  | _ =>
    simp [declared?, operand?, content_text, Statement.text, Quoted.toList_quote, Text.afterStart?,
      Statement.declared?]

theorem shown?_text (l : Line) : shown? l.text = l.statement.tag? := by
  simp only [shown?, operand?, content_text, Statement.tag?]
  cases l.statement with
  | say speaker => cases speaker <;> simp [Statement.text, Quoted.toList_quote, Text.afterStart?, Statement.shown?]
  | _ => simp [Statement.text, Quoted.toList_quote, Text.afterStart?, Statement.shown?]

end ScriptText

/-! ## What scenes show -/

/-- What stands for the picture of a node. -/
def SceneNode.token? (catalog : AssetCatalog) (node : SceneNode) : Option AssetToken :=
  node.picture?.map fun (kind, reference) => catalog.lookup kind reference

namespace CompiledScene

variable {catalog : AssetCatalog} {t : JumpTargets}

/-- A node shows its picture, and nothing else. -/
theorem shown_nodeLines (node : SceneNode) :
    (nodeLines catalog t node).filterMap (·.statement.shown?) = (node.token? catalog).toList := by
  have hprompt (depth : Nat) (prompt : Option String) :
      (prompt.toList.map fun p => (⟨depth, .say none p⟩ : Line)).filterMap (·.statement.shown?) = [] := by
    cases prompt <;> rfl
  have hoption (o : ChoiceOption) : (optionLines t o).filterMap (·.statement.shown?) = [] := by
    unfold optionLines
    cases o.target.bind t.resolve? <;> rfl
  cases node with
  | background reference => rfl
  | portrait reference => rfl
  | line => rfl
  | unsupported => rfl
  | choice prompt options =>
    cases options with
    | nil =>
      rw [nodeLines, List.filterMap_append, hprompt]
      rfl
    | cons o options =>
      have hoptions : ((o :: options).flatMap (optionLines t)).filterMap (·.statement.shown?) = [] := by
        rw [List.filterMap_flatMap, List.flatMap_eq_nil_iff]
        exact fun x _ => hoption x
      rw [nodeLines, List.filterMap_append, List.filterMap_append, hprompt, hoptions]
      · rfl
      · intro hnil
        cases hnil
  | jump target =>
    simp only [nodeLines]
    cases t.resolve? target <;> rfl

theorem shown_lines (s : CompiledScene) :
    (s.lines catalog t).filterMap (·.statement.shown?) = s.nodes.filterMap (·.token? catalog) := by
  have hnodes : (s.nodes.flatMap (nodeLines catalog t)).filterMap (·.statement.shown?) =
      s.nodes.filterMap (·.token? catalog) := by
    rw [List.filterMap_flatMap, List.filterMap_eq_flatMap_toList]
    apply List.flatMap_congr
    intro node _
    exact shown_nodeLines node
  rw [lines, List.filterMap_append, List.filterMap_append, hnodes]
  simp [Statement.shown?]

end CompiledScene

namespace ScriptPlan

variable {catalog : AssetCatalog} {labels : OrderedMap String String} {p : ScriptPlan}

/-- What the scenes of a plan show, in order. -/
def tokens (catalog : AssetCatalog) (p : ScriptPlan) : List AssetToken :=
  p.scenes.flatMap fun s => s.nodes.filterMap (·.token? catalog)

theorem shown_blocks :
    ((p.blocks catalog labels).flatMap fun lines => lines.filterMap (·.statement.shown?)) = p.tokens catalog := by
  rw [blocks, List.flatMap_map, tokens]
  apply List.flatMap_congr
  intro s _
  exact CompiledScene.shown_lines s

/-- The aliases in use are those that the scenes show. -/
theorem mem_aliases_iff {name : String} : name ∈ p.aliases catalog labels ↔ .alias_ name ∈ p.tokens catalog := by
  rw [aliases, mem_aliasesOf_iff, ← shown_blocks, List.mem_flatMap]
  constructor
  · rintro ⟨l, hl, hname⟩
    obtain ⟨lines, hlines, hl⟩ := List.mem_flatten.1 hl
    exact ⟨lines, hlines, List.mem_filterMap.2 ⟨l, hl, Statement.alias?_eq_some_iff.1 hname⟩⟩
  · rintro ⟨lines, hlines, hname⟩
    obtain ⟨l, hl, hname⟩ := List.mem_filterMap.1 hname
    exact ⟨l, List.mem_flatten.2 ⟨lines, hlines, hl⟩, Statement.alias?_eq_some_iff.2 hname⟩

/-- The sections before the scenes show nothing. -/
theorem shown_entrySections : (p.entrySections.flatMap fun lines => lines.filterMap (·.statement.shown?)) = [] := by
  rw [List.flatMap_eq_nil_iff]
  intro lines hlines
  rw [List.filterMap_eq_nil_iff]
  exact forall_entrySections Statement.asksOfNames_shown (fun _ _ => rfl) (fun _ _ => rfl) (fun _ _ => rfl) lines hlines

/-- A script and its modules show the pictures of their scenes, each under its alias or its tag. -/
theorem Lawful.shown_render (h : p.Lawful catalog) :
    (p.render catalog labels).lines.filterMap ScriptText.shown? = (p.tokens catalog).map AssetToken.tag := by
  have htags (sections : List (List Line)) :
      (sections.flatMap fun lines => lines.filterMap (·.statement.tag?)) =
        (sections.flatMap fun lines => lines.filterMap (·.statement.shown?)).map AssetToken.tag := by
    simp only [Statement.tag?, List.map_flatMap, List.map_filterMap]
  rw [h.filterMap_lines ScriptText.shown?_text (by decide) (by decide) (fun _ _ => rfl), htags, List.flatMap_append,
    shown_entrySections, List.nil_append, shown_blocks]

/-- What a script declares. -/
def pictures (catalog : AssetCatalog) (labels : OrderedMap String String) (p : ScriptPlan) :
    List (String × String) :=
  (p.aliases catalog labels).filterMap fun name => (catalog.byAlias? name).map fun u =>
    (name, Text.withoutReturns (Layout.imagesDir ++ "/" ++ u.relative))

theorem declared_of_noImage {lines : List Line} (h : NoImage lines) :
    lines.filterMap (·.statement.declared?) = [] := by
  rw [List.filterMap_eq_nil_iff]
  intro l hl
  cases hs : l.statement with
  | image name path => exact absurd hs (h l hl name path)
  | _ => rfl

theorem declared_declarations (aliases : List String) :
    (ScriptPlan.declarations catalog aliases).filterMap (·.statement.declared?) =
      aliases.filterMap fun name => (catalog.byAlias? name).map fun u =>
        (name, Text.withoutReturns (Layout.imagesDir ++ "/" ++ u.relative)) := by
  rw [ScriptPlan.declarations, List.filterMap_filterMap]
  apply List.filterMap_congr
  intro name _
  cases catalog.byAlias? name <;> rfl

/-- The names that are declared are made of letters, digits and underscores. -/
theorem Lawful.nameChar_of_declared (h : p.Lawful catalog) {l : Line} (hl : l ∈ p.lines catalog labels)
    {name path : String} (himage : l.statement = .image name path) : ∀ c ∈ name.toList, Naming.NameChar c := by
  obtain ⟨-, u, hu, -⟩ := image_declared hl himage
  obtain ⟨hmem, rfl⟩ := AssetCatalog.byAlias?_eq_some hu
  obtain ⟨r, hr, hru⟩ := AssetCatalog.mem_usages hmem
  exact h.aliases.usages r hr u hru

/-- A script declares the pictures that its scenes show. -/
theorem Lawful.declarations_script (h : p.Lawful catalog) :
    ScriptText.declarations (p.render catalog labels).script = p.pictures catalog labels := by
  have hread : ∀ lines ∈ p.sections catalog labels, ∀ l ∈ lines,
      ScriptText.declared? l.text = l.statement.declared? := by
    intro lines hlines l hl
    apply ScriptText.declared?_text
    intro name path himage
    exact h.nameChar_of_declared (List.mem_flatten.2 ⟨lines, List.mem_append_left _ hlines, hl⟩) himage
  have hdeclaring : ((p.declaring catalog labels).flatMap fun lines => lines.filterMap (·.statement.declared?)) =
      p.pictures catalog labels := by
    rw [pictures, ← declared_declarations]
    unfold declaring
    dsimp only
    by_cases hempty : (ScriptPlan.declarations catalog (p.aliases catalog labels)).isEmpty = true
    · rw [if_pos hempty, List.isEmpty_iff.1 hempty]
      rfl
    · rw [if_neg hempty, List.flatMap_singleton]
  have hrest : ((p.entrySections ++ if p.perSceneModules then [] else p.blocks catalog labels).flatMap fun lines =>
      lines.filterMap (·.statement.declared?)) = [] := by
    rw [List.flatMap_eq_nil_iff]
    intro lines hlines
    apply declared_of_noImage
    cases List.mem_append.1 hlines with
    | inl hlines => exact noImage_entrySections p lines hlines
    | inr hlines =>
      split at hlines
      · cases hlines
      · exact noImage_blocks catalog labels p lines hlines
  have hsections : p.sections catalog labels = p.declaring catalog labels ++
      (p.entrySections ++ if p.perSceneModules then [] else p.blocks catalog labels) := by
    rw [← List.append_assoc]
    rfl
  rw [ScriptText.declarations, h.linesOf_script, ScriptText.filterMap_fileLines (by decide) (by decide) hread,
    hsections, List.flatMap_append, hdeclaring, hrest, List.append_nil]

/-- A module declares nothing. -/
theorem Lawful.declarations_module (h : p.Lawful catalog) {m : ScriptModule}
    (hm : m ∈ (p.render catalog labels).modules) : ScriptText.declarations m.text = [] := by
  rw [modules_render] at hm
  split at hm
  · obtain ⟨s, hs, rfl⟩ := List.mem_map.1 hm
    have hblock : s.lines catalog (p.targets labels) ∈ p.blocks catalog labels := List.mem_map.2 ⟨s, hs, rfl⟩
    have hread : ∀ lines ∈ [s.lines catalog (p.targets labels)], ∀ l ∈ lines,
        ScriptText.declared? l.text = l.statement.declared? := by
      intro lines hlines l hl
      obtain rfl := List.mem_singleton.1 hlines
      apply ScriptText.declared?_text
      intro name path himage
      exact absurd himage (noImage_blocks catalog labels p _ hblock l hl name path)
    rw [ScriptText.declarations, h.linesOf_module hs, ScriptText.filterMap_fileLines (by decide) (by decide) hread,
      List.flatMap_singleton]
    exact declared_of_noImage (noImage_blocks catalog labels p _ hblock)
  · cases hm

/-- Each alias in use stands for a picture. -/
theorem byAlias?_of_mem_aliases (hc : catalog.Coherent) {name : String} (h : name ∈ p.aliases catalog labels) :
    ∃ u, catalog.byAlias? name = some u := by
  obtain ⟨s, -, hs⟩ := List.mem_flatMap.1 (mem_aliases_iff.1 h)
  obtain ⟨node, -, hnode⟩ := List.mem_filterMap.1 hs
  obtain ⟨⟨kind, reference⟩, -, hlookup⟩ := Option.map_eq_some_iff.1 hnode
  obtain ⟨u, hu, rfl⟩ := hc.mem_usages_of_lookup hlookup
  exact AssetCatalog.exists_byAlias? hu

theorem map_pictures (hc : catalog.Coherent) : (p.pictures catalog labels).map (·.1) = p.aliases catalog labels := by
  have hsome : ∀ name ∈ p.aliases catalog labels,
      ((catalog.byAlias? name).map fun u =>
        (name, Text.withoutReturns (Layout.imagesDir ++ "/" ++ u.relative))).map (·.1) = some name := by
    intro name hname
    obtain ⟨u, hu⟩ := byAlias?_of_mem_aliases hc hname
    rw [hu]
    rfl
  rw [pictures, List.map_filterMap, List.filterMap_congr hsome]
  exact List.filterMap_some

theorem sorted_aliases : (p.aliases catalog labels).Pairwise fun a b => compare a b = .lt := by
  rw [aliases, aliasesOf, OrderedMap.keys, List.pairwise_map]
  exact OrderedMap.sorted _

theorem mem_pictures_iff {name path : String} : (name, path) ∈ p.pictures catalog labels ↔
    name ∈ p.aliases catalog labels ∧ ∃ u, catalog.byAlias? name = some u ∧
      path = Text.withoutReturns (Layout.imagesDir ++ "/" ++ u.relative) := by
  rw [pictures, List.mem_filterMap]
  constructor
  · rintro ⟨a, ha, hpath⟩
    obtain ⟨u, hu, heq⟩ := Option.map_eq_some_iff.1 hpath
    obtain ⟨rfl, rfl⟩ := Prod.mk.inj heq
    exact ⟨ha, u, hu, rfl⟩
  · rintro ⟨ha, u, hu, rfl⟩
    exact ⟨name, ha, Option.map_eq_some_iff.2 ⟨u, hu, rfl⟩⟩

end ScriptPlan

/-! ## Copies -/

theorem Layout.under_injective (dir : String) : Function.Injective (under dir) := by
  intro a b h
  unfold under at h
  split at h
  · exact h
  · apply String.toList_injective
    have := congrArg String.toList h
    simpa using this

/-- The content is that of another file. -/
def Content.isCopy : Content → Bool
  | .copyOf _ => true
  | _ => false

namespace Preparation

open Layout ScriptText

variable {fs fs' : FileSystem} {options : ExportOptions} {p : Preparation} {now : Timestamp}

/-- The paths of the copies among artifacts. -/
def copies (as : List Artifact) : List String := (as.filter (·.2.isCopy)).map (·.1)

theorem copies_append (as bs : List Artifact) : copies (as ++ bs) = copies as ++ copies bs := by
  rw [copies, List.filter_append, List.map_append]
  rfl

theorem copies_flatMap {α : Type} (xs : List α) (f : α → List Artifact) :
    copies (xs.flatMap f) = xs.flatMap fun x => copies (f x) := by
  induction xs with
  | nil => rfl
  | cons x xs ih => rw [List.flatMap_cons, copies_append, ih, List.flatMap_cons]

theorem copies_of_texts {as : List Artifact} (h : ∀ a ∈ as, ∃ s, a.2 = .text s) : copies as = [] := by
  rw [copies, List.map_eq_nil_iff, List.filter_eq_nil_iff]
  intro a ha
  obtain ⟨s, hs⟩ := h a ha
  simp [hs, Content.isCopy]

/-- The files of a game without its manifest. -/
def Tree.game (p : Preparation) (t : Tree) : List Artifact :=
  p.gameTree t.dir (t.plan.render p.compiled.catalog p.compiled.labels)

/-- The script of a game with its modules. -/
def Tree.script (p : Preparation) (t : Tree) : RenderedScript := t.plan.render p.compiled.catalog p.compiled.labels

theorem copies_stamped (path name text : String) : copies (p.stamped path name text) = [] := rfl

theorem copies_gameTree (dir : String) (script : RenderedScript) :
    copies (p.gameTree dir script) = (p.images script.aliases).map fun e => under dir e.1 := by
  have himages : copies ((p.images script.aliases).map fun e => (under dir e.1, Content.copyOf e.2)) =
      (p.images script.aliases).map fun e => under dir e.1 := by
    rw [copies, List.filter_eq_self.2, List.map_map]
    · rfl
    · intro a ha
      obtain ⟨e, -, rfl⟩ := List.mem_map.1 ha
      rfl
  have hmodules : copies (script.modules.map fun m => (under dir m.path, Content.text m.text)) = [] := by
    apply copies_of_texts
    intro a ha
    obtain ⟨m, -, rfl⟩ := List.mem_map.1 ha
    exact ⟨_, rfl⟩
  rw [gameTree, copies_append, copies_append, himages, hmodules, copies_stamped, List.append_nil, List.append_nil]

/-- Each picture of a game is copied once. -/
theorem nodup_copies (dir : String) (script : RenderedScript) : (copies (p.gameTree dir script)).Nodup := by
  have hkeys : ((p.images script.aliases).map (·.1)).Nodup := OrderedMap.nodup_keys _
  have hunder := hkeys.map (under_injective dir)
  rw [List.map_map] at hunder
  rw [copies_gameTree]
  exact hunder

/-- The copies of a game are those of the pictures with its aliases. -/
theorem mem_copies_iff {dir path : String} {script : RenderedScript} :
    path ∈ copies (p.gameTree dir script) ↔
      ∃ name ∈ script.aliases, ∃ u, p.compiled.catalog.byAlias? name = some u ∧ path = under dir u.output := by
  have hmem (output : String) : output ∈ (p.images script.aliases).map (·.1) ↔
      ∃ name ∈ script.aliases, ∃ u, p.compiled.catalog.byAlias? name = some u ∧ output = u.output := by
    unfold images
    dsimp only
    rw [show ∀ m : OrderedMap String Path, m.entries.map (·.1) = m.keys from fun _ => rfl,
      OrderedMap.mem_keys_ofList, List.map_map, List.mem_map]
    constructor
    · rintro ⟨u, hu, rfl⟩
      obtain ⟨name, hname, hu⟩ := List.mem_filterMap.1 hu
      exact ⟨name, hname, u, hu, rfl⟩
    · rintro ⟨name, hname, u, hu, rfl⟩
      exact ⟨u, List.mem_filterMap.2 ⟨name, hname, hu⟩, rfl⟩
  rw [copies_gameTree, List.mem_map]
  constructor
  · rintro ⟨e, he, rfl⟩
    obtain ⟨name, hname, u, hu, heq⟩ := (hmem e.1).1 (List.mem_map_of_mem he)
    exact ⟨name, hname, u, hu, congrArg (under dir) heq⟩
  · rintro ⟨name, hname, u, hu, rfl⟩
    obtain ⟨e, he, heq⟩ := List.mem_map.1 ((hmem u.output).2 ⟨name, hname, u, hu, rfl⟩)
    exact ⟨e, he, congrArg (under dir) heq⟩

/-- The files are copied to the declared paths, unless a carriage return is left out of one. -/
theorem declared_copied_iff {dir : String} {plan : ScriptPlan} (hl : plan.Lawful p.compiled.catalog) :
    (∀ path, path ∈ copies (p.gameTree dir (plan.render p.compiled.catalog p.compiled.labels)) ↔
        ∃ d ∈ declarations (plan.render p.compiled.catalog p.compiled.labels).script,
          path = under dir (gameDir ++ "/" ++ d.2)) ↔
      ∀ name ∈ plan.aliases p.compiled.catalog p.compiled.labels, ∀ u,
        p.compiled.catalog.byAlias? name = some u → '\r' ∉ u.relative.toList := by
  have houtput (u : AssetUsage) : u.output = gameDir ++ "/" ++ (imagesDir ++ "/" ++ u.relative) := by
    simp only [AssetUsage.output, image, String.append_assoc]
  rw [hl.declarations_script]
  constructor
  · intro h name hname u hu hreturn
    obtain ⟨⟨d, path⟩, hd, heq⟩ := (h _).1 (mem_copies_iff.2 ⟨name, hname, u, hu, rfl⟩)
    obtain ⟨-, v, -, rfl⟩ := ScriptPlan.mem_pictures_iff.1 hd
    have hpath := under_injective dir heq
    rw [houtput] at hpath
    -- the copied path has a carriage return, and no declared path has one
    have hmem : '\r' ∈ (gameDir ++ "/" ++ (imagesDir ++ "/" ++ u.relative)).toList := by simp [hreturn]
    rw [hpath] at hmem
    revert hmem
    simp [Text.withoutReturns, gameDir]
  · intro h path
    have hkept (name : String) (hname : name ∈ plan.aliases p.compiled.catalog p.compiled.labels) (u : AssetUsage)
        (hu : p.compiled.catalog.byAlias? name = some u) :
        gameDir ++ "/" ++ Text.withoutReturns (imagesDir ++ "/" ++ u.relative) = u.output := by
      have hself : Text.withoutReturns (imagesDir ++ "/" ++ u.relative) = imagesDir ++ "/" ++ u.relative := by
        rw [Text.withoutReturns_eq_self_iff]
        simpa [imagesDir] using h name hname u hu
      rw [hself, houtput]
    rw [mem_copies_iff]
    constructor
    · rintro ⟨name, hname, u, hu, rfl⟩
      exact ⟨(name, _), ScriptPlan.mem_pictures_iff.2 ⟨hname, u, hu, rfl⟩, by rw [hkept name hname u hu]⟩
    · rintro ⟨⟨name, d⟩, hd, rfl⟩
      obtain ⟨hname, u, hu, rfl⟩ := ScriptPlan.mem_pictures_iff.1 hd
      exact ⟨name, hname, u, hu, by rw [hkept name hname u hu]⟩

/-- What a game shows, declares and copies. -/
structure SelfContained (p : Preparation) (t : Tree) : Prop where
  /-- The script and its modules show the pictures of the nodes, each under its alias or its tag. -/
  shown_eq : (t.script p).lines.filterMap shown? = (t.plan.tokens p.compiled.catalog).map AssetToken.tag
  /-- The script declares the aliases that are shown, and no other name. -/
  declared_iff : ∀ name, name ∈ (declarations (t.script p).script).map (·.1) ↔
    .alias_ name ∈ t.plan.tokens p.compiled.catalog
  /-- It declares them in order, so each of them once. -/
  increasing : ((declarations (t.script p).script).map (·.1)).Pairwise fun a b => compare a b = .lt
  modules : ∀ m ∈ (t.script p).modules, declarations m.text = []
  /-- A declaration has the path of the picture, without carriage returns. -/
  path_eq : ∀ d ∈ declarations (t.script p).script, ∃ u, p.compiled.catalog.byAlias? d.1 = some u ∧
    d.2 = Text.withoutReturns (imagesDir ++ "/" ++ u.relative)
  copies_nodup : (copies (t.game p)).Nodup
  /-- The copies are those of the pictures that are declared. -/
  mem_copies : ∀ path, path ∈ copies (t.game p) ↔ ∃ name ∈ (declarations (t.script p).script).map (·.1), ∃ u,
    p.compiled.catalog.byAlias? name = some u ∧ path = under t.dir (gameDir ++ "/" ++ (imagesDir ++ "/" ++ u.relative))
  /-- They are at the declared paths, unless a carriage return is left out of one. -/
  copied_iff : (∀ path, path ∈ copies (t.game p) ↔
      ∃ d ∈ declarations (t.script p).script, path = under t.dir (gameDir ++ "/" ++ d.2)) ↔
    ∀ name ∈ (declarations (t.script p).script).map (·.1), ∀ u, p.compiled.catalog.byAlias? name = some u →
      '\r' ∉ u.relative.toList

theorem selfContained {t : Tree} (hc : p.compiled.catalog.Coherent) (hl : t.plan.Lawful p.compiled.catalog) :
    SelfContained p t := by
  have hdeclared : declarations (t.script p).script = t.plan.pictures p.compiled.catalog p.compiled.labels :=
    hl.declarations_script
  have hnames : (declarations (t.script p).script).map (·.1) =
      t.plan.aliases p.compiled.catalog p.compiled.labels := by
    rw [hdeclared, ScriptPlan.map_pictures hc]
  constructor
  · exact hl.shown_render
  · intro name
    rw [hnames]
    exact ScriptPlan.mem_aliases_iff
  · rw [hnames]
    exact ScriptPlan.sorted_aliases
  · exact fun m hm => hl.declarations_module hm
  · intro d hd
    rw [hdeclared] at hd
    exact (ScriptPlan.mem_pictures_iff.1 hd).2
  · exact nodup_copies _ _
  · intro path
    rw [hnames]
    simp only [← String.append_assoc]
    exact mem_copies_iff
  · rw [hnames]
    exact declared_copied_iff hl

/-- What an export copies, game by game. -/
structure Declared (fs fs' : FileSystem) (options : ExportOptions) (now : Timestamp) (p : Preparation) : Prop where
  /-- The games are those with the script of the bundle and the scripts of the forks. -/
  scripts_eq : (p.trees options).map (·.script p) = p.master :: p.forks.map (·.2.2)
  /-- A real run puts the files of the bundle, one after the other. -/
  written : options.dryRun = false → fs.WellFormed → ∃ t w',
    Runs (Export.write p options now) ⟨fs, { root := options.output, dryRun := false }⟩ t w' ∧ w'.files = fs' ∧
      w'.sink.written = (p.files (settledText fs options now)).map fun a => options.output.join a.1
  /-- The copies among them are those of the games. -/
  copies_eq : ∀ text, copies (p.files text) = (p.trees options).flatMap fun t => copies (t.game p)
  trees : ∀ t ∈ p.trees options, SelfContained p t

theorem Settled.lawful_tree (hp : Settled fs options p) {t : Tree} (ht : t ∈ p.trees options) :
    t.plan.Lawful p.compiled.catalog := by
  cases List.mem_cons.1 ht with
  | inl ht => exact ht ▸ hp.lawful_master
  | inr ht =>
    obtain ⟨f, hf, rfl⟩ := List.mem_map.1 ht
    obtain ⟨-, route, hroute, rfl⟩ := hp.mem_forks hf
    exact hp.lawful_fork hroute

theorem Settled.scripts_eq (hp : Settled fs options p) :
    (p.trees options).map (·.script p) = p.master :: p.forks.map (·.2.2) := by
  have hforks : (p.forks.map fun f =>
      Tree.script p ⟨Layout.fork f.1.slug, forkPlan options p.compiled f.1, p.forkManifest f.1 f.2.1 f.2.2⟩) =
        p.forks.map (·.2.2) := by
    apply List.map_congr_left
    intro f hf
    obtain ⟨-, route, -, rfl⟩ := hp.mem_forks hf
    rfl
  rw [trees, List.map_cons, List.map_map, hp.master_eq, ← hforks]
  rfl

theorem Settled.copies_eq (hp : Settled fs options p) (text : String → ExportManifest → String) :
    copies (p.files text) = (p.trees options).flatMap fun t => copies (t.game p) := by
  have hfork : ∀ f ∈ p.forks, copies (p.forkFiles text f) =
      copies (Tree.game p ⟨Layout.fork f.1.slug, forkPlan options p.compiled f.1,
        p.forkManifest f.1 f.2.1 f.2.2⟩) := by
    intro f hf
    obtain ⟨-, route, -, rfl⟩ := hp.mem_forks hf
    rw [forkFiles, copies_append, manifestFiles, copies_stamped, List.append_nil]
    rfl
  have hlabels : copies [(Layout.labelManifest, .text p.labelManifest.pretty)] = [] := rfl
  rw [files, copies_append, copies_append, copies_append, manifestFiles, copies_stamped, hlabels, List.append_nil,
    List.append_nil, copies_flatMap, List.flatMap_congr hfork, trees, List.flatMap_cons, List.flatMap_map,
    hp.master_eq]
  rfl

/-- In every game of an export the script declares the pictures that it shows, and these are copied: to the declared
paths, unless a carriage return is left out of one. -/
theorem pictures_declared {store : Store} {reviewers : Reviewers BundleView} {r : ExportResult}
    (h : Export.run fs store options reviewers now = (.ok r, fs')) : Declared fs fs' options now r.prepared := by
  obtain ⟨hrun, w', hwrite, hfiles, -⟩ := Export.runs_of_run h
  have hp := settled_of_run hrun
  constructor
  · exact hp.scripts_eq
  · intro hreal hw
    rw [hreal] at hwrite
    obtain ⟨mid, hmid, hsink, -⟩ := written_of_write hp hw hwrite
    exact ⟨r.manifest, w', hwrite, hfiles, by rw [hsink, hmid.written_eq]⟩
  · exact hp.copies_eq
  · exact fun t ht => selfContained (Compilation.coherent_ofScenes hp.compiled_eq) (hp.lawful_tree ht)

/-- A picture with a carriage return in its name, and a scene that shows it. -/
def returnFiles : FileSystem where
  nodes := .ofList [(["art"], .directory), (["art", "a\rb.png"], .file (Bytes.ofList [1]))]

def returnShelf : Shelf :=
  (({} : Shelf).addProject { id := "p", scenes := ["s"] }).addScene { id := "s", background := some "a\rb.png" }

def returnOptions : ExportOptions := { project := "p", output := ⟨"out"⟩, assets := ⟨"art"⟩ }

set_option maxRecDepth 100000 in
/-- The picture is declared, but not at the path of its copy. -/
theorem copied_apart_of_return :
    ∃ r fs', Export.run returnFiles (.memory returnShelf) returnOptions {} default = (.ok r, fs') ∧
      ∃ t ∈ r.prepared.trees returnOptions, SelfContained r.prepared t ∧
        ¬∀ path, path ∈ copies (t.game r.prepared) ↔
          ∃ d ∈ declarations (t.script r.prepared).script, path = under t.dir (gameDir ++ "/" ++ d.2) := by
  have hrun : (match Export.run returnFiles (.memory returnShelf) returnOptions {} default with
      | (.ok r, _) => r.prepared.master.aliases == ["bg_a_b"] &&
          ((r.prepared.compiled.catalog.byAlias? "bg_a_b").map fun u => u.relative.toList.contains '\r') == some true
      | (.error _, _) => false) = true := by
    decide +kernel
  split at hrun
  · next r fs' hr =>
    obtain ⟨haliases, hreturn⟩ := Bool.and_eq_true_iff.1 hrun
    obtain ⟨u, hu, hmem⟩ := Option.map_eq_some_iff.1 (beq_iff_eq.1 hreturn)
    have hd := pictures_declared hr
    have hne : r.prepared.trees returnOptions ≠ [] := List.cons_ne_nil _ _
    obtain ⟨t, rest, htrees⟩ := List.exists_cons_of_ne_nil hne
    have ht : t ∈ r.prepared.trees returnOptions := htrees ▸ List.mem_cons_self
    have hscripts := hd.scripts_eq
    rw [htrees, List.map_cons] at hscripts
    have hname : "bg_a_b" ∈ (t.script r.prepared).aliases := by
      rw [(List.cons.inj hscripts).1, beq_iff_eq.1 haliases]
      exact List.mem_singleton.2 rfl
    have hself := hd.trees t ht
    have hdeclared := (hself.declared_iff "bg_a_b").2 (ScriptPlan.mem_aliases_iff.1 hname)
    refine ⟨r, fs', hr, t, ht, hself, fun hall => ?_⟩
    exact hself.copied_iff.1 hall "bg_a_b" hdeclared u hu (List.contains_iff_mem.1 hmem)
  · cases hrun

end Preparation

end StoryPress
