import Mathlib.Data.List.Induction
import StoryPress.Proofs.Artifacts

/-!
# What an export writes

* `overlay`: what artifacts that are put below a root leave at a location; `bytesPut`: what one of them is
  written with;
* `Written`: what a real run has done when it has put some artifacts;
* `written_of_write`: a real run puts the files of the bundle, with manifests that follow those among the files
  it starts from, and prunes;
* `compared_of_write`: a dry run compares the same files with what is there.
-/

namespace StoryPress

/-- What is at a location once artifacts are put below a root, one after the other. -/
def overlay (fs : FileSystem) (root : Path) (as : List Preparation.Artifact) : Location → Option ByteArray :=
  as.foldl (fun held a l => if fs.place (root.join a.1) = l then a.2.putAt fs held l else held l) fs.fileAt

/-- The bytes that an artifact is written with, after others. -/
def bytesPut (fs : FileSystem) (root : Path) (before : List Preparation.Artifact) (a : Preparation.Artifact) :
    Option ByteArray :=
  a.2.putAt fs (overlay fs root before) (fs.place (root.join a.1))

/-- No artifact is a copy of a file in the place of one of them. -/
def Separate (fs : FileSystem) (root : Path) (as : List Preparation.Artifact) : Prop :=
  ∀ a ∈ as, ∀ source, a.2 = .copyOf source → ∀ b ∈ as, fs.place source ≠ fs.place (root.join b.1)

section
variable {fs : FileSystem} {root : Path} {as before after : List Preparation.Artifact}
  {a : Preparation.Artifact} {l : Location}

theorem overlay_append (as : List Preparation.Artifact) (a : Preparation.Artifact) (l : Location) :
    overlay fs root (as ++ [a]) l =
      if fs.place (root.join a.1) = l then bytesPut fs root as a else overlay fs root as l := by
  simp only [overlay, bytesPut, List.foldl_append, List.foldl_cons, List.foldl_nil]
  split
  · next h => rw [h]
  · rfl

theorem overlay_of_ne (h : ∀ a ∈ as, fs.place (root.join a.1) ≠ l) : overlay fs root as l = fs.fileAt l := by
  induction as using List.reverseRecOn with
  | nil => rfl
  | append_singleton as a ih =>
    have hrest : ∀ b ∈ as, fs.place (root.join b.1) ≠ l := fun b hb => h b (by simp [hb])
    rw [overlay_append, if_neg (h a (by simp)), ih hrest]

/-- The last artifact in a place stays. -/
theorem overlay_of_last (h : ∀ b ∈ after, fs.place (root.join b.1) ≠ fs.place (root.join a.1)) :
    overlay fs root (before ++ a :: after) (fs.place (root.join a.1)) = bytesPut fs root before a := by
  induction after using List.reverseRecOn with
  | nil => rw [overlay_append, if_pos rfl]
  | append_singleton after b ih =>
    have hrest : ∀ c ∈ after, fs.place (root.join c.1) ≠ fs.place (root.join a.1) :=
      fun c hc => h c (by simp [hc])
    rw [← List.cons_append, ← List.append_assoc, overlay_append, if_neg (h b (by simp)), ih hrest]

/-- A place of artifacts has a last one. -/
theorem exists_last_at (h : ∃ a ∈ as, fs.place (root.join a.1) = l) :
    ∃ before a after, as = before ++ a :: after ∧ fs.place (root.join a.1) = l ∧
      ∀ b ∈ after, fs.place (root.join b.1) ≠ l := by
  induction as with
  | nil => simp at h
  | cons a as ih =>
    by_cases hlater : ∃ b ∈ as, fs.place (root.join b.1) = l
    · obtain ⟨before, b, after, rfl, hb, hafter⟩ := ih hlater
      exact ⟨a :: before, b, after, rfl, hb, hafter⟩
    · obtain ⟨b, hb, hl⟩ := h
      obtain rfl : b = a := (List.mem_cons.1 hb).resolve_right fun hmem => hlater ⟨b, hmem, hl⟩
      exact ⟨[], b, as, rfl, hl, fun c hc he => hlater ⟨c, hc, he⟩⟩

/-- With sources in places of their own a copy is written with the bytes from before the run. -/
theorem bytesPut_of_separate (h : Separate fs root as) (ha : a ∈ as) (hsub : ∀ b ∈ before, b ∈ as) :
    bytesPut fs root before a = a.2.bytesIn fs := by
  obtain ⟨path, content⟩ := a
  cases content with
  | text s => rfl
  | bytes b => rfl
  | copyOf source =>
    have hne := h _ ha source rfl
    simp only [bytesPut, Content.putAt, Content.bytesIn, if_neg (hne _ ha)]
    exact overlay_of_ne fun b hb he => hne b (hsub b hb) he.symm

/-- What is a file stays one, and so do the places of the artifacts. -/
theorem overlay_isSome (hheld : ∀ a ∈ as, (a.2.bytesIn fs).isSome)
    (h : (fs.fileAt l).isSome ∨ ∃ a ∈ as, fs.place (root.join a.1) = l) : (overlay fs root as l).isSome := by
  induction as using List.reverseRecOn generalizing l with
  | nil => simpa [overlay] using h
  | append_singleton as b ih =>
    have hbefore : ∀ a ∈ as, (a.2.bytesIn fs).isSome := fun a ha => hheld a (by simp [ha])
    rw [overlay_append]
    split
    · have hb := hheld b (by simp)
      unfold bytesPut
      cases hc : b.2 with
      | text s => rfl
      | bytes c => rfl
      | copyOf source =>
        rw [hc] at hb
        simp only [Content.putAt]
        split
        · rfl
        · exact ih hbefore (.inl hb)
    · next hne =>
      refine ih hbefore (h.imp_right ?_)
      rintro ⟨a, ha, rfl⟩
      rcases List.mem_append.1 ha with ha | ha
      · exact ⟨a, ha, rfl⟩
      · obtain rfl := List.mem_singleton.1 ha
        exact absurd rfl hne

end

/-- What a real run has done when it has put some artifacts below its root. -/
structure Written (fs : FileSystem) (root : Path) (as : List Preparation.Artifact) (w : Workbench) : Prop where
  extends_files : fs.Extends w.files
  fileAt_eq : ∀ l, w.files.fileAt l = overlay fs root as l
  leads : ∀ a ∈ as, w.files.Leads (root.join a.1)
  root_eq : w.sink.root = root
  real : w.sink.dryRun = false
  produced_eq : w.sink.produced = (as.map (·.1)).reverse
  written_eq : w.sink.written = as.map fun a => root.join a.1

namespace Written

variable {fs : FileSystem} {root : Path} {as bs : List Preparation.Artifact} {w w' : Workbench}

theorem start (fs : FileSystem) (root : Path) : Written fs root [] ⟨fs, { root := root, dryRun := false }⟩ :=
  ⟨.refl fs, fun _ => rfl, by simp, rfl, rfl, rfl, rfl⟩

theorem put (h : Written fs root as w) {path : String} {content : Content} {target : Path}
    (hput : Runs (Sink.put path content) w target w') : Written fs root (as ++ [(path, content)]) w' := by
  have hplace (q : Path) : w.files.place q = fs.place q := h.extends_files.place_eq q
  obtain ⟨-, hsink, bytes, hplaces, hbytes⟩ := Sink.places_of_put h.real hput
  rw [h.root_eq] at hplaces hbytes
  rw [Content.putAt_congr hplace, hplace, funext h.fileAt_eq] at hbytes
  constructor
  · exact h.extends_files.trans hplaces.toExtends
  · intro l
    rw [overlay_append]
    split
    · next hl =>
      rw [← hl, ← hplace, hplaces.fileAt_self, ← hbytes]
      rfl
    · next hl =>
      rw [← h.fileAt_eq]
      exact hplaces.fileAt_of_ne l fun he => hl (by rw [he, hplace])
  · intro a ha
    rcases List.mem_append.1 ha with ha | ha
    · exact hplaces.leads (h.leads a ha)
    · obtain rfl := List.mem_singleton.1 ha
      exact hplaces.leads_self
  · rw [hsink]
    exact h.root_eq
  · rw [hsink]
    exact h.real
  · rw [hsink]
    simp [h.produced_eq]
  · rw [hsink]
    simp [h.written_eq, h.root_eq]

theorem target_eq (h : Written fs root as w) {path : String} {content : Content} {target : Path}
    (hput : Runs (Sink.put path content) w target w') : target = root.join path := by
  rw [← h.root_eq]
  exact (Sink.places_of_put h.real hput).1

/-- Artifacts are put one after the other. -/
theorem putAll (h : Written fs root as w) (hput : Runs (Export.putAll bs) w () w') :
    Written fs root (as ++ bs) w' := by
  induction bs generalizing as w with
  | nil =>
    obtain ⟨-, rfl⟩ := Runs.pure_iff.1 hput
    rwa [List.append_nil]
  | cons b bs ih =>
    obtain ⟨target, w₁, hp, hput⟩ := Runs.bind_iff.1 hput
    have happend : as ++ b :: bs = as ++ [b] ++ bs := by simp
    rw [happend]
    exact ih (h.put hp) hput

end Written

namespace Preparation

open Layout

/-- What holds of a run once some artifacts are put: each step keeps it, and where it holds the manifests are
those of the given texts. -/
structure Account (p : Preparation) (options : ExportOptions) (now : Timestamp)
    (text : String → ExportManifest → String) (holds : List Artifact → Workbench → Prop) : Prop where
  put : ∀ {as bs w w'}, holds as w → Runs (Export.putAll bs) w () w' → holds (as ++ bs) w'
  text_eq : ∀ {as w dir} (m : ExportManifest), holds as w → as ≠ [] → (∀ a ∈ as, a ∈ p.files text) →
    IsTree dir → FreeFor dir as → manifestText w.files options now dir m = text dir m

namespace Account

variable {fs : FileSystem} {p : Preparation} {options : ExportOptions} {now : Timestamp}
  {text : String → ExportManifest → String} {holds : List Artifact → Workbench → Prop} {as : List Artifact}
  {w w' : Workbench}

theorem manifest (h : Account p options now text holds) (hw : holds as w) (hne : as ≠ []) {dir : String}
    {m : ExportManifest} (hsub : ∀ a ∈ as, a ∈ p.files text) (hd : IsTree dir)
    (hfree : FreeFor dir as) {t : String} (hrun : Runs (Export.putManifest p options now dir m) w t w') :
    t = text dir m ∧ holds (as ++ p.manifestFiles dir (text dir m)) w' := by
  obtain ⟨t', w₁, hr, hrun⟩ := Runs.bind_iff.1 hrun
  obtain ⟨ht, rfl⟩ := Runs.reading_iff.1 hr
  obtain rfl := Except.ok.inj ht
  obtain ⟨⟨⟩, w₂, hput, hrun⟩ := Runs.bind_iff.1 hrun
  obtain ⟨rfl, rfl⟩ := Runs.pure_iff.1 hrun
  rw [h.text_eq m hw hne hsub hd hfree] at hput ⊢
  exact ⟨rfl, h.put hw hput⟩

/-- Nothing that is put before the manifest of a fork stands in its place. -/
theorem freeFor_fork (hp : Settled fs options p) {done rest : List (Route × List CompiledScene × RenderedScript)}
    {f : Route × List CompiledScene × RenderedScript} (hforks : done ++ f :: rest = p.forks) :
    FreeFor (Layout.fork f.1.slug) (p.gameTree "" p.master ++ done.flatMap (p.forkFiles text) ++
      p.gameTree (Layout.fork f.1.slug) f.2.2) := by
  have hmem (g : Route × List CompiledScene × RenderedScript) (hg : g ∈ done) : g ∈ p.forks := by
    rw [← hforks]
    exact List.mem_append_left _ hg
  have hf : f ∈ p.forks := by
    rw [← hforks]
    simp
  have hd := isTree_fork hp hf
  have hslugs := hp.slugs_nodup
  rw [← hforks, List.map_append, List.nodup_append] at hslugs
  refine freeFor_append (freeFor_append (freeFor_gameTree hd (.inl rfl) hp.scripted_master) ?_)
    (freeFor_gameTree hd hd (hp.scripted_fork hf))
  refine freeFor_forkFiles hp hd hmem fun g hg he => ?_
  rw [names_fork (hp.plainName_slug (hmem g hg)), names_fork (hp.plainName_slug hf)] at he
  exact hslugs.2.2 _ (List.mem_map_of_mem hg) f.1.slug (by simp) (by simpa using he)

/-- The forks are put one after the other; their manifests have places of their own. -/
theorem forks (h : Account p options now text holds) (hp : Settled fs options p)
    {done rest : List (Route × List CompiledScene × RenderedScript)} (hforks : done ++ rest = p.forks)
    (hw : holds (p.gameTree "" p.master ++ done.flatMap (p.forkFiles text)) w)
    (hrun : Runs (Export.putForks p options now rest) w () w') :
    holds (p.gameTree "" p.master ++ p.forks.flatMap (p.forkFiles text)) w' := by
  induction rest generalizing done w with
  | nil =>
    obtain ⟨-, rfl⟩ := Runs.pure_iff.1 hrun
    rw [List.append_nil] at hforks
    exact hforks ▸ hw
  | cons f rest ih =>
    obtain ⟨⟨⟩, w₁, hgame, hrun⟩ := Runs.bind_iff.1 hrun
    obtain ⟨t, w₂, hm, hrun⟩ := Runs.bind_iff.1 hrun
    have hsub : ∀ a ∈ p.gameTree "" p.master ++ (done ++ [f]).flatMap (p.forkFiles text), a ∈ p.files text := by
      intro a ha
      simp only [files, List.mem_append, List.mem_flatMap, ← hforks, List.mem_cons] at ha ⊢
      rcases ha with ha | ⟨g, hg, ha⟩
      · exact .inl (.inl (.inl ha))
      · exact .inl (.inl (.inr ⟨g, hg.imp_right fun hg => .inl (by simpa using hg), ha⟩))
    have happend : p.gameTree "" p.master ++ done.flatMap (p.forkFiles text) ++
        p.gameTree (Layout.fork f.1.slug) f.2.2 ++
        p.manifestFiles (Layout.fork f.1.slug) (text (Layout.fork f.1.slug) (p.forkManifest f.1 f.2.1 f.2.2)) =
        p.gameTree "" p.master ++ (done ++ [f]).flatMap (p.forkFiles text) := by
      simp [forkFiles]
    rw [← happend] at hsub
    have hd := isTree_fork hp (hforks ▸ by simp : f ∈ p.forks)
    obtain ⟨-, hw₂⟩ := h.manifest (h.put hw hgame) (by simp [gameTree, stamped])
      (fun a ha => hsub a (List.mem_append_left _ ha)) hd (freeFor_fork hp hforks) hm
    rw [happend] at hw₂
    exact ih (by simpa using hforks) hw₂ hrun

/-- Writing puts the files of the bundle, and prunes. -/
theorem write (h : Account p options now text holds) (hp : Settled fs options p) (hw : holds [] w) {t : String}
    (hrun : Runs (Export.write p options now) w t w') :
    t = text "" p.masterManifest ∧ ∃ mid, holds (p.files text) mid ∧
      Runs (Export.pruneAll generated) mid () w' := by
  obtain ⟨⟨⟩, w₁, hgame, hrun⟩ := Runs.bind_iff.1 hrun
  obtain ⟨⟨⟩, w₂, hforks, hrun⟩ := Runs.bind_iff.1 hrun
  obtain ⟨⟨⟩, w₃, hlabels, hrun⟩ := Runs.bind_iff.1 hrun
  obtain ⟨t', w₄, hm, hrun⟩ := Runs.bind_iff.1 hrun
  obtain ⟨⟨⟩, w₅, hprune, hrun⟩ := Runs.bind_iff.1 hrun
  obtain ⟨rfl, rfl⟩ := Runs.pure_iff.1 hrun
  have hsub : ∀ a ∈ p.gameTree "" p.master ++ p.forks.flatMap (p.forkFiles text) ++
      [(Layout.labelManifest, .text p.labelManifest.pretty)] ++ p.manifestFiles "" (text "" p.masterManifest),
      a ∈ p.files text := fun _ => id
  have hw₁ : holds (p.gameTree "" p.master ++ List.flatMap (p.forkFiles text) []) w₁ := by
    simpa using h.put hw hgame
  have hw₃ := h.put (h.forks hp rfl hw₁ hforks) hlabels
  have hroot : IsTree "" := .inl rfl
  have hfree : FreeFor "" (p.gameTree "" p.master ++ p.forks.flatMap (p.forkFiles text) ++
      [(Layout.labelManifest, .text p.labelManifest.pretty)]) := by
    refine freeFor_append (freeFor_append (freeFor_gameTree hroot hroot hp.scripted_master) ?_)
      (freeFor_labelManifest hroot _)
    refine freeFor_forkFiles hp hroot (fun _ => id) fun f hf => ?_
    rw [names_fork (hp.plainName_slug hf)]
    exact List.cons_ne_nil _ _
  obtain ⟨rfl, hw₄⟩ := h.manifest hw₃ (by simp) (fun a ha => hsub a (List.mem_append_left _ ha)) hroot hfree hm
  exact ⟨rfl, w₄, hw₄, hprune⟩

end Account

/-! ## Real runs -/

/-- The text at a location, as far as it is one and can be read. -/
def heldText (fs : FileSystem) (l : Location) : Option String :=
  (fs.fileAt l).bind fun bytes => if maxDocumentBytes < bytes.size then none else Bytes.text? bytes

/-- Where the manifest in a directory of the bundle is. -/
def manifestPlace (fs : FileSystem) (options : ExportOptions) (dir : String) : Location :=
  fs.place options.output ++ names (under dir exportManifest)

/-- The text of a manifest that follows the one in its place, whatever the path of the output leads to. -/
def settledText (fs : FileSystem) (options : ExportOptions) (now : Timestamp) (dir : String)
    (m : ExportManifest) : String :=
  (m.toJson (m.timeFor (heldText fs (manifestPlace fs options dir)) options.generatedAt now)).pretty

theorem earlierText_eq {fs : FileSystem} (hw : fs.WellFormed) {options : ExportOptions} {dir : String}
    (hd : IsTree dir) (hl : fs.Leads options.output) :
    earlierText fs (manifestFile options dir) = heldText fs (manifestPlace fs options dir) := by
  have hclean := clean_manifests.1.under hd
  have hplace : fs.place (manifestFile options dir) = manifestPlace fs options dir :=
    place_inBundle hclean.inBundle fs options.output
  unfold earlierText
  cases hc : fs.fileAt (manifestPlace fs options dir) with
  | none =>
    have hno : fs.isFile (manifestFile options dir) ≠ true := by
      intro h
      have := ((hclean.isFile_iff hw).1 h).2
      rw [show fs.fileAt (fs.place options.output ++ _) = none from hc] at this
      cases this
    simp [hno, heldText, hc]
  | some bytes =>
    have hfile : fs.isFile (manifestFile options dir) = true :=
      (hclean.isFile_iff hw).2 ⟨hl, by rw [show fs.fileAt (fs.place options.output ++ _) = _ from hc]; rfl⟩
    have hstat : fs.stat (manifestFile options dir) = .ok (.file bytes) := by
      rw [FileSystem.stat, (FileSystem.isFile_iff.1 hfile).1, hplace]
      simp [bind, Except.bind, FileSystem.fileAt_eq_some_iff.1 hc]
    simp only [hfile, if_true, heldText, hc, Option.bind_some, FileSystem.readWithin, hstat]
    split <;> rfl

/-- No picture in use is where the export puts an artifact. -/
def Apart (fs : FileSystem) (options : ExportOptions) (p : Preparation) : Prop :=
  ∀ u ∈ p.compiled.catalog.usages, ∀ path ∈ p.paths, fs.place u.source ≠ fs.place (options.output.join path)

theorem Apart.separate {fs : FileSystem} {options : ExportOptions} {p : Preparation} (h : Apart fs options p)
    (hp : Settled fs options p) (text : String → ExportManifest → String) :
    Separate fs options.output (p.files text) := by
  intro a ha source hsource b hb
  obtain ⟨dir, -, u, hu, rfl⟩ | ⟨-, s, hs⟩ := mem_files hp ha
  · obtain rfl : u.source = source := by simpa using hsource
    exact h u hu b.1 (paths_files text ▸ List.mem_map_of_mem hb)
  · rw [hs] at hsource
    cases hsource

/-- Neither of the output directory and the asset root lies in the other. -/
def Outside (fs : FileSystem) (options : ExportOptions) : Prop :=
  ¬fs.place options.output <+: fs.place options.assets ∧ ¬fs.place options.assets <+: fs.place options.output

theorem Outside.apart {fs : FileSystem} {options : ExportOptions} {p : Preparation} (h : Outside fs options)
    (hp : Settled fs options p) (hw : fs.WellFormed)
    (hrelative : ∀ u ∈ p.compiled.catalog.usages, Path.startsAtRoot u.relative = false) :
    Apart fs options p := by
  intro u hu path hpath heq
  obtain ⟨a, ha, rfl⟩ := List.mem_map.1 hpath
  have horigin := hp.origin hw hu
  rw [horigin.source_eq, place_inBundle ⟨hrelative u hu, horigin.never_up⟩,
    place_inBundle (inBundle_files hp hw ha)] at heq
  rcases List.prefix_or_prefix_of_prefix (List.prefix_append _ _) (heq ▸ List.prefix_append _ _) with hin | hin
  · exact h.1 hin
  · exact h.2 hin

variable {fs : FileSystem} {options : ExportOptions} {p : Preparation} {now : Timestamp}

theorem leads_output (hp : Settled fs options p) (hw : fs.WellFormed) {text : String → ExportManifest → String}
    {as : List Artifact} (hne : as ≠ []) (hsub : ∀ a ∈ as, a ∈ p.files text) {fs' : FileSystem}
    (h : ∀ a ∈ as, fs'.Leads (options.output.join a.1)) : fs'.Leads options.output := by
  obtain ⟨a, as, rfl⟩ := List.exists_cons_of_ne_nil hne
  have hin := inBundle_files hp hw (hsub a (by simp))
  exact (FileSystem.leads_of_join hin.relative (h a (by simp))).1

theorem account_written (hp : Settled fs options p) (hw : fs.WellFormed) :
    Account p options now (settledText fs options now) (Written fs options.output) := by
  refine ⟨fun h hrun => h.putAll hrun, ?_⟩
  intro as w dir m h hne hsub hd hfree
  have hplace : manifestPlace w.files options dir = manifestPlace fs options dir := by
    simp only [manifestPlace, h.extends_files.place_eq]
  have hfile : w.files.fileAt (manifestPlace fs options dir) = fs.fileAt (manifestPlace fs options dir) := by
    rw [h.fileAt_eq]
    refine overlay_of_ne fun a ha he => hfree a ha ?_
    rw [place_inBundle (inBundle_files hp hw (hsub a ha))] at he
    exact List.append_cancel_left he
  simp only [manifestText, settledText,
    earlierText_eq (h.extends_files.wellFormed hw) hd (leads_output hp hw hne hsub h.leads), heldText, hplace,
    hfile]

/-- The names of the directories that are pruned. -/
def generatedNames : List (List String) := [[gameDir, scenesDir], [gameDir, imagesDir], [forksDir]]

theorem generated_eq : generated = generatedNames.map (Text.joinWith "/") := by decide

theorem isName_generatedNames : ∀ ms ∈ generatedNames, ms ≠ [] ∧ ∀ m ∈ ms, Path.IsName m := by decide

/-- A real run puts the files of the bundle, and prunes what it did not produce. -/
theorem written_of_write (hp : Settled fs options p) (hw : fs.WellFormed) {t : String} {w' : Workbench}
    (h : Runs (Export.write p options now) ⟨fs, { root := options.output, dryRun := false }⟩ t w') :
    ∃ mid, Written fs options.output (p.files (settledText fs options now)) mid ∧ w'.sink = mid.sink ∧
      Export.PrunedAll options.output p.paths.reverse generatedNames mid.files w'.files := by
  obtain ⟨-, mid, hmid, hprune⟩ := (account_written hp hw).write hp (.start fs options.output) h
  rw [generated_eq] at hprune
  obtain ⟨hsink, hpruned⟩ := Export.pruneAll_real isName_generatedNames (hmid.extends_files.wellFormed hw)
    hmid.real hprune
  rw [hmid.root_eq, hmid.produced_eq, paths_files] at hpruned
  exact ⟨mid, hmid, hsink, hpruned⟩

/-! ## Dry runs -/

/-- What a dry run has done when it has compared some artifacts with what is there: nothing to the files. -/
def Compared (fs : FileSystem) (root : Path) (as : List Artifact) (w : Workbench) : Prop :=
  ∃ changes, List.Forall₂ (fun a c => Sink.changeFor fs a.1 (root.join a.1) a.2 = .ok c) as changes ∧
    w = ⟨fs, { root := root, dryRun := true, changes := changes, produced := (as.map (·.1)).reverse }⟩

theorem Compared.putAll {root : Path} {as bs : List Artifact} {w w' : Workbench} (h : Compared fs root as w)
    (hput : Runs (Export.putAll bs) w () w') : Compared fs root (as ++ bs) w' := by
  obtain ⟨changes, hchanges, rfl⟩ := h
  obtain ⟨hfiles, more, hmore, hsink⟩ := Export.putAll_dry rfl hput
  refine ⟨changes ++ more, List.rel_append hchanges hmore, ?_⟩
  cases w' with
  | mk files sink =>
    obtain rfl : files = fs := hfiles
    obtain rfl := hsink
    simp

theorem account_compared : Account p options now (manifestText fs options now) (Compared fs options.output) := by
  refine ⟨fun h hrun => h.putAll hrun, ?_⟩
  rintro as w dir m ⟨changes, -, rfl⟩ - - - -
  rfl

/-- A dry run compares the files of the bundle with what is there, and leaves all files as they are. -/
theorem compared_of_write (hp : Settled fs options p) {t : String} {w' : Workbench}
    (h : Runs (Export.write p options now) ⟨fs, { root := options.output, dryRun := true }⟩ t w') :
    w'.files = fs ∧ ∃ changes,
      List.Forall₂ (fun a c => Sink.changeFor fs a.1 (options.output.join a.1) a.2 = .ok c)
        (p.artifacts fs options now) changes ∧
      w'.sink.changes = changes ++ generated.flatMap (Sink.removals fs
        { root := options.output, dryRun := true, changes := changes, produced := p.paths.reverse }) := by
  have hstart : Compared fs options.output [] ⟨fs, { root := options.output, dryRun := true }⟩ :=
    ⟨[], .nil, rfl⟩
  obtain ⟨-, mid, ⟨changes, hchanges, rfl⟩, hprune⟩ := account_compared.write hp hstart h
  rw [Export.pruneAll_dry rfl hprune]
  exact ⟨rfl, changes, hchanges, by rw [paths_files]⟩

end Preparation

namespace Export

variable {fs fs' : FileSystem} {store : Store} {options : ExportOptions} {reviewers : Reviewers BundleView}
  {now : Timestamp} {r : ExportResult}

theorem runs_of_run (h : run fs store options reviewers now = (.ok r, fs')) :
    Preparation.run fs store options reviewers = .ok r.prepared ∧ ∃ w',
      Runs (write r.prepared options now) ⟨fs, { root := options.output, dryRun := options.dryRun }⟩ r.manifest
        w' ∧ w'.files = fs' ∧ r.changes = w'.sink.changes := by
  unfold run at h
  split at h
  · cases h
  · next p hp =>
    dsimp only at h
    split at h
    · cases h
    · next manifest w hw =>
      obtain ⟨hr, rfl⟩ := Prod.mk.inj h
      obtain rfl := Except.ok.inj hr
      exact ⟨hp, w, hw, rfl, rfl⟩

end Export

end StoryPress
