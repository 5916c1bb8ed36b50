import Mathlib.Logic.Relation
import StoryPress.Proofs.Endings
import StoryPress.Proofs.Idle
import StoryPress.Proofs.Predicted
import StoryPress.Proofs.Shipped

/-!
# Effects that stay in a directory

What a run does to files is broken down into steps, each at a path that is joined to the directory of the run.

* `Path.names_parent?`: the path above one has its names but the last;
* `FileSystem.Makes`, `FileSystem.Touches`: one thing is made, or made or removed;
* `FileSystem.Framed`: what such steps leave alone (`Framed.of_steps`);
* `Sink.keeps_put_steps`, `Sink.keeps_prune_steps`: putting an artifact and pruning consist of such steps;
* `effects_confined`: so do whole exports and packages, however they end.
-/

namespace StoryPress

namespace Path

/-! ## Paths above a path -/

theorem filter_dropEndFillers (segments : List String) :
    ((dropEndFillers segments).filter fun s => !isFiller s) = segments.filter fun s => !isFiller s := by
  have hdrop (ss : List String) : ((ss.dropWhile isFiller).filter fun s => !isFiller s) =
      ss.filter fun s => !isFiller s := by
    induction ss with
    | nil => rfl
    | cons s ss ih =>
      by_cases hs : isFiller s = true
      · simpa [hs] using ih
      · simp [hs]
  rw [dropEndFillers, List.filter_reverse, hdrop, List.filter_reverse, List.reverse_reverse]

/-- What is left without the fillers at the end has a name at its end. -/
theorem dropEndFillers_eq_concat {segments : List String} (h : dropEndFillers segments ≠ []) :
    ∃ front name, dropEndFillers segments = front ++ [name] ∧ isFiller name = false := by
  obtain ⟨front, name, hsplit⟩ : ∃ front name, dropEndFillers segments = front ++ [name] :=
    ⟨_, _, (List.dropLast_concat_getLast h).symm⟩
  have hreverse : segments.reverse.dropWhile isFiller = name :: front.reverse := by
    rw [← List.reverse_reverse (segments.reverse.dropWhile isFiller), ← dropEndFillers, hsplit]
    simp
  have hhead := List.head?_dropWhile_not isFiller segments.reverse
  rw [hreverse] at hhead
  exact ⟨front, name, hsplit, by simpa using hhead⟩

theorem filter_body (p : Path) : (p.body.filter fun s => !isFiller s) = p.names := by
  have htail {lead : String} (hhead : p.segments.head? = some lead) (hlead : isFiller lead = true) :
      (p.segments.tail.filter fun s => !isFiller s) = p.names := by
    obtain ⟨rest, hsegments⟩ := List.head?_eq_some_iff.1 hhead
    simp [names, hsegments, hlead]
  unfold body
  split
  · next hlead =>
    rcases Bool.or_eq_true_iff.1 hlead with habs | hhere
    · exact htail (head?_segments_of_isAbsolute habs) rfl
    · exact htail (by simpa [startsHere] using hhere) rfl
  · rfl

/-- A first segment is empty only in front of a slash. -/
theorem head?_segments_ne {p : Path} (habs : p.isAbsolute = false) (hne : p.text ≠ "") :
    p.segments.head? ≠ some "" := by
  cases hcs : p.text.toList with
  | nil => exact absurd (String.toList_eq_nil_iff.1 hcs) hne
  | cons c cs =>
    have hslash : c ≠ '/' := by simpa [isAbsolute, hcs] using habs
    obtain ⟨part, parts, -, hcut⟩ := Text.cutAll_cons_ne hslash cs
    intro he
    have := congrArg (Option.map String.toList) he
    simp [segments, Text.pieces, hcs, hcut] at this

theorem isAbsolute_joinWith {segments : List String} (hhead : segments.head? ≠ some "")
    (hslash : ∀ s ∈ segments, '/' ∉ s.toList) : (⟨Text.joinWith "/" segments⟩ : Path).isAbsolute = false := by
  cases segments with
  | nil => rfl
  | cons s ss =>
    have hs : s ≠ "" := by simpa using hhead
    obtain ⟨c, cs, hcs⟩ := List.exists_cons_of_ne_nil fun he => hs (String.toList_eq_nil_iff.1 he)
    have hc : c ≠ '/' := by
      rintro rfl
      exact hslash s (by simp) (by simp [hcs])
    cases ss with
    | nil => simp [Text.joinWith, isAbsolute, hcs, hc]
    | cons t ss => simp [Text.joinWith_cons, isAbsolute, hcs, hc]

section
variable {segments : List String} (hslash : ∀ s ∈ segments, '/' ∉ s.toList)
include hslash

theorem names_joinWith : (⟨Text.joinWith "/" segments⟩ : Path).names = segments.filter fun s => !isFiller s := by
  cases segments with
  | nil => rfl
  | cons s ss => rw [names, Path.segments, Text.pieces_joinWith (by simp) hslash]

theorem names_after {front : String} (hfront : isFiller front = true) (hf : '/' ∉ front.toList) :
    (⟨front ++ "/" ++ Text.joinWith "/" segments⟩ : Path).names = segments.filter fun s => !isFiller s := by
  rw [← names_joinWith hslash]
  simp only [names, Path.segments, Text.pieces_append, List.filter_append, Text.pieces_eq_singleton hf]
  simp [hfront]

end

theorem lead_cases (p : Path) :
    p.isAbsolute = true ∧ p.lead = [.root] ∨ p.isAbsolute = false ∧ p.lead = [.here] ∨
      p.isAbsolute = false ∧ p.lead = [] ∧ p.body = p.segments := by
  unfold lead body
  cases p.isAbsolute <;> cases p.startsHere <;> simp

theorem body_subset (p : Path) : p.body ⊆ p.segments := by
  unfold body
  split
  · exact (List.tail_sublist _).subset
  · exact List.Subset.refl _

/-- A text that is put together from segments has their names, and starts where its front does. -/
theorem names_textOf (p : Path) {segments : List String} (hslash : ∀ s ∈ segments, '/' ∉ s.toList)
    (hhead : p.lead = [] → segments.head? ≠ some "") :
    (⟨textOf p.lead segments⟩ : Path).names = segments.filter (fun s => !isFiller s) ∧
      (⟨textOf p.lead segments⟩ : Path).isAbsolute = p.isAbsolute := by
  obtain ⟨habs, hlead⟩ | ⟨habs, hlead⟩ | ⟨habs, hlead, -⟩ := p.lead_cases
  · rw [hlead, habs]
    have hnames := names_after hslash (show isFiller "" = true from rfl) (by simp)
    exact ⟨by simpa [textOf] using hnames, by simp [textOf, isAbsolute]⟩
  · rw [hlead, habs]
    by_cases hempty : segments = []
    · rw [hempty]
      exact ⟨rfl, rfl⟩
    · have hnames := names_after hslash (show isFiller "." = true from rfl) (by simp)
      have hdot : "." ++ "/" = "./" := rfl
      rw [hdot] at hnames
      exact ⟨by simpa [textOf, hempty] using hnames, by simp [textOf, hempty, isAbsolute]⟩
  · have hrelative := isAbsolute_joinWith (hhead hlead) hslash
    rw [hlead, habs]
    exact ⟨names_joinWith hslash, hrelative⟩

/-- The path above one has its names but the last, and starts where it starts. -/
theorem names_parent? {p dir : Path} (h : p.parent? = some dir) :
    dir.names = p.names.dropLast ∧ dir.isAbsolute = p.isAbsolute := by
  have hnames := p.filter_body
  rw [← filter_dropEndFillers] at hnames
  by_cases hnil : dropEndFillers p.body = []
  · rw [hnil] at hnames
    simp only [parent?, hnil, Bool.and_eq_true, Bool.not_eq_true', Option.ite_none_right_eq_some,
      Option.some.injEq] at h
    obtain ⟨⟨habs, -⟩, rfl⟩ := h
    rw [← hnames, habs]
    exact ⟨rfl, rfl⟩
  obtain ⟨front, name, hsplit, hname⟩ := dropEndFillers_eq_concat hnil
  obtain ⟨fillers, hbody⟩ := dropEndFillers_prefix p.body
  obtain ⟨more, hfront⟩ := dropEndFillers_prefix front
  have hdir : dir = ⟨textOf p.lead (dropEndFillers front)⟩ := by
    rw [parent?, hsplit] at h
    split at h
    · next hempty => simp at hempty
    · rw [← Option.some.inj h, List.dropLast_concat]
  have hslash : ∀ s ∈ dropEndFillers front, '/' ∉ s.toList := by
    intro s hs
    apply Text.not_mem_of_mem_pieces (s := p.text)
    apply p.body_subset
    rw [hbody, hsplit, hfront]
    simp [hs]
  have hall : (dropEndFillers front).filter (fun s => !isFiller s) = p.names.dropLast := by
    rw [filter_dropEndFillers, ← hnames, hsplit, List.filter_append]
    simp [hname]
  rw [← hall, hdir]
  refine p.names_textOf hslash fun hlead => ?_
  obtain ⟨-, hroot⟩ | ⟨-, hhere⟩ | ⟨habs, -, hwhole⟩ := p.lead_cases
  · cases hlead.symm.trans hroot
  · cases hlead.symm.trans hhere
  · have hhead : p.segments.head? ≠ some "" := by
      apply head?_segments_ne habs
      intro hempty
      rw [hwhole, segments, hempty] at hnil
      exact hnil rfl
    rw [← hwhole, hbody, hsplit, hfront] at hhead
    cases hd : dropEndFillers front with
    | nil => simp
    | cons first rest => simpa [hd] using hhead

/-- A path that starts where another one starts and goes all of its way or a part of it. -/
def Upto (q p : Path) : Prop := q.isAbsolute = p.isAbsolute ∧ q.names <+: p.names

namespace Upto

variable {p q r : Path}

theorem refl (p : Path) : p.Upto p := ⟨rfl, List.prefix_refl _⟩

theorem trans (h : q.Upto p) (h' : r.Upto q) : r.Upto p := ⟨h'.1.trans h.1, h'.2.trans h.2⟩

theorem of_parent? {dir : Path} (h : p.parent? = some dir) : dir.Upto p := by
  obtain ⟨hnames, habs⟩ := names_parent? h
  exact ⟨habs, hnames ▸ List.dropLast_prefix _⟩

end Upto

end Path

open Relation (ReflTransGen)

namespace FileSystem

/-! ## Steps -/

/-- One thing is made: a file at a path that is joined to `root`, or a directory above such a file. -/
inductive Makes (root : Path) (inside : String → Prop) (fs : FileSystem) : FileSystem → Prop
  | directory {rel : String} {dir q : Path} {fs' : FileSystem} (hrel : inside rel)
      (hdir : (root.join rel).parent? = some dir) (hq : q.Upto dir) (h : fs.makeDirectory q = .ok fs') :
      Makes root inside fs fs'
  | file {rel : String} {content : ByteArray} {fs' : FileSystem} (hrel : inside rel)
      (h : fs.write (root.join rel) content = .ok fs') : Makes root inside fs fs'

/-- One thing is made, or one with nothing below it is removed: a file, or an empty directory. -/
inductive Touches (root : Path) (inside : String → Prop) (fs : FileSystem) : FileSystem → Prop
  | makes {fs' : FileSystem} (h : Makes root inside fs fs') : Touches root inside fs fs'
  | removes {rel : String} (hrel : inside rel) (h : fs.below (fs.place (root.join rel)) = []) :
      Touches root inside fs (fs.drop (fs.place (root.join rel)))

section
variable {root p dir : Path} {inside : String → Prop} {rel : String} {fs fs' : FileSystem} (hrel : inside rel)
include hrel

section
variable (hdir : (root.join rel).parent? = some dir)
include hdir

theorem steps_ensureDirectory (hp : p.Upto dir) (h : fs.ensureDirectory p = .ok fs') :
    ReflTransGen (Makes root inside) fs fs' := by
  unfold ensureDirectory at h
  split at h
  · next hm => exact .single (.directory hrel hdir hp (Except.ok.inj h ▸ hm))
  · split at h
    · exact Except.ok.inj h ▸ .refl
    · cases h

theorem steps_makeDirectoryUnder {makeAbove : Path → Except IoFault FileSystem} (hp : p.Upto dir)
    (habove : ∀ above mid, above.Upto dir → makeAbove above = .ok mid → ReflTransGen (Makes root inside) fs mid)
    (h : fs.makeDirectoryUnder makeAbove p = .ok fs') : ReflTransGen (Makes root inside) fs fs' := by
  unfold makeDirectoryUnder at h
  split at h
  · exact Except.ok.inj h ▸ .refl
  · split at h
    · split at h
      · next above hparent =>
        obtain ⟨mid, hmid, h⟩ := bind_eq_ok.1 h
        exact (habove above mid (hp.trans (.of_parent? hparent)) hmid).trans (steps_ensureDirectory hrel hdir hp h)
      · cases h
    · exact steps_ensureDirectory hrel hdir hp h

theorem steps_makeDirectoriesFrom (depth : Nat) (hp : p.Upto dir)
    (h : makeDirectoriesFrom depth fs p = .ok fs') : ReflTransGen (Makes root inside) fs fs' := by
  induction depth generalizing fs' p with
  | zero => exact steps_makeDirectoryUnder hrel hdir hp (by simp) h
  | succ depth ih => exact steps_makeDirectoryUnder hrel hdir hp (fun above mid ha hm => ih ha hm) h

end

/-- A copy is two writes: it empties the target first. -/
theorem steps_copy {source : Path} (h : fs.copy source (root.join rel) = .ok fs') :
    ReflTransGen (Makes root inside) fs fs' := by
  obtain ⟨n, -, h⟩ := bind_eq_ok.1 h
  cases n with
  | directory => cases h
  | file c =>
    obtain ⟨mid, hmid, h⟩ := bind_eq_ok.1 h
    obtain ⟨content, -, h⟩ := bind_eq_ok.1 h
    exact .head (.file hrel hmid) (.single (.file hrel h))

theorem touches_removeFile (hw : fs.WellFormed) (h : fs.removeFile (root.join rel) = .ok fs') :
    Touches root inside fs fs' := by
  obtain ⟨⟨c, hc⟩, rfl⟩ := drop_of_removeFile h
  exact .removes hrel (List.isEmpty_iff.1 (hw.isEmptyDirectory_of_file hc))

end

theorem Makes.wellFormed {root : Path} {inside : String → Prop} {fs fs' : FileSystem}
    (h : Makes root inside fs fs') (hw : fs.WellFormed) : fs'.WellFormed := by
  cases h with
  | directory _ _ _ h => exact (grows_makeDirectory h).wellFormed hw
  | file _ h => exact (places_write h).wellFormed hw

theorem Touches.wellFormed {root : Path} {inside : String → Prop} {fs fs' : FileSystem}
    (h : Touches root inside fs fs') (hw : fs.WellFormed) : fs'.WellFormed := by
  cases h with
  | makes h => exact h.wellFormed hw
  | removes _ h => exact (shrinks_drop_empty (List.isEmpty_iff.2 h)).wellFormed hw

theorem wellFormed_of_steps {root : Path} {inside : String → Prop} {fs fs' : FileSystem}
    (h : ReflTransGen (Touches root inside) fs fs') (hw : fs.WellFormed) : fs'.WellFormed := by
  induction h with
  | refl => exact hw
  | tail _ hstep ih => exact hstep.wellFormed ih

theorem steps_foldl_clear {root : Path} {inside : String → Prop} {ds : List Location} {fs : FileSystem}
    (hds : ∀ d ∈ ds, ∃ rel, inside rel ∧ d = fs.place (root.join rel)) :
    ReflTransGen (Touches root inside) fs (ds.foldl clear fs) := by
  induction ds generalizing fs with
  | nil => exact .refl
  | cons d ds ih =>
    rw [List.foldl_cons, clear]
    obtain ⟨rel, hrel, rfl⟩ := hds d (by simp)
    split
    · next hempty =>
      have hbelow := List.isEmpty_iff.1 (Bool.and_eq_true_iff.1 hempty).2
      exact .head (.removes hrel hbelow) (ih fun d hd => hds d (by simp [hd]))
    · exact ih fun d hd => hds d (by simp [hd])

/-- Sweeping removes directories at and below a place, one after the other. -/
theorem steps_sweep {root : Path} {inside : String → Prop} {fs : FileSystem} (hw : fs.WellFormed)
    {ms : List String} (hne : ms ≠ []) (hms : ∀ m ∈ ms, Path.IsName m)
    (hinside : ∀ ns, (∀ n ∈ ns, Path.IsName n) → inside (Text.joinWith "/" (ms ++ ns))) :
    ReflTransGen (Touches root inside) fs (fs.sweep (fs.place root ++ ms)) := by
  have hplace {ns : List String} (hns : ∀ n ∈ ns, Path.IsName n) :
      fs.place (root.join (Text.joinWith "/" (ms ++ ns))) = fs.place root ++ ms ++ ns := by
    rw [place_join_names (List.append_ne_nil_of_left_ne_nil hne ns), List.append_assoc]
    exact fun n hn => (List.mem_append.1 hn).elim (hms n) (hns n)
  rw [sweep_eq_foldl]
  refine steps_foldl_clear fun d hd => ?_
  obtain rfl | ⟨ns, -, rfl, hn⟩ := mem_upwards_iff.1 hd
  · have hnil : ∀ n ∈ ([] : List String), Path.IsName n := by simp
    exact ⟨_, hinside [] hnil, by rw [hplace hnil, List.append_nil]⟩
  · have hns : ∀ n ∈ ns, Path.IsName n := fun n hx => hw.isName hn n (by simp [hx])
    exact ⟨_, hinside ns hns, (hplace hns).symm⟩

/-! ## Frames -/

/-- Nothing changes but what is at a path inside, except that a directory can be new above such a path. -/
structure Framed (root : Path) (inside : String → Prop) (fs fs' : FileSystem) : Prop where
  here_eq : fs'.here = fs.here
  frame : ∀ l, (∀ rel, inside rel → l ≠ fs.place (root.join rel)) → fs'.node? l ≠ fs.node? l →
    fs.node? l = none ∧ fs'.node? l = some .directory ∧
      ∃ rel dir q, inside rel ∧ (root.join rel).parent? = some dir ∧ q.Upto dir ∧ l = fs.place q

namespace Framed

variable {root : Path} {inside : String → Prop} {fs mid fs' : FileSystem}

theorem refl (fs : FileSystem) : Framed root inside fs fs := ⟨rfl, fun _ _ h => absurd rfl h⟩

theorem place_eq (h : Framed root inside fs fs') (p : Path) : fs'.place p = fs.place p := by
  simp only [place, origin, h.here_eq]

theorem trans (h : Framed root inside fs mid) (h' : Framed root inside mid fs') : Framed root inside fs fs' := by
  refine ⟨h'.here_eq.trans h.here_eq, fun l hl hne => ?_⟩
  have hl' : ∀ rel, inside rel → l ≠ mid.place (root.join rel) := by
    simpa only [h.place_eq] using hl
  by_cases hlate : fs'.node? l = mid.node? l
  · rw [hlate] at hne ⊢
    exact h.frame l hl hne
  · obtain ⟨hnone, hdirectory, hway⟩ := h'.frame l hl' hlate
    simp only [h.place_eq] at hway
    refine ⟨?_, hdirectory, hway⟩
    -- what is new later was not there before, since no directory goes away
    by_contra hsome
    obtain ⟨-, hearly, -⟩ := h.frame l hl fun he => hsome (he ▸ hnone)
    rw [hearly] at hnone
    cases hnone

theorem of_touches (h : Touches root inside fs fs') : Framed root inside fs fs' := by
  cases h with
  | makes h =>
    cases h with
    | directory hrel hdir hq h =>
      obtain ⟨⟨dir, s, hentry⟩, hnone, rfl⟩ := put_of_makeDirectory h
      refine ⟨rfl, fun l hl hdiff => ?_⟩
      rw [node?_put hentry.place_ne_nil] at hdiff ⊢
      split at hdiff
      · next heq => exact ⟨heq ▸ hnone, if_pos heq, _, _, _, hrel, hdir, hq, heq⟩
      · exact absurd rfl hdiff
    | file hrel h =>
      obtain ⟨⟨dir, s, hentry⟩, -, -, rfl⟩ := put_of_write h
      refine ⟨rfl, fun l hl hdiff => absurd ?_ hdiff⟩
      rw [node?_put hentry.place_ne_nil, if_neg (hl _ hrel)]
  | removes hrel h =>
    refine ⟨rfl, fun l hl hdiff => absurd ?_ hdiff⟩
    rw [node?_drop, if_neg fun he => hl _ hrel he.1]

theorem of_steps (h : ReflTransGen (Touches root inside) fs fs') : Framed root inside fs fs' := by
  induction h with
  | refl => exact .refl fs
  | tail _ hstep ih => exact ih.trans (.of_touches hstep)

end Framed

end FileSystem

namespace Sink

/-! ## Sinks -/

open FileSystem (Makes Touches)

/-- All that has been done to the files since they were `fs` is inside, below the root of the sink. -/
def Confined (step : FileSystem → FileSystem → Prop) (root : Path) (fs : FileSystem) (w : Workbench) : Prop :=
  w.sink.root = root ∧ ReflTransGen step fs w.files

variable {root : Path} {inside : String → Prop} {fs : FileSystem} {w w' : Workbench} {path : String}
  {content : Content}

theorem keeps_changing_steps {step : FileSystem → FileSystem → Prop} {p : Path}
    {f : FileSystem → Except IoFault FileSystem}
    (hf : ∀ mid mid', ReflTransGen step fs mid → f mid = .ok mid' → ReflTransGen step mid mid') :
    Keeps (Confined step root fs) (fun _ => True) (changing p f) :=
  Keeps.changing (fun w hw files hok => ⟨hw.1, hw.2.trans (hf w.files files hw.2 hok)⟩) fun _ => trivial

section
variable {step : FileSystem → FileSystem → Prop} (hstep : ∀ a b, Makes root inside a b → step a b)
  (hpath : inside path)
include hstep hpath

theorem keeps_store_steps : Keeps (Confined step root fs) (fun _ => True) (store (root.join path) content) := by
  unfold store
  split
  · exact keeps_changing_steps fun mid mid' _ h => .single (hstep _ _ (.file hpath h))
  · exact keeps_changing_steps fun mid mid' _ h => .single (hstep _ _ (.file hpath h))
  · exact keeps_changing_steps fun mid mid' _ h => ReflTransGen.mono hstep _ _ (FileSystem.steps_copy hpath h)

/-- Putting an artifact makes its file and directories above it. -/
theorem keeps_put_steps : Keeps (Confined step root fs) (fun _ => True) (put path content) := by
  refine keeps_put (fun _ hw _ hr _ => ⟨hr.trans hw.1, hw.2⟩) (fun _ _ _ _ _ _ => trivial) ?_ fun _ hw _ => ?_
  · intro w hw _ above habove
    rw [hw.1] at habove
    refine keeps_changing_steps fun mid mid' _ h => ?_
    exact ReflTransGen.mono hstep _ _ (FileSystem.steps_makeDirectoriesFrom hpath habove _ (.refl above) h)
  · rw [hw.1]
    exact keeps_store_steps hstep hpath

end

theorem keeps_removeAll_steps (hw : fs.WellFormed) {ps : List Path}
    (hps : ∀ p ∈ ps, ∃ rel, inside rel ∧ p = root.join rel) :
    Keeps (Confined (Touches root inside) root fs) (fun _ => True) (removeAll ps) := by
  induction ps with
  | nil => exact Keeps.pure _
  | cons p ps ih =>
    obtain ⟨rel, hrel, rfl⟩ := hps p (by simp)
    refine Keeps.bind (keeps_changing_steps fun mid mid' hmid h => ?_) fun _ => ih fun q hq => hps q (by simp [hq])
    exact .single (FileSystem.touches_removeFile hrel (FileSystem.wellFormed_of_steps hmid hw) h)

/-- Pruning removes files below a directory, and directories there. -/
theorem keeps_prune_steps (hw : fs.WellFormed) {ms : List String} (hne : ms ≠ [])
    (hms : ∀ m ∈ ms, Path.IsName m)
    (hinside : ∀ ns, (∀ n ∈ ns, Path.IsName n) → inside (Text.joinWith "/" (ms ++ ns))) :
    Keeps (Confined (Touches root inside) root fs) (fun _ => True) (prune (Text.joinWith "/" ms)) := by
  refine keeps_prune (fun _ hs _ hr _ => ⟨hr.trans hs.1, hs.2⟩) ?_ ?_
  · intro w hs _ hdir
    have hsw := FileSystem.wellFormed_of_steps hs.2 hw
    refine keeps_removeAll_steps hw fun p hp => ?_
    obtain ⟨e, he, rfl⟩ := List.mem_map.1 hp
    obtain ⟨ns, -, hfile, -, -, hpath⟩ := (mem_stale_iff hne hms hsw hdir).1 he
    obtain ⟨c, hc⟩ := Option.isSome_iff_exists.1 hfile
    refine ⟨_, hinside ns fun n hn => ?_, by rw [hpath, hs.1]⟩
    exact hsw.isName (FileSystem.fileAt_eq_some_iff.1 hc) n (by simp [hn])
  · intro w hs _
    refine keeps_changing_steps fun mid mid' hmid h => ?_
    obtain ⟨l, hl, h⟩ := bind_eq_ok.1 h
    obtain rfl := pure_eq_ok.1 h
    obtain rfl := FileSystem.locate_eq_place hl
    rw [hs.1, FileSystem.place_join_names hne hms]
    exact FileSystem.steps_sweep (FileSystem.wellFormed_of_steps hmid hw) hne hms hinside

end Sink

namespace Layout

/-- A path that stays in the bundle and names something below it. -/
def Inside (path : String) : Prop := InBundle path ∧ names path ≠ []

theorem inside_joinWith {ns : List String} (hne : ns ≠ []) (hns : ∀ n ∈ ns, Path.IsName n) :
    Inside (Text.joinWith "/" ns) := by
  refine ⟨⟨Path.startsAtRoot_joinNames hne hns, ?_⟩, by rwa [names_joinWith hne hns]⟩
  rw [Path.pieces_joinNames hne hns]
  exact fun hup => (hns ".." hup).2.2.1 rfl

theorem inside_of_isName {n : String} (h : Path.IsName n) : Inside n := by
  have hinside := inside_joinWith (List.cons_ne_nil n []) (by simpa using h)
  simpa [Text.joinWith] using hinside

end Layout

namespace FileSystem.Framed

variable {root : Path} {inside : String → Prop} {fs fs' : FileSystem}

/-- What changes lies below the place of `root` by the names of a path inside or of a directory above it; else it is
a directory on the way to `root` that was missing. -/
theorem cases_of_ne (h : Framed root inside fs fs') (hinside : ∀ rel, inside rel → Layout.Inside rel) {l : Location}
    (hne : fs'.node? l ≠ fs.node? l) :
    (∃ rel, inside rel ∧ l = fs.place root ++ Layout.names rel) ∨
      (∃ rel ns, inside rel ∧ ns ≠ [] ∧ ns <+: (Layout.names rel).dropLast ∧ l = fs.place root ++ ns) ∨
      fs.node? l = none ∧ fs'.node? l = some .directory ∧ ∃ q : Path, q.Upto root ∧ l = fs.place q := by
  by_cases hin : ∀ rel, inside rel → l ≠ fs.place (root.join rel)
  · right
    obtain ⟨hnone, hdirectory, rel, dir, q, hrel, hdir, ⟨habs, hnames⟩, rfl⟩ := h.frame l hin hne
    obtain ⟨hbundle, hrelne⟩ := hinside rel hrel
    obtain ⟨hdirnames, hdirabs⟩ := Path.names_parent? hdir
    rw [Path.isAbsolute_join hbundle.relative] at hdirabs
    have hrelnames : (⟨rel⟩ : Path).names ≠ [] := hrelne
    rw [Path.names_join hbundle.relative, List.dropLast_append_of_ne_nil hrelnames] at hdirnames
    rw [hdirnames] at hnames
    have habs := habs.trans hdirabs
    rcases List.prefix_or_prefix_of_prefix hnames (List.prefix_append root.names _) with hup | ⟨ns, hns⟩
    · exact .inr ⟨hnone, hdirectory, q, ⟨habs, hup⟩, rfl⟩
    · by_cases hnil : ns = []
      · rw [hnil, List.append_nil] at hns
        exact .inr ⟨hnone, hdirectory, q, ⟨habs, hns ▸ List.prefix_refl _⟩, rfl⟩
      · rw [← hns, List.prefix_append_right_inj] at hnames
        refine .inl ⟨rel, ns, hrel, hnil, hnames, ?_⟩
        rw [place, ← hns, List.foldl_append, show fs.origin q = fs.origin root by simp only [origin, habs]]
        refine foldl_enter_of_isName (fun n hn hup => hbundle.never_up ?_) _
        exact (List.mem_filter.1 (hup ▸ List.dropLast_subset _ (hnames.subset hn))).1
  · left
    simp only [ne_eq, not_forall, not_not] at hin
    obtain ⟨rel, hrel, rfl⟩ := hin
    exact ⟨rel, hrel, Layout.place_inBundle (hinside rel hrel).1 fs root⟩

end FileSystem.Framed

namespace Export

/-! ## Exports and packages -/

open FileSystem (Makes Touches)

variable {fs : FileSystem} {store : Store} {options : ExportOptions} {reviewers : Reviewers BundleView}
  {now : Timestamp}

/-- The artifacts of an export are inside the bundle. -/
theorem inside_files {p : Preparation} {text : String → ExportManifest → String} {a : Preparation.Artifact}
    (hp : Preparation.Settled fs options p) (hw : fs.WellFormed) (h : a ∈ p.files text) : Layout.Inside a.1 := by
  refine ⟨Preparation.inBundle_files hp hw h, ?_⟩
  obtain ⟨dir, -, u, -, rfl⟩ | ⟨hclean, -⟩ := Preparation.mem_files hp h
  · have himage : Layout.names u.output = _ := Layout.names_image u.relative
    simp [Layout.names_under, himage]
  · exact hclean.1

/-- However an export ends, it has only made and removed what is inside the bundle. -/
theorem steps_of_run (hw : fs.WellFormed) :
    ReflTransGen (Touches options.output Layout.Inside) fs (run fs store options reviewers now).2 := by
  cases hp : Preparation.run fs store options reviewers with
  | error e =>
    rw [show run fs store options reviewers now = (.error e, fs) by simp [run, hp]]
  | ok p =>
    have hwrite : Keeps (Sink.Confined (Touches options.output Layout.Inside) options.output fs) (fun _ => True)
        (write p options now) := by
      refine keeps_write (fun text a ha => ?_) fun dir hdir => ?_
      · exact Sink.keeps_put_steps (fun _ _ => .makes) (inside_files (Preparation.settled_of_run hp) hw ha)
      · rw [Preparation.generated_eq] at hdir
        obtain ⟨ms, hms, rfl⟩ := List.mem_map.1 hdir
        obtain ⟨hne, hnames⟩ := Preparation.isName_generatedNames ms hms
        refine Sink.keeps_prune_steps hw hne hnames fun ns hns => Layout.inside_joinWith (by simp [hne]) ?_
        exact fun n hn => (List.mem_append.1 hn).elim (hnames n) (hns n)
    rw [files_of_run hp]
    exact (hwrite (bench fs options) ⟨rfl, .refl⟩).1.2

end Export

namespace Package

open FileSystem (Makes Touches)

variable {fs : FileSystem} {o : PackageOptions}

/-- No slash is in the name of an archive if none is in the slug of the project. -/
theorem no_slash_of_plan {p : Plan} (hslug : '/' ∉ o.slug.toList) (h : plan fs o = .ok p) :
    ∀ s ∈ p.sources, ∀ t ∈ p.targets, '/' ∉ (stem s.slug (none, t.name)).toList := by
  obtain ⟨htargets, hsources⟩ := plan_eq_ok h
  intro s hs t ht
  have htarget : '/' ∉ t.name.toList := by
    unfold checkTargets at htargets
    split at htargets
    · cases htargets
    · obtain ⟨target, -, hcheck⟩ := exists_of_mem_mapM htargets ht
      unfold checkTarget at hcheck
      split at hcheck
      · next hname =>
        obtain ⟨platforms, -, hcheck⟩ := bind_eq_ok.1 hcheck
        rw [← pure_eq_ok.1 hcheck]
        exact Naming.no_slash_of_safe (Bool.and_eq_true_iff.1 hname).1
      · cases hcheck
  have hsource : '/' ∉ s.slug.toList := by
    obtain ⟨htree, hsafe⟩ := eq_treeOf_of_sources hsources hs
    rw [htree, slug_treeOf]
    cases hfork : s.fork with
    | none => exact hslug
    | some f => simp [treeSlug, hslug, Naming.no_slash_of_safe (hsafe f hfork)]
  simp [toList_stem_main, hsource, htarget]

/-- However packaging ends, it has only made files in the dist directory and directories on the way there. -/
theorem steps_of_run (hslug : '/' ∉ o.slug.toList) :
    ReflTransGen (Makes o.dist Path.IsName) fs (run fs o).2 := by
  cases hp : plan fs o with
  | error e =>
    rw [show run fs o = (.error e, fs) by simp [run, hp]]
  | ok p =>
    have hwork : Keeps (Sink.Confined (Makes o.dist Path.IsName) o.dist fs) (fun _ => True) (work o p) := by
      refine Keeps.mapM fun j hj => ?_
      obtain ⟨hs, ht⟩ := mem_jobs.1 hj
      refine keeps_packageOne (fun w hw => ⟨rfl, hw.2⟩) (fun _ _ _ _ => trivial) fun w _ parts hbuild a ha => ?_
      refine Sink.keeps_put_steps (fun _ _ => id) ?_
      obtain ⟨e, he, hpath⟩ := Parts.exists_ending ha
      have hstem : parts.stem = stem j.1.slug (none, j.2.name) := stem_of_build hbuild
      rw [← hpath, hstem]
      exact isName_stem (no_slash_of_plan hslug hp j.1 hs j.2 ht) he
    rw [files_of_plan hp]
    exact (hwork ⟨fs, { root := o.dist, dryRun := o.dryRun }⟩ ⟨rfl, .refl⟩).1.2

end Package

/-- The effects of a run stay in its directories: however an export ends, each file it has written or removed and each
directory it has removed is at a path of the bundle, and nothing else is different but missing directories on the way
there; and what packaging has written lies in the dist directory itself. -/
theorem effects_confined {fs : FileSystem} {store : Store} {options : ExportOptions}
    {reviewers : Reviewers BundleView} {now : Timestamp} {i : PublishInvocation} {s : Settings} {root : Path}
    {o : PackageOptions} (hw : fs.WellFormed) (ho : i.options s root = .ok o) :
    (∀ fs', (Export.run fs store options reviewers now).2 = fs' →
      ReflTransGen (FileSystem.Touches options.output Layout.Inside) fs fs' ∧
      ∀ l, fs'.node? l ≠ fs.node? l →
        (∃ ns, ns ≠ [] ∧ ".." ∉ ns ∧ l = fs.place options.output ++ ns) ∨
          fs.node? l = none ∧ fs'.node? l = some .directory ∧ ∃ q : Path, q.Upto options.output ∧ l = fs.place q) ∧
    ∀ tree tree', (Package.run tree o).2 = tree' →
      ReflTransGen (FileSystem.Makes o.dist Path.IsName) tree tree' ∧
      ∀ l, tree'.node? l ≠ tree.node? l →
        (∃ name, Path.IsName name ∧ l = tree.place o.dist ++ [name]) ∨
          tree.node? l = none ∧ tree'.node? l = some .directory ∧ ∃ q : Path, q.Upto o.dist ∧ l = tree.place q := by
  refine ⟨?_, ?_⟩
  · rintro fs' rfl
    have hsteps : ReflTransGen (FileSystem.Touches options.output Layout.Inside) fs
        (Export.run fs store options reviewers now).2 := Export.steps_of_run hw
    refine ⟨hsteps, fun l hne => ?_⟩
    have hup {rel : String} (hrel : Layout.Inside rel) : ".." ∉ Layout.names rel := fun hmem =>
      hrel.1.never_up (List.mem_filter.1 hmem).1
    obtain ⟨rel, hrel, rfl⟩ | ⟨rel, ns, hrel, hns, hpre, rfl⟩ | hway :=
      (FileSystem.Framed.of_steps hsteps).cases_of_ne (fun _ => id) hne
    · exact .inl ⟨_, hrel.2, hup hrel, rfl⟩
    · exact .inl ⟨ns, hns, fun hmem => hup hrel (List.dropLast_subset _ (hpre.subset hmem)), rfl⟩
    · exact .inr hway
  · rintro tree tree' rfl
    have hslug : '/' ∉ o.slug.toList := (PublishInvocation.options_eq_ok ho).1 ▸ s.no_slash_slug
    have hsteps : ReflTransGen (FileSystem.Makes o.dist Path.IsName) tree (Package.run tree o).2 :=
      Package.steps_of_run hslug
    refine ⟨hsteps, fun l hne => ?_⟩
    have htouches := ReflTransGen.mono (fun _ _ => FileSystem.Touches.makes) _ _ hsteps
    obtain ⟨name, hname, rfl⟩ | ⟨name, ns, hname, hns, hpre, rfl⟩ | hway :=
      (FileSystem.Framed.of_steps htouches).cases_of_ne (fun _ => Layout.inside_of_isName) hne
    · exact .inl ⟨name, hname, by rw [Layout.names_of_isName hname]⟩
    · rw [Layout.names_of_isName hname] at hpre
      exact absurd (List.prefix_nil.1 hpre) hns
    · exact .inr hway

/-- A bundle with a module that is left over. -/
def leftoverFiles : FileSystem where
  nodes := .ofList [(["out"], .directory), (["out", "game"], .directory), (["out", "game", "scenes"], .directory),
    (["out", "game", "scenes", "old.rpy"], .file "old".toUTF8)]

def leftoverOptions : ExportOptions :=
  { project := "p", output := ⟨"out"⟩, assets := ⟨"assets"⟩, force := true }

set_option maxRecDepth 100000 in
/-- An export that removes a module and its directory, and a package of a bundle with a fork. -/
theorem effects_confined_of_leftovers :
    leftoverFiles.WellFormed ∧
      ({ dist := some ⟨"d"⟩ } : PublishInvocation).options Package.clashSettings ⟨"out"⟩ =
        .ok Package.clashOptions ∧
      (∃ fs', (Export.run leftoverFiles (.memory Preparation.plainShelf) leftoverOptions {} default).2 = fs' ∧
        fs'.node? ["out", "game", "scenes"] = none ∧ (fs'.fileAt ["out", "game", "script.rpy"]).isSome ∧
        ReflTransGen (FileSystem.Touches ⟨"out"⟩ Layout.Inside) leftoverFiles fs') ∧
      ∃ tree', (Package.run Package.clashFiles Package.clashOptions).2 = tree' ∧
        (tree'.fileAt ["d", "p-w.zip"]).isSome ∧
        ReflTransGen (FileSystem.Makes ⟨"d"⟩ Path.IsName) Package.clashFiles tree' := by
  have hw : leftoverFiles.WellFormed := by decide +kernel
  have hoptions : ({ dist := some ⟨"d"⟩ } : PublishInvocation).options Package.clashSettings ⟨"out"⟩ =
      .ok Package.clashOptions := rfl
  obtain ⟨hexport, hpackage⟩ :=
    @effects_confined _ (.memory Preparation.plainShelf) leftoverOptions {} default _ _ _ _ hw hoptions
  refine ⟨hw, hoptions, ⟨_, rfl, ?_, ?_, (hexport _ rfl).1⟩, _, rfl, ?_, (hpackage _ _ rfl).1⟩
  · decide +kernel
  · decide +kernel
  · decide +kernel

end StoryPress
