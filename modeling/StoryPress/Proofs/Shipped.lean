import Mathlib.Data.List.Nodup
import StoryPress.Command.Invocation
import StoryPress.Proofs.Archives
import StoryPress.Proofs.Routes

/-!
# What a run ships

Settings name each target once, and a route plan gives each fork a slug of its own. So the archives of a run have
names of their own, unless a target is called like a fork and a target with a hyphen between them.

* `targets_of_usable`, `RoutePlan.planned_routesOf`: the names that settings and plans give;
* `pairwise_keys`: which archives of a run share their names;
* `shipped_of_run`: which archives have paths of their own, and what is at these paths after the run.
-/

namespace StoryPress

/-! ## Targets and slugs -/

namespace Package

/-- Slugs of forks as route plans give them: each once, and each made of an id. -/
structure Planned (slugs : List String) : Prop where
  nodup : slugs.Nodup
  made : ∀ f ∈ slugs, ∃ taken id, f = RoutePlan.slugFor taken id

theorem Planned.nameChar {slugs : List String} (h : Planned slugs) {f : String} (hf : f ∈ slugs) :
    ∀ c ∈ f.toList, Naming.NameChar c := by
  obtain ⟨taken, id, rfl⟩ := h.made f hf
  exact (RoutePlan.slugFor_named taken id).2

end Package

/-- The routes of a plan have slugs as packages want them. -/
theorem RoutePlan.planned_routesOf (sequence : List PlacedScene) (vs : List Viewpoint) (slugs : List String)
    (book : LabelBook) : Package.Planned ((routesOf sequence vs slugs book).1.map (·.slug)) := by
  refine ⟨(distinct_routesOf sequence vs slugs book).slugs_nodup, ?_⟩
  intro f hf
  obtain ⟨r, hr, rfl⟩ := List.mem_map.1 hf
  obtain ⟨taken, hslug⟩ := (madeOf_of_mem r hr).slug_eq
  exact ⟨taken, r.viewpoint, hslug⟩

theorem Naming.no_slash_of_safe {id : String} (h : isSafeComponent id = true) : '/' ∉ id.toList := by
  intro hslash
  have hall := (Bool.and_eq_true_iff.1 h).2
  exact absurd (List.all_eq_true.1 hall '/' hslash) (by decide)

namespace Settings

variable {s : Settings}

theorem targets_of_no_problem {seen : List String} {ts : List PublishTarget} (h : targetProblem? seen ts = none) :
    (ts.map (·.name)).Nodup ∧ ∀ t ∈ ts, Package.isTargetName t.name = true ∧ t.name ∉ seen := by
  induction ts generalizing seen with
  | nil => simp
  | cons t ts ih =>
    unfold targetProblem? at h
    split at h
    · cases h
    · next hname =>
      split at h
      · cases h
      · next hseen =>
        obtain ⟨hnodup, hrest⟩ := ih h
        rw [List.map_cons, List.nodup_cons]
        refine ⟨⟨?_, hnodup⟩, ?_⟩
        · intro hmem
          obtain ⟨t', ht', heq⟩ := List.mem_map.1 hmem
          exact (hrest t' ht').2 (heq ▸ List.mem_cons_self)
        · intro t' ht'
          rcases List.mem_cons.1 ht' with rfl | ht'
          · exact ⟨by simpa using hname, by simpa using hseen⟩
          · exact ⟨(hrest t' ht').1, fun hmem => (hrest t' ht').2 (List.mem_cons_of_mem _ hmem)⟩

/-- Settings that can be used name each target once, without a slash. -/
theorem targets_of_usable (h : s.problem? = none) :
    (s.publishing.targets.map (·.name)).Nodup ∧ ∀ t ∈ s.publishing.targets, '/' ∉ t.name.toList := by
  unfold problem? at h
  dsimp only at h
  split at h
  · cases h
  · split at h
    · cases h
    · obtain ⟨hnodup, hnames⟩ := targets_of_no_problem h
      refine ⟨hnodup, ?_⟩
      intro t ht
      exact Naming.no_slash_of_safe (Bool.and_eq_true_iff.1 (hnames t ht).1).1

theorem no_slash_slug (s : Settings) : '/' ∉ s.slug.toList := by
  unfold slug
  dsimp only
  split
  · decide
  · intro h
    rw [Text.mapChars, String.toList_ofList, List.mem_map] at h
    obtain ⟨c, hc, heq⟩ := h
    have hname := Naming.nameChar_of_mem_slug hc
    split at heq
    · exact absurd heq (by decide)
    · exact hname.ne (by decide) (by decide) heq

end Settings

/-! ## Names of archives -/

namespace Package

/-- A target that is called like a fork and a target, with a hyphen between them. -/
def Clash (slugs targets : List String) : Prop := ∃ f ∈ slugs, ∃ t ∈ targets, f ++ "-" ++ t ∈ targets

instance clashDecidable (slugs targets : List String) : Decidable (Clash slugs targets) :=
  inferInstanceAs (Decidable (∃ f ∈ slugs, ∃ t ∈ targets, f ++ "-" ++ t ∈ targets))

/-- What a run leaves that is no dry run: the archives for all trees and targets. They have paths of their own unless
a target clashes with a fork; then the archive of the bundle for this target is replaced by that of the fork. -/
structure Shipped (o : PackageOptions) (slugs : List String) (rs : List PackageResult) (fs' : FileSystem) : Prop where
  keys_eq : rs.map (fun r => (r.fork, r.target)) = (none :: slugs.map some) ×ˢ o.targets.map (·.name)
  archives_nodup_iff : (rs.map (·.archive)).Nodup ↔ ¬Clash slugs (o.targets.map (·.name))
  manifests_nodup_iff : (rs.map (·.manifest)).Nodup ↔ ¬Clash slugs (o.targets.map (·.name))
  licenses_nodup_iff : (rs.map (·.licenses)).Nodup ↔ ¬Clash slugs (o.targets.map (·.name))
  held : ∀ r ∈ rs, (r.fork = none → ∀ f ∈ slugs, ∀ t ∈ o.targets, r.target ≠ f ++ "-" ++ t.name) → Holds fs' r
  replaced : ∀ r ∈ rs, r.fork = none → ∀ f ∈ slugs, ∀ t ∈ o.targets, r.target = f ++ "-" ++ t.name →
    ∃ r' ∈ rs, r'.fork = some f ∧ r'.target = t.name ∧ r'.archive = r.archive ∧ r'.manifest = r.manifest ∧
      r'.licenses = r.licenses ∧ Holds fs' r'

section
variable {slug : String} {slugs targets : List String}

theorem mem_main_iff {t : String} : (none, t) ∈ (none :: slugs.map some) ×ˢ targets ↔ t ∈ targets := by
  rw [List.mem_product]
  simp

theorem mem_fork_iff {f t : String} :
    (some f, t) ∈ (none :: slugs.map some) ×ˢ targets ↔ f ∈ slugs ∧ t ∈ targets := by
  rw [List.mem_product]
  simp

variable (slug) in
/-- The names of archives tell what they are for just where no target clashes. -/
theorem stem_injOn_iff (hslugs : ∀ f ∈ slugs, '-' ∉ f.toList) :
    (∀ k ∈ (none :: slugs.map some) ×ˢ targets, ∀ k' ∈ (none :: slugs.map some) ×ˢ targets,
      stem slug k = stem slug k' → k = k') ↔ ¬Clash slugs targets := by
  constructor
  · rintro hinj ⟨f, hf, t, ht, hclash⟩
    have hsame := hinj _ (mem_main_iff.2 hclash) _ (mem_fork_iff.2 ⟨hf, ht⟩) (stem_main_eq_fork_iff.2 rfl)
    cases hsame
  · rintro hno ⟨fork, t⟩ hk ⟨fork', t'⟩ hk' heq
    have hclash {f t t' : String} (hm : (none, t) ∈ (none :: slugs.map some) ×ˢ targets)
        (hf : (some f, t') ∈ (none :: slugs.map some) ×ˢ targets) : stem slug (none, t) ≠ stem slug (some f, t') := by
      intro heq
      obtain ⟨hf, ht'⟩ := mem_fork_iff.1 hf
      exact hno ⟨f, hf, t', ht', stem_main_eq_fork_iff.1 heq ▸ mem_main_iff.1 hm⟩
    cases fork with
    | none =>
      cases fork' with
      | none => rw [stem_main_injective heq]
      | some f' => exact absurd heq (hclash hk hk')
    | some f =>
      cases fork' with
      | none => exact absurd heq.symm (hclash hk' hk)
      | some f' =>
        obtain ⟨rfl, rfl⟩ := stem_fork_injective (hslugs f (mem_fork_iff.1 hk).1) (hslugs f' (mem_fork_iff.1 hk').1) heq
        rfl

theorem nodup_keys (hslugs : slugs.Nodup) (htargets : targets.Nodup) :
    ((none :: slugs.map some) ×ˢ targets).Nodup := by
  refine List.Nodup.product (List.nodup_cons.2 ⟨by simp, ?_⟩) htargets
  exact hslugs.map fun _ _ => Option.some.inj

variable (slug) in
/-- An archive that shares its name with a later one is that of the bundle, and the later one is that of a fork. -/
theorem pairwise_keys (hslugs : slugs.Nodup) (hfree : ∀ f ∈ slugs, '-' ∉ f.toList) (htargets : targets.Nodup) :
    ((none :: slugs.map some) ×ˢ targets).Pairwise fun k k' =>
      stem slug k = stem slug k' → k.1 = none ∧ k'.1 ≠ none := by
  have hnodup := nodup_keys hslugs htargets
  rw [List.product_cons] at hnodup ⊢
  obtain ⟨hmain, hfork, -⟩ := List.pairwise_append.1 hnodup
  have hmem {k : Key} (hk : k ∈ slugs.map some ×ˢ targets) : ∃ f ∈ slugs, k.1 = some f := by
    obtain ⟨fork, t⟩ := k
    obtain ⟨f, hf, rfl⟩ := List.mem_map.1 (List.mem_product.1 hk).1
    exact ⟨f, hf, rfl⟩
  refine List.pairwise_append.2 ⟨?_, ?_, ?_⟩
  · refine List.pairwise_map.2 (htargets.imp ?_)
    intro t t' hne heq
    exact absurd (stem_main_injective heq) hne
  · refine hfork.imp_of_mem ?_
    rintro ⟨fork, t⟩ ⟨fork', t'⟩ hk hk' hne heq
    obtain ⟨f, hf, rfl⟩ := hmem hk
    obtain ⟨f', hf', rfl⟩ := hmem hk'
    obtain ⟨rfl, rfl⟩ := stem_fork_injective (hfree f hf) (hfree f' hf') heq
    exact absurd rfl hne
  · intro k hk k' hk' _
    obtain ⟨t, -, rfl⟩ := List.mem_map.1 hk
    obtain ⟨f, -, hf⟩ := hmem hk'
    exact ⟨rfl, by simp [hf]⟩

end

namespace Packaged

variable {fs fs' : FileSystem} {o : PackageOptions} {slugs : List String} {rs : List PackageResult}
  {r : PackageResult} (h : Packaged o fs fs' rs)
  (hkeys : rs.map (·.key) = (none :: slugs.map some) ×ˢ o.targets.map (·.name)) (hslugs : slugs.Nodup)
  (hfree : ∀ f ∈ slugs, '-' ∉ f.toList) (htargets : (o.targets.map (·.name)).Nodup)
include hkeys

theorem mem_of_fork {f : String} (hr : r ∈ rs) (hf : r.fork = some f) :
    f ∈ slugs ∧ ∃ t ∈ o.targets, t.name = r.target := by
  have hkey : r.key ∈ rs.map (·.key) := List.mem_map_of_mem hr
  rw [hkeys, PackageResult.key, hf, mem_fork_iff] at hkey
  exact ⟨hkey.1, List.mem_map.1 hkey.2⟩

include h hslugs hfree htargets

theorem nodup_files_iff {e : String} (he : e ∈ endings) :
    (rs.map fun r => file o r.key e).Nodup ↔ ¬Clash slugs (o.targets.map (·.name)) := by
  have hplain : ∀ k ∈ rs.map (·.key), '/' ∉ (stem o.slug k).toList := by
    intro k hk
    obtain ⟨r, hr, rfl⟩ := List.mem_map.1 hk
    exact (h.told r hr).plain
  rw [← stem_injOn_iff o.slug hfree, ← hkeys]
  have hmap : (rs.map fun r => file o r.key e) = (rs.map (·.key)).map fun k => file o k e := by
    rw [List.map_map]
    rfl
  rw [hmap, List.nodup_map_iff_inj_on (hkeys ▸ nodup_keys hslugs htargets)]
  constructor
  · intro hinj k hk k' hk' heq
    exact hinj k hk k' hk' ((file_eq_iff (hplain k hk) (hplain k' hk') he).2 heq)
  · intro hinj k hk k' hk' heq
    exact hinj k hk k' hk' ((file_eq_iff (hplain k hk) (hplain k' hk') he).1 heq)

/-- Only the archive of a fork can replace an earlier one. -/
theorem holds_of_apart (hr : r ∈ rs)
    (hno : r.fork = none → ∀ f ∈ slugs, ∀ t ∈ o.targets, r.target ≠ f ++ "-" ++ t.name) : Holds fs' r := by
  obtain ⟨before, after, rfl⟩ := List.append_of_mem hr
  refine h.held before r after rfl ?_
  intro r' hr' heq
  have hmem : r' ∈ before ++ r :: after := List.mem_append_right before (List.mem_cons_of_mem r hr')
  have htold := h.told r hr
  have htold' := h.told r' hmem
  rw [htold'.archive_eq, htold.archive_eq, file_eq_iff htold'.plain htold.plain (by decide)] at heq
  have hpairs := pairwise_keys o.slug hslugs hfree htargets
  rw [← hkeys, List.map_append, List.map_cons] at hpairs
  have hlater := (List.pairwise_cons.1 (List.pairwise_append.1 hpairs).2.1).1
  obtain ⟨hmain, hfork⟩ := hlater r'.key (List.mem_map_of_mem hr') heq.symm
  obtain ⟨f, hf⟩ := Option.ne_none_iff_exists'.1 hfork
  obtain ⟨hslug, t, ht, hname⟩ := mem_of_fork hkeys hmem hf
  apply hno hmain f hslug t ht
  have hkey : r.key = (none, r.target) := Prod.ext hmain rfl
  have hkey' : r'.key = (some f, t.name) := Prod.ext hf hname.symm
  rw [hkey, hkey'] at heq
  exact stem_main_eq_fork_iff.1 heq.symm

theorem replaced_of_clash (hr : r ∈ rs) (hmain : r.fork = none) {f : String} (hf : f ∈ slugs) {t : PublishTarget}
    (ht : t ∈ o.targets) (hclash : r.target = f ++ "-" ++ t.name) :
    ∃ r' ∈ rs, r'.fork = some f ∧ r'.target = t.name ∧ r'.archive = r.archive ∧ r'.manifest = r.manifest ∧
      r'.licenses = r.licenses ∧ Holds fs' r' := by
  have hfork : (some f, t.name) ∈ rs.map (·.key) := by
    rw [hkeys]
    exact mem_fork_iff.2 ⟨hf, List.mem_map_of_mem ht⟩
  obtain ⟨r', hr', hkey'⟩ := List.mem_map.1 hfork
  obtain ⟨hslug, htarget⟩ := Prod.mk.inj hkey'
  have hkey : r.key = (none, r.target) := Prod.ext hmain rfl
  have hstem : stem o.slug r'.key = stem o.slug r.key := by
    rw [hkey, hkey']
    exact (stem_main_eq_fork_iff.2 hclash).symm
  have hfile (e : String) : file o r'.key e = file o r.key e := by rw [file, file, hstem]
  have htold := h.told r hr
  have htold' := h.told r' hr'
  refine ⟨r', hr', hslug, htarget, ?_, ?_, ?_, ?_⟩
  · rw [htold.archive_eq, htold'.archive_eq, hfile]
  · rw [htold.manifest_eq, htold'.manifest_eq, hfile]
  · rw [htold.licenses_eq, htold'.licenses_eq, hfile]
  · apply h.holds_of_apart hkeys hslugs hfree htargets hr'
    intro hnone
    rw [hslug] at hnone
    cases hnone

/-- A run over slugs and targets that occur once leaves their archives, as far as their names allow. -/
theorem shipped : Shipped o slugs rs fs' := by
  have harchives : rs.map (·.archive) = rs.map fun r => file o r.key ".zip" :=
    List.map_congr_left fun r hr => (h.told r hr).archive_eq
  have hmanifests : rs.map (·.manifest) = rs.map fun r => file o r.key ".publish_manifest.json" :=
    List.map_congr_left fun r hr => (h.told r hr).manifest_eq
  have hlicenses : rs.map (·.licenses) = rs.map fun r => file o r.key ".license_manifest.json" :=
    List.map_congr_left fun r hr => (h.told r hr).licenses_eq
  constructor
  · exact hkeys
  · rw [harchives]
    exact h.nodup_files_iff hkeys hslugs hfree htargets (by decide)
  · rw [hmanifests]
    exact h.nodup_files_iff hkeys hslugs hfree htargets (by decide)
  · rw [hlicenses]
    exact h.nodup_files_iff hkeys hslugs hfree htargets (by decide)
  · intro r hr hno
    exact h.holds_of_apart hkeys hslugs hfree htargets hr hno
  · intro r hr hmain f hf t ht hclash
    exact h.replaced_of_clash hkeys hslugs hfree htargets hr hmain hf ht hclash

end Packaged

end Package

/-! ## Runs -/

/-- What settings and a command line come to as far as the names of archives go. -/
theorem PublishInvocation.options_eq_ok {i : PublishInvocation} {s : Settings} {root : Path} {o : PackageOptions}
    (h : i.options s root = .ok o) :
    o.slug = s.slug ∧ o.dryRun = i.dryRun ∧ o.targets.Sublist s.publishing.targets := by
  unfold options at h
  dsimp only at h
  split at h
  · cases h
  · obtain rfl := Except.ok.inj h
    dsimp only
    exact ⟨rfl, rfl, List.filter_sublist⟩

namespace Package

variable {fs fs' : FileSystem} {i : PublishInvocation} {s : Settings} {root : Path} {o : PackageOptions}
  {rs : List PackageResult}

/-- A run over usable settings ships the bundle and the forks that an export told: each archive is there with its
checksum and size, except that a target whose name is that of a fork and a target loses its archive. -/
theorem shipped_of_run (hs : s.problem? = none) (ho : i.options s root = .ok o) (hreal : i.dryRun = false)
    (hforks : Planned (forkSlugs fs o)) (h : run fs o = (.ok rs, fs')) :
    Shipped o (forkSlugs fs o) rs fs' := by
  obtain ⟨hslug, hdry, hsub⟩ := PublishInvocation.options_eq_ok ho
  obtain ⟨hnodup, hnames⟩ := Settings.targets_of_usable hs
  have htargets : (o.targets.map (·.name)).Nodup := hnodup.sublist (hsub.map _)
  have hfree (c : Char) (hc : c ≠ '_') (ha : c.isAlphanum = false) : ∀ f ∈ forkSlugs fs o, c ∉ f.toList := by
    intro f hf hmem
    exact (hforks.nameChar hf c hmem).ne hc ha rfl
  have hslash : '/' ∉ o.slug.toList := hslug ▸ s.no_slash_slug
  have hplain : ∀ k ∈ keys fs o, '/' ∉ (stem o.slug k).toList := by
    rintro ⟨fork, name⟩ hk
    have hname : '/' ∉ name.toList := by
      obtain ⟨t, ht, rfl⟩ := List.mem_map.1 (List.mem_product.1 hk).2
      exact hnames t (hsub.mem ht)
    cases fork with
    | none => simp [toList_stem_main, hslash, hname]
    | some f =>
      have hf := hfree '/' (by decide) (by decide) f (mem_fork_iff.1 hk).1
      simp [toList_stem_fork, hslash, hf, hname]
  obtain ⟨hkeys, hpackaged⟩ := packaged_of_run (hdry.trans hreal) hplain h
  exact hpackaged.shipped hkeys hforks.nodup (hfree '-' (by decide) (by decide)) htargets

/-- A bundle with a fork for `b`. -/
def clashFiles : FileSystem where
  nodes := .ofList [(["out"], .directory), (["out", "game"], .directory), (["out", "forks"], .directory),
    (["out", "forks", "b"], .directory), (["out", "forks", "b", "game"], .directory),
    (["out", "export_manifest.json"], .file (String.toUTF8
      "\x7b\"pov\":\x7b\"forks\":[\x7b\"pov_id\":\"b\",\"slug\":\"b\",\"path\":\"forks/b\",\"script\":\"\",\"manifest\":\"\"\x7d]\x7d\x7d"))]

/-- One target is called like the fork and the other target. -/
def clashSettings : Settings :=
  { project := { id := "p" }, publishing := { targets := [⟨"w", ["win"]⟩, ⟨"b-w", ["win"]⟩] } }

def clashOptions : PackageOptions :=
  { slug := "p", title := "p", exportRoot := ⟨"out"⟩, dist := ⟨"d"⟩,
    targets := [⟨"w", ["win"]⟩, ⟨"b-w", ["win"]⟩] }

theorem forkSlugs_clashFiles : forkSlugs clashFiles clashOptions = ["b"] := by decide +kernel

set_option maxRecDepth 100000 in
/-- The archive of the bundle for `b-w` is replaced by that of the fork for `w`. -/
theorem archive_replaced_of_clash :
    clashSettings.problem? = none ∧
      ({ dist := some ⟨"d"⟩ } : PublishInvocation).options clashSettings ⟨"out"⟩ = .ok clashOptions ∧
      Planned (forkSlugs clashFiles clashOptions) ∧
      ∃ rs fs', run clashFiles clashOptions = (.ok rs, fs') ∧ ¬(rs.map (·.archive)).Nodup ∧
        ∃ r ∈ rs, r.fork = none ∧ r.target = "b-w" ∧
          ∃ r' ∈ rs, r'.fork = some "b" ∧ r'.target = "w" ∧ r'.archive = r.archive ∧ Holds fs' r' := by
  have hproblem : clashSettings.problem? = none := by decide +kernel
  have hoptions : ({ dist := some ⟨"d"⟩ } : PublishInvocation).options clashSettings ⟨"out"⟩ = .ok clashOptions := rfl
  have hplanned : Planned (forkSlugs clashFiles clashOptions) := by
    rw [forkSlugs_clashFiles]
    refine ⟨by decide, ?_⟩
    intro f hf
    exact ⟨[], "b", by rw [List.mem_singleton.1 hf]; decide⟩
  have hrun : (match run clashFiles clashOptions with
      | (.ok _, _) => true
      | (.error _, _) => false) = true := by
    decide +kernel
  refine ⟨hproblem, hoptions, hplanned, ?_⟩
  split at hrun
  · next rs fs' hr =>
    have hshipped := shipped_of_run hproblem hoptions rfl hplanned hr
    rw [forkSlugs_clashFiles] at hshipped
    have hclash : Clash ["b"] (clashOptions.targets.map (·.name)) := by decide
    refine ⟨rs, fs', hr, fun hnodup => hshipped.archives_nodup_iff.1 hnodup hclash, ?_⟩
    have hmain : (none, "b-w") ∈ rs.map fun r => (r.fork, r.target) := by
      rw [hshipped.keys_eq]
      exact mem_main_iff.2 (by decide)
    obtain ⟨r, hr, hkey⟩ := List.mem_map.1 hmain
    obtain ⟨hfork, htarget⟩ := Prod.mk.inj hkey
    obtain ⟨r', hr', hfork', htarget', harchive, -, -, hholds⟩ :=
      hshipped.replaced r hr hfork "b" (by decide) ⟨"w", ["win"]⟩ (by decide) (by rw [htarget]; decide)
    exact ⟨r, hr, hfork, htarget, r', hr', hfork', htarget', harchive, hholds⟩
  · cases hrun

end Package

end StoryPress
