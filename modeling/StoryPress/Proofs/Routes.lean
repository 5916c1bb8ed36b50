import StoryPress.Proofs.Compiled

/-!
# Routes and settled exports

* `RoutePlan.MadeOf`: what a route is made of;
* `distinct_routesOf`: routes have slugs and entries of their own, and no scene has the label of an entry;
* `run_eq_ok_iff`: what an export has come past when it starts to write, and what it has settled then.
-/

namespace StoryPress

namespace RoutePlan

/-- The names that routes are given are their own: no slug and no label that was taken before. -/
structure Distinct (slugs : List String) (book : LabelBook) (routes : List Route) : Prop where
  slugs_nodup : (routes.map (·.slug)).Nodup
  entries_nodup : (routes.map (·.entry)).Nodup
  slug_free : ∀ r ∈ routes, r.slug ∉ slugs
  entry_free : ∀ r ∈ routes, r.entry ∉ book.used
  slug_named : ∀ r ∈ routes, r.slug ≠ "" ∧ ∀ c ∈ r.slug.toList, Naming.NameChar c

theorem slugFor_named (taken : List String) (id : String) :
    slugFor taken id ≠ "" ∧ ∀ c ∈ (slugFor taken id).toList, Naming.NameChar c := by
  have hbase : ∃ base, base ≠ "" ∧ (∀ c ∈ base.toList, Naming.NameChar c) ∧
      slugFor taken id = Naming.fresh taken base := by
    by_cases h : Naming.slug id = ""
    · exact ⟨"pov", by decide, Naming.nameChar_of_all (by decide), by simp [slugFor, h]⟩
    · exact ⟨Naming.slug id, h, fun c => Naming.nameChar_of_mem_slug, by simp [slugFor, h]⟩
  obtain ⟨base, hne, hchars, heq⟩ := hbase
  rw [heq]
  refine ⟨?_, fun c => Naming.nameChar_of_mem_fresh hchars⟩
  obtain ⟨n, hn, -⟩ := Naming.fresh_eq_candidate taken base
  rw [hn]
  cases n with
  | zero => exact hne
  | succ n =>
    intro he
    have := Naming.candidate_succ base n
    rw [he] at this
    simp at this

/-- A route plays what carries its viewpoint, in order; its slug is made of that, and its entry of its slug. -/
structure MadeOf (sequence : List PlacedScene) (r : Route) : Prop where
  labels_eq : r.labels = (sequence.filter (·.carries r.viewpoint)).map (·.label)
  sceneIds_eq : r.sceneIds = (sequence.filter (·.carries r.viewpoint)).map (·.sceneId)
  slug_eq : ∃ taken, r.slug = slugFor taken r.viewpoint
  entry_eq : ∃ book : LabelBook, r.entry = (book.allocate ("pov_" ++ r.slug) "pov_").1

theorem madeOf_of_mem {sequence : List PlacedScene} {vs : List Viewpoint} {slugs : List String} {book : LabelBook} :
    ∀ r ∈ (routesOf sequence vs slugs book).1, MadeOf sequence r := by
  induction vs generalizing slugs book with
  | nil => simp [routesOf]
  | cons v vs ih =>
    simp only [routesOf]
    split
    · exact ih
    · intro r hr
      rcases List.mem_cons.1 hr with rfl | hr
      · exact ⟨rfl, rfl, ⟨slugs, rfl⟩, ⟨book, rfl⟩⟩
      · exact ih r hr

theorem distinct_routesOf (sequence : List PlacedScene) (vs : List Viewpoint) (slugs : List String)
    (book : LabelBook) : Distinct slugs book (routesOf sequence vs slugs book).1 := by
  induction vs generalizing slugs book with
  | nil => constructor <;> simp [routesOf]
  | cons v vs ih =>
    simp only [routesOf]
    split
    · exact ih slugs book
    · next members _ =>
      have hslug : slugFor slugs v.id ∉ slugs := Naming.fresh_not_mem _ _
      have hentry := LabelBook.allocate_not_mem book ("pov_" ++ slugFor slugs v.id) "pov_"
      have hused := LabelBook.used_allocate book ("pov_" ++ slugFor slugs v.id) "pov_"
      have rest := ih (slugFor slugs v.id :: slugs) (book.allocate ("pov_" ++ slugFor slugs v.id) "pov_").2
      constructor
      · refine List.nodup_cons.2 ⟨?_, rest.slugs_nodup⟩
        intro hmem
        obtain ⟨r, hr, heq⟩ := List.mem_map.1 hmem
        exact rest.slug_free r hr (heq ▸ List.mem_cons_self)
      · refine List.nodup_cons.2 ⟨?_, rest.entries_nodup⟩
        intro hmem
        obtain ⟨r, hr, heq⟩ := List.mem_map.1 hmem
        apply rest.entry_free r hr
        rw [hused]
        exact heq ▸ List.mem_cons_self
      · intro r hr
        rcases List.mem_cons.1 hr with rfl | hr
        · exact hslug
        · exact fun hmem => rest.slug_free r hr (List.mem_cons_of_mem _ hmem)
      · intro r hr
        rcases List.mem_cons.1 hr with rfl | hr
        · exact hentry
        · intro hmem
          apply rest.entry_free r hr
          rw [hused]
          exact List.mem_cons_of_mem _ hmem
      · intro r hr
        rcases List.mem_cons.1 hr with rfl | hr
        · exact slugFor_named slugs v.id
        · exact rest.slug_named r hr

end RoutePlan

namespace Preparation

/-- What an export has settled when it starts to write. -/
structure Settled (fs : FileSystem) (options : ExportOptions) (p : Preparation) : Prop where
  compiled_eq : Compilation.ofScenes fs (AssetIndex.build fs options.assets) p.docs.scenes = .ok p.compiled
  plan_eq : p.plan = RoutePlan.ofSequence (p.compiled.placed p.docs) p.compiled.book options.routeMode
    options.switchMenu p.docs.world
  master_eq : p.master = (masterPlan options p.compiled (p.compiled.placed p.docs) p.plan).render
    p.compiled.catalog p.compiled.labels
  forks_eq : p.forks = if p.plan.forks then p.plan.routes.map (fork options p.compiled) else []

/-- What an export has come past, step by step, when it starts to write. -/
structure Prepared (fs : FileSystem) (store : Store) (options : ExportOptions) (reviewers : Reviewers BundleView)
    (p : Preparation) : Prop extends Settled fs options p where
  loaded : Collected.load fs store options = .ok p.docs
  gate_eq : p.gate = reviewers.gate options.action
  allowed : (reviewers.gate options.action).allow = true
  rating_eq : p.rating = reviewers.rating (p.compiled.ratingRequest options p.docs.project)
  rated : (reviewers.rating (p.compiled.ratingRequest options p.docs.project)).allowed = true
  usable : checkOutput fs options = .ok ()
  inputs_eq : p.docs.stampInputs fs = .ok p.inputs

theorem compile_eq_ok_iff {fs : FileSystem} {options : ExportOptions} {gate : GateDecision} {docs : Collected}
    {c : Compilation} : compile fs options gate docs = .ok c ↔
      gate.allow = true ∧ Compilation.ofScenes fs (AssetIndex.build fs options.assets) docs.scenes = .ok c := by
  unfold compile
  cases hallow : gate.allow <;> simp

/-- An export is settled exactly if no step refuses. -/
theorem run_eq_ok_iff {fs : FileSystem} {store : Store} {options : ExportOptions}
    {reviewers : Reviewers BundleView} {p : Preparation} :
    run fs store options reviewers = .ok p ↔ Prepared fs store options reviewers p := by
  constructor
  · intro h
    obtain ⟨docs, hdocs, h⟩ := bind_eq_ok.1 h
    obtain ⟨compiled, hcompiled, h⟩ := bind_eq_ok.1 h
    obtain ⟨hallow, hcompiled⟩ := compile_eq_ok_iff.1 hcompiled
    dsimp only at h
    split at h
    · -- the rating refuses
      obtain ⟨_, he, -⟩ := bind_eq_ok.1 h
      cases he
    next hrated =>
    obtain ⟨⟨⟩, husable, h⟩ := bind_eq_ok.1 h
    obtain ⟨inputs, hinputs, h⟩ := bind_eq_ok.1 h
    obtain rfl := pure_eq_ok.1 h
    exact ⟨⟨hcompiled, rfl, rfl, rfl⟩, hdocs, rfl, hallow, rfl, by simpa using hrated, husable, hinputs⟩
  · intro h
    have hcompiled := compile_eq_ok_iff.2 ⟨h.allowed, h.compiled_eq⟩
    refine bind_eq_ok.2 ⟨p.docs, h.loaded, bind_eq_ok.2 ⟨p.compiled, hcompiled, ?_⟩⟩
    dsimp only
    rw [if_neg (by simp [h.rated]), ← h.gate_eq, ← h.rating_eq, ← h.plan_eq, ← h.master_eq, ← h.forks_eq]
    exact bind_eq_ok.2 ⟨(), h.usable, bind_eq_ok.2 ⟨p.inputs, h.inputs_eq, rfl⟩⟩

theorem settled_of_run {fs : FileSystem} {store : Store} {options : ExportOptions}
    {reviewers : Reviewers BundleView} {p : Preparation} (h : run fs store options reviewers = .ok p) :
    Settled fs options p :=
  (run_eq_ok_iff.1 h).toSettled

variable {fs : FileSystem} {options : ExportOptions} {p : Preparation}

/-- What is settled does not depend on the mode. -/
theorem Settled.of_mode {dryRun force : Bool}
    (h : Settled fs { options with dryRun := dryRun, force := force } p) : Settled fs options p :=
  ⟨h.compiled_eq, h.plan_eq, h.master_eq, h.forks_eq⟩

theorem Settled.labelled (h : Settled fs options p) : p.compiled.Labelled :=
  Compilation.labelled_ofScenes h.compiled_eq

theorem Settled.distinct (h : Settled fs options p) : RoutePlan.Distinct [] p.compiled.book p.plan.routes := by
  rw [h.plan_eq]
  exact RoutePlan.distinct_routesOf _ _ _ _

theorem Settled.mem_forks {f : Route × List CompiledScene × RenderedScript} (h : Settled fs options p)
    (hf : f ∈ p.forks) : p.plan.forks = true ∧ ∃ route ∈ p.plan.routes, f = fork options p.compiled route := by
  rw [h.forks_eq] at hf
  split at hf
  · next hforks =>
    obtain ⟨route, hr, heq⟩ := List.mem_map.1 hf
    exact ⟨hforks, route, hr, heq.symm⟩
  · cases hf

end Preparation

end StoryPress
