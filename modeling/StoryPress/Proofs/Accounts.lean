import StoryPress.Proofs.Registrations

/-!
# Accounts of references

After a sequence of calls each reference is either resolved or missing, what the calls returned is still looked up,
and the warnings say what is missing or replaced.

* `accounted_of_ledger`: what the catalog, the tokens and the warnings of a sequence of calls are;
* `Compilation.ledger_of_ofScenes`: compiling scenes makes the calls of their nodes;
* `references_accounted`: both together.
-/

namespace StoryPress

/-! ## Calls -/

/-- The reference that a warning says is missing. -/
def ExportWarning.unresolved? : ExportWarning → Option (AssetKind × String)
  | unresolvedAsset kind _ reference => some (kind, reference)
  | _ => none

/-- The reference of which a warning says that its expression is replaced. -/
def ExportWarning.replaced? : ExportWarning → Option String
  | portraitFallback reference _ _ => some reference
  | _ => none

/-- What the catalog, the tokens and the warnings of a sequence of calls are. -/
structure Accounted (calls : List Call) (l : Ledger) : Prop where
  /-- A reference that was called for is resolved or missing. -/
  resolved_or_missing : ∀ a ∈ calls, (∃ u ∈ l.catalog.used a.kind, u.logical = Text.trim a.reference) ∨
    Text.trim a.reference ∈ l.catalog.missing a.kind
  not_both : ∀ kind, ∀ u ∈ l.catalog.used kind, u.logical ∉ l.catalog.missing kind
  resolved_once : ∀ kind, ∀ u ∈ l.catalog.used kind, ∀ v ∈ l.catalog.used kind, u.logical = v.logical → u = v
  called : ∀ kind logical, (∃ u ∈ l.catalog.used kind, u.logical = logical) ∨ logical ∈ l.catalog.missing kind →
    ∃ a ∈ calls, a.key = (kind, logical)
  lookup_used : ∀ kind reference, ∀ u ∈ l.catalog.used kind, u.logical = Text.trim reference →
    l.catalog.lookup kind reference = .alias_ u.alias_
  lookup_missing : ∀ kind reference, Text.trim reference ∈ l.catalog.missing kind →
    l.catalog.lookup kind reference = .raw (Text.trim reference)
  /-- What the first calls returned is looked up after them, and after all calls. -/
  kept : ∀ before after, calls = before ++ after → ∃ m, ledger before = .ok m ∧
    m.tokens = before.map (fun a => m.catalog.lookup a.kind a.reference) ∧
    m.tokens = before.map (fun a => l.catalog.lookup a.kind a.reference)
  alias_eq_iff : ∀ u ∈ l.catalog.usages, ∀ v ∈ l.catalog.usages,
    u.alias_ = v.alias_ ↔ u.kind = v.kind ∧ u.relative = v.relative
  byAlias : ∀ u ∈ l.catalog.usages, ∃ v ∈ l.catalog.usages, l.catalog.byAlias? u.alias_ = some v ∧
    v.kind = u.kind ∧ v.relative = u.relative
  /-- A missing reference is warned about once, for the first scene that named it. -/
  unresolved : ∀ kind, ∀ logical ∈ l.catalog.missing kind, ∃ a,
    calls.find? (·.key = (kind, logical)) = some a ∧
      l.warnings.filter (·.unresolved? = some (kind, logical)) = [.unresolvedAsset kind a.scene logical]
  /-- So is a portrait that is found by the neutral expression. -/
  replaced : ∀ u ∈ l.catalog.usages, u.step = .neutralFallback → ∃ f, u.fallback = some f ∧
    l.warnings.filter (·.replaced? = some u.logical) = [.portraitFallback u.logical f.requested f.substituted]
  /-- There are no other warnings. -/
  warned : ∀ w ∈ l.warnings,
    (∃ kind, ∃ logical ∈ l.catalog.missing kind, w.unresolved? = some (kind, logical)) ∨
      ∃ u ∈ l.catalog.usages, u.step = .neutralFallback ∧ w.replaced? = some u.logical

namespace Ledger.Entered

variable {calls : List Call} {l : Ledger}

theorem alias_eq_iff (h : Entered calls l) {u v : AssetUsage} (hu : u ∈ l.catalog.usages)
    (hv : v ∈ l.catalog.usages) : u.alias_ = v.alias_ ↔ u.kind = v.kind ∧ u.relative = v.relative := by
  obtain ⟨r, hr, hru⟩ := h.coherent.mem_usages_iff.1 hu
  obtain ⟨t, ht, htv⟩ := h.coherent.mem_usages_iff.1 hv
  have hue := (h.coherent.usage r hr u hru).2.2
  have hve := (h.coherent.usage t ht v htv).2.2
  constructor
  · intro ha
    have := List.inj_on_of_nodup_map h.coherent.aliases_nodup hue hve ha
    exact ⟨congrArg AliasEntry.kind this, congrArg AliasEntry.relative this⟩
  · rintro ⟨hkind, hrelative⟩
    have := List.inj_on_of_nodup_map h.coherent.files_nodup hue hve (Prod.ext hkind hrelative)
    exact congrArg AliasEntry.alias_ this

/-- A reference that was called for has a registration, with a picture or without. -/
theorem resolved_or_missing (h : Entered calls l) {a : Call} (ha : a ∈ calls) :
    (∃ u ∈ l.catalog.used a.kind, u.logical = Text.trim a.reference) ∨
      Text.trim a.reference ∈ l.catalog.missing a.kind := by
  obtain ⟨r, hr, hkey⟩ := List.mem_map.1 ((h.mem_keys_iff a.key).2 (List.mem_map_of_mem ha))
  cases hru : r.usage with
  | none => exact .inr (AssetCatalog.mem_missing_iff.2 ⟨r, hr, hkey, hru⟩)
  | some u =>
    have hlogical : u.logical = Text.trim a.reference :=
      (h.coherent.usage r hr u hru).2.1.trans (Prod.mk.inj hkey).2
    exact .inl ⟨u, h.coherent.mem_used_iff.2 ⟨r, hr, hlogical ▸ hkey, hru⟩, hlogical⟩

/-- What is listed was called for. -/
theorem exists_call (h : Entered calls l) {kind : AssetKind} {logical : String}
    (hlisted : (∃ u ∈ l.catalog.used kind, u.logical = logical) ∨ logical ∈ l.catalog.missing kind) :
    ∃ a ∈ calls, a.key = (kind, logical) := by
  have hkey : (kind, logical) ∈ l.catalog.registrations.map (·.key) := by
    cases hlisted with
    | inl hu =>
      obtain ⟨u, hu, rfl⟩ := hu
      obtain ⟨r, hr, hrkey, -⟩ := h.coherent.mem_used_iff.1 hu
      exact hrkey ▸ List.mem_map_of_mem hr
    | inr hm =>
      obtain ⟨r, hr, hrkey, -⟩ := AssetCatalog.mem_missing_iff.1 hm
      exact hrkey ▸ List.mem_map_of_mem hr
  exact List.mem_map.1 ((h.mem_keys_iff _).1 hkey)

/-- Later calls leave the tokens of the first ones. -/
theorem tokens_of_append {before after : List Call} (h : Entered (before ++ after) l)
    (hl : ledger (before ++ after) = .ok l) : ∃ m, ledger before = .ok m ∧
      m.tokens = before.map (fun a => m.catalog.lookup a.kind a.reference) ∧
      m.tokens = before.map (fun a => l.catalog.lookup a.kind a.reference) := by
  unfold ledger at hl
  rw [List.foldlM_append, bind_eq_ok] at hl
  obtain ⟨m, hm, hl⟩ := hl
  have hentered : Entered before m := by simpa using (entered_nil.foldlM hm).1
  have hextended := (hentered.foldlM hl).2
  refine ⟨m, hm, hentered.tokens_eq, ?_⟩
  rw [hentered.tokens_eq]
  apply List.map_congr_left
  intro a ha
  exact (lookup_eq_of_extended hentered.coherent h.coherent hextended
    ((hentered.mem_keys_iff a.key).2 (List.mem_map_of_mem ha))).symm

/-- The warnings of one kind about a reference are those of its registration. -/
theorem filter_warnings (h : Entered calls l) {r : Registration} (hr : r ∈ l.catalog.registrations)
    {p : ExportWarning → Bool}
    (hp : ∀ t ∈ l.catalog.registrations, t.key ≠ r.key → ∀ scene, (t.warnings scene).filter p = []) :
    ∃ a, calls.find? (·.key = r.key) = some a ∧ l.warnings.filter p = (r.warnings a.scene).filter p := by
  obtain ⟨b, hb, hkey⟩ := List.mem_map.1 ((h.mem_keys_iff r.key).1 (List.mem_map_of_mem hr))
  have hsome : (calls.find? (·.key = r.key)).isSome = true := by
    rw [List.find?_isSome]
    exact ⟨b, hb, by simpa using hkey⟩
  obtain ⟨a, ha⟩ := Option.isSome_iff_exists.1 hsome
  refine ⟨a, ha, ?_⟩
  rw [h.warnings_eq, List.filter_flatMap, flatMap_eq_of_nodup h.coherent.keys_nodup hr]
  · rw [ha, Option.toList_some, List.flatMap_cons, List.flatMap_nil, List.append_nil]
  · intro t ht hne
    rw [List.filter_flatMap, List.flatMap_eq_nil_iff]
    intro a _
    exact hp t ht hne a.scene

theorem unresolved (h : Entered calls l) {kind : AssetKind} {logical : String}
    (hm : logical ∈ l.catalog.missing kind) :
    ∃ a, calls.find? (·.key = (kind, logical)) = some a ∧
      l.warnings.filter (·.unresolved? = some (kind, logical)) = [.unresolvedAsset kind a.scene logical] := by
  obtain ⟨r, hr, hkey, hnone⟩ := AssetCatalog.mem_missing_iff.1 hm
  obtain ⟨a, ha, hfilter⟩ := h.filter_warnings hr (p := fun w => w.unresolved? = some (kind, logical)) (by
    intro t _ hne scene
    rw [hkey] at hne
    cases hu : t.usage with
    | none => simpa [Registration.warnings, hu, ExportWarning.unresolved?, Registration.key] using hne
    | some u =>
      simp only [Registration.warnings, hu, List.filter_eq_nil_iff, List.mem_map]
      rintro w ⟨f, -, rfl⟩
      simp [ExportWarning.unresolved?])
  rw [hkey] at ha
  refine ⟨a, ha, ?_⟩
  obtain ⟨rfl, rfl⟩ := Prod.mk.inj hkey
  rw [hfilter]
  simp [Registration.warnings, hnone, ExportWarning.unresolved?]

theorem replaced (h : Entered calls l) {u : AssetUsage} (hu : u ∈ l.catalog.usages)
    (hstep : u.step = .neutralFallback) :
    ∃ f, u.fallback = some f ∧
      l.warnings.filter (·.replaced? = some u.logical) = [.portraitFallback u.logical f.requested f.substituted] := by
  obtain ⟨r, hr, hru⟩ := h.coherent.mem_usages_iff.1 hu
  obtain ⟨-, hlogical, -⟩ := h.coherent.usage r hr u hru
  obtain ⟨hiff, hportrait⟩ := h.coherent.fallback r hr u hru
  obtain ⟨f, hf⟩ := Option.isSome_iff_exists.1 (hiff.1 hstep)
  obtain ⟨a, -, hfilter⟩ := h.filter_warnings hr (p := fun w => w.replaced? = some u.logical) (by
    intro t ht hne scene
    cases htv : t.usage with
    | none => simp [Registration.warnings, htv, ExportWarning.replaced?]
    | some v =>
      simp only [Registration.warnings, htv, List.filter_eq_nil_iff, List.mem_map, Option.mem_toList]
      rintro w ⟨g, hg, rfl⟩
      -- another reference of the same name is that of a background
      have htportrait := (h.coherent.fallback t ht v htv).2 (by simp [hg])
      have hrportrait := hportrait (by simp [hf])
      simp only [ExportWarning.replaced?, decide_eq_true_eq, Option.some.injEq]
      intro heq
      exact hne (Prod.ext (htportrait.trans hrportrait.symm) (heq.trans hlogical)))
  refine ⟨f, hf, ?_⟩
  rw [hfilter]
  simp [Registration.warnings, hru, hf, ExportWarning.replaced?, hlogical]

theorem warned (h : Entered calls l) {w : ExportWarning} (hw : w ∈ l.warnings) :
    (∃ kind, ∃ logical ∈ l.catalog.missing kind, w.unresolved? = some (kind, logical)) ∨
      ∃ u ∈ l.catalog.usages, u.step = .neutralFallback ∧ w.replaced? = some u.logical := by
  rw [h.warnings_eq] at hw
  obtain ⟨r, hr, hw⟩ := List.mem_flatMap.1 hw
  obtain ⟨a, -, hw⟩ := List.mem_flatMap.1 hw
  cases hu : r.usage with
  | none =>
    simp only [Registration.warnings, hu, List.mem_singleton] at hw
    subst hw
    exact .inl ⟨r.kind, r.logical, AssetCatalog.mem_missing_iff.2 ⟨r, hr, rfl, hu⟩, rfl⟩
  | some u =>
    simp only [Registration.warnings, hu, List.mem_map, Option.mem_toList] at hw
    obtain ⟨f, hf, rfl⟩ := hw
    obtain ⟨-, hlogical, -⟩ := h.coherent.usage r hr u hu
    have hstep := (h.coherent.fallback r hr u hu).1.2 (by simp [hf])
    exact .inr ⟨u, h.coherent.mem_usages_iff.2 ⟨r, hr, hu⟩, hstep, by simp [ExportWarning.replaced?, hlogical]⟩

end Ledger.Entered

open Ledger (Entered) in
/-- The calls of a ledger are accounted for. -/
theorem accounted_of_ledger {calls : List Call} {l : Ledger} (hl : ledger calls = .ok l) : Accounted calls l := by
  have h : Entered calls l := by simpa using (Ledger.entered_nil.foldlM hl).1
  constructor
  · exact fun a ha => h.resolved_or_missing ha
  · intro kind u hu hm
    obtain ⟨r, hr, hrkey, hru⟩ := h.coherent.mem_used_iff.1 hu
    obtain ⟨t, ht, htkey, htnone⟩ := AssetCatalog.mem_missing_iff.1 hm
    rw [h.coherent.eq_of_key hr ht (hrkey.trans htkey.symm), htnone] at hru
    cases hru
  · intro kind u hu v hv hlogical
    obtain ⟨r, hr, hrkey, hru⟩ := h.coherent.mem_used_iff.1 hu
    obtain ⟨t, ht, htkey, htv⟩ := h.coherent.mem_used_iff.1 hv
    rw [h.coherent.eq_of_key hr ht (hrkey.trans (hlogical ▸ htkey.symm)), htv] at hru
    exact (Option.some.inj hru).symm
  · exact fun kind logical hboth => h.exists_call hboth
  · intro kind reference u hu hlogical
    obtain ⟨r, hr, hrkey, hru⟩ := h.coherent.mem_used_iff.1 hu
    rw [h.coherent.lookup_eq hr (hlogical ▸ hrkey)]
    simp only [AssetCatalog.Registration.token, hru]
  · intro kind reference hm
    obtain ⟨r, hr, hkey, hnone⟩ := AssetCatalog.mem_missing_iff.1 hm
    rw [h.coherent.lookup_eq hr hkey]
    simp only [AssetCatalog.Registration.token, hnone, (Prod.mk.inj hkey).2]
  · rintro before after rfl
    exact h.tokens_of_append hl
  · exact fun u hu v hv => h.alias_eq_iff hu hv
  · intro u hu
    obtain ⟨v, hv⟩ := AssetCatalog.exists_byAlias? hu
    obtain ⟨hmem, halias⟩ := AssetCatalog.byAlias?_eq_some hv
    exact ⟨v, hmem, hv, (h.alias_eq_iff hmem hu).1 halias⟩
  · exact fun kind logical hm => h.unresolved hm
  · exact fun u hu hstep => h.replaced hu hstep
  · exact fun w hw => h.warned hw

/-! ## Compiled scenes -/

/-- The call that a node of a scene makes. -/
def SceneNode.call? (fs : FileSystem) (index : AssetIndex) (scene : String) (node : SceneNode) : Option Call :=
  node.picture?.map fun (kind, reference) => ⟨fs, index, kind, reference, scene⟩

namespace Compilation

variable {fs : FileSystem} {index : AssetIndex}

/-- The calls of scenes, in order. -/
def calls (fs : FileSystem) (index : AssetIndex) (scenes : List Scene) : List Call :=
  scenes.flatMap fun s => (SceneNode.ofScene s).flatMap fun node => (node.call? fs index s.id).toList

theorem enter_of_registerNode {scene : String} {c c' : Compilation} {node : SceneNode}
    (h : registerNode fs index scene c node = .ok c') {l : Ledger} (hl : l.catalog = c.catalog) :
    c'.scenes = c.scenes ∧ ∃ l', (node.call? fs index scene).toList.foldlM Ledger.enter l = .ok l' ∧
      l'.catalog = c'.catalog := by
  obtain ⟨hnone, rfl⟩ | ⟨kind, reference, token, warnings, hpicture, hok, rfl⟩ := registerNode_eq_ok h
  · exact ⟨rfl, l, by simp [SceneNode.call?, hnone, pure_eq_ok], hl⟩
  · refine ⟨rfl, ⟨(c.catalog.register fs index kind reference scene).1, l.tokens ++ [token],
      l.warnings ++ warnings⟩, ?_, rfl⟩
    rw [SceneNode.call?, hpicture, Option.map_some, Option.toList_some, List.foldlM_cons]
    refine bind_eq_ok.2 ⟨_, ?_, rfl⟩
    unfold Ledger.enter
    dsimp only
    rw [hl]
    exact bind_eq_ok.2 ⟨(token, warnings), hok, rfl⟩

theorem enter_of_registerNodes {scene : String} {nodes : List SceneNode} {c c' : Compilation}
    (h : nodes.foldlM (registerNode fs index scene) c = .ok c') {l : Ledger} (hl : l.catalog = c.catalog) :
    c'.scenes = c.scenes ∧ ∃ l',
      (nodes.flatMap fun node => (node.call? fs index scene).toList).foldlM Ledger.enter l = .ok l' ∧
        l'.catalog = c'.catalog := by
  induction nodes generalizing c l with
  | nil =>
    rw [List.foldlM_nil, pure_eq_ok] at h
    subst h
    exact ⟨rfl, l, rfl, hl⟩
  | cons node nodes ih =>
    rw [List.foldlM_cons, bind_eq_ok] at h
    obtain ⟨d, hd, h⟩ := h
    obtain ⟨hscenes, m, hm, hcatalog⟩ := enter_of_registerNode hd hl
    obtain ⟨hrest, l', hl', hend⟩ := ih h hcatalog
    refine ⟨hrest.trans hscenes, l', ?_, hend⟩
    rw [List.flatMap_cons, List.foldlM_append]
    exact bind_eq_ok.2 ⟨m, hm, hl'⟩

theorem enter_of_addScenes {scenes : List Scene} {c c' : Compilation}
    (h : scenes.foldlM (addScene fs index) c = .ok c') {l : Ledger} (hl : l.catalog = c.catalog) :
    (∀ s ∈ c'.scenes, s ∈ c.scenes ∨ ∃ t ∈ scenes, s.nodes = SceneNode.ofScene t) ∧
      ∃ l', (calls fs index scenes).foldlM Ledger.enter l = .ok l' ∧ l'.catalog = c'.catalog := by
  induction scenes generalizing c l with
  | nil =>
    rw [List.foldlM_nil, pure_eq_ok] at h
    subst h
    exact ⟨fun _ => .inl, l, rfl, hl⟩
  | cons t scenes ih =>
    rw [List.foldlM_cons, bind_eq_ok] at h
    obtain ⟨d, hd, h⟩ := h
    rw [addScene_eq] at hd
    obtain ⟨hscenes, m, hm, hcatalog⟩ := enter_of_registerNodes hd (l := l) hl
    obtain ⟨hrest, l', hl', hend⟩ := ih h hcatalog
    refine ⟨?_, l', ?_, hend⟩
    · intro s hs
      cases hrest s hs with
      | inl hs =>
        rw [hscenes] at hs
        cases List.mem_append.1 hs with
        | inl hs => exact .inl hs
        | inr hs => exact .inr ⟨t, List.mem_cons_self, by rw [List.mem_singleton.1 hs]⟩
      | inr hs =>
        obtain ⟨u, hu, hnodes⟩ := hs
        exact .inr ⟨u, List.mem_cons_of_mem _ hu, hnodes⟩
    · rw [calls, List.flatMap_cons, List.foldlM_append]
      exact bind_eq_ok.2 ⟨m, hm, hl'⟩

/-- Compiling scenes makes the calls of their nodes, and no others. -/
theorem ledger_of_ofScenes {scenes : List Scene} {c : Compilation} (h : ofScenes fs index scenes = .ok c) :
    (∃ l, ledger (calls fs index scenes) = .ok l ∧ l.catalog = c.catalog) ∧
      ∀ s ∈ c.scenes, ∃ t ∈ scenes, s.nodes = SceneNode.ofScene t := by
  obtain ⟨d, hd, hc⟩ := bind_eq_ok.1 h
  obtain rfl := pure_eq_ok.1 hc
  obtain ⟨hscenes, hl⟩ := enter_of_addScenes hd (l := {}) rfl
  refine ⟨hl, ?_⟩
  intro s hs
  cases hscenes s hs with
  | inl hs => cases hs
  | inr hs => exact hs

theorem coherent_ofScenes {scenes : List Scene} {c : Compilation} (h : ofScenes fs index scenes = .ok c) :
    c.catalog.Coherent := by
  obtain ⟨⟨l, hl, hcatalog⟩, -⟩ := ledger_of_ofScenes h
  exact hcatalog ▸ (Ledger.entered_nil.foldlM hl).1.coherent

/-- The pictures that the scenes name are resolved or missing, and what is looked up for them says so. -/
def Accounted (c : Compilation) : Prop :=
  ∀ s ∈ c.scenes, ∀ node ∈ s.nodes, ∀ kind reference, node.picture? = some (kind, reference) →
    (∃ u ∈ c.catalog.used kind, u.logical = Text.trim reference ∧ u.logical ∉ c.catalog.missing kind ∧
        c.catalog.lookup kind reference = .alias_ u.alias_) ∨
      Text.trim reference ∈ c.catalog.missing kind ∧
        (∀ u ∈ c.catalog.used kind, u.logical ≠ Text.trim reference) ∧
        c.catalog.lookup kind reference = .raw (Text.trim reference)

theorem accounted_ofScenes {scenes : List Scene} {c : Compilation} (h : ofScenes fs index scenes = .ok c) :
    c.Accounted := by
  obtain ⟨⟨l, hl, hcatalog⟩, hnodes⟩ := ledger_of_ofScenes h
  have ha := accounted_of_ledger hl
  intro s hs node hnode kind reference hpicture
  obtain ⟨t, ht, heq⟩ := hnodes s hs
  have hcall : (⟨fs, index, kind, reference, t.id⟩ : Call) ∈ calls fs index scenes := by
    refine List.mem_flatMap.2 ⟨t, ht, List.mem_flatMap.2 ⟨node, heq ▸ hnode, ?_⟩⟩
    simp [SceneNode.call?, hpicture]
  rw [← hcatalog]
  cases ha.resolved_or_missing _ hcall with
  | inl hu =>
    obtain ⟨u, hu, hlogical⟩ := hu
    exact .inl ⟨u, hu, hlogical, ha.not_both kind u hu, ha.lookup_used kind reference u hu hlogical⟩
  | inr hm =>
    refine .inr ⟨hm, ?_, ha.lookup_missing kind reference hm⟩
    intro u hu hlogical
    exact ha.not_both kind u hu (hlogical ▸ hm)

end Compilation

/-- References are accounted for, those of any calls and those of scenes that are compiled. -/
theorem references_accounted :
    (∀ calls l, ledger calls = .ok l → Accounted calls l) ∧
      ∀ fs index scenes c, Compilation.ofScenes fs index scenes = .ok c → c.Accounted :=
  ⟨fun _ _ => accounted_of_ledger, fun _ _ _ _ => Compilation.accounted_ofScenes⟩

/-- A background, and the neutral portrait of a character. -/
def gladeFiles : FileSystem where
  nodes := .ofList [(["art"], .directory), (["art", "bg"], .directory),
    (["art", "bg", "oak.png"], .file (Bytes.ofList [1])), (["art", "sprites"], .directory),
    (["art", "sprites", "ann.png"], .file (Bytes.ofList [2]))]

def gladeScenes : List Scene :=
  [{ id := "s", background := some "oak.png", portrait := some "ann:sad" },
    { id := "t", background := some " bg/oak.png ", portrait := some "bg/oak.png" },
    { id := "u", background := some "bog" }, { id := "v", background := some "bog " }]

/-- A picture that two references and a portrait name, a portrait without its expression, and a missing picture. -/
theorem references_accounted_of_glade :
    (∃ l, ledger (Compilation.calls gladeFiles (AssetIndex.build gladeFiles ⟨"art"⟩) gladeScenes) = .ok l ∧
      l.catalog.usages.map (·.alias_) = ["bg_oak", "bg_oak", "ch_ann", "ch_oak"] ∧
      l.catalog.missing .background = ["bog"] ∧
      Accounted (Compilation.calls gladeFiles (AssetIndex.build gladeFiles ⟨"art"⟩) gladeScenes) l) ∧
    ∃ c, Compilation.ofScenes gladeFiles (AssetIndex.build gladeFiles ⟨"art"⟩) gladeScenes = .ok c ∧
      c.Accounted := by
  have hrun : (Compilation.ofScenes gladeFiles (AssetIndex.build gladeFiles ⟨"art"⟩) gladeScenes).toOption.map
      (fun c => (c.catalog.usages.map (·.alias_), c.catalog.missing .background)) =
        some (["bg_oak", "bg_oak", "ch_ann", "ch_oak"], ["bog"]) := by
    decide +kernel
  cases hc : Compilation.ofScenes gladeFiles (AssetIndex.build gladeFiles ⟨"art"⟩) gladeScenes with
  | error e =>
    rw [hc] at hrun
    cases hrun
  | ok c =>
    rw [hc] at hrun
    simp only [Except.toOption, Option.map_some, Option.some.injEq, Prod.mk.injEq] at hrun
    obtain ⟨⟨l, hl, hcatalog⟩, -⟩ := Compilation.ledger_of_ofScenes hc
    rw [← hcatalog] at hrun
    exact ⟨⟨l, hl, hrun.1, hrun.2, references_accounted.1 _ _ hl⟩, c, rfl, references_accounted.2 _ _ _ _ hc⟩

end StoryPress
