import Mathlib.Data.List.Nodup
import StoryPress.Proofs.Compiled
import StoryPress.Proofs.Containment
import StoryPress.Proofs.Operations

/-!
# The catalog of an export

* `Sound`: what a catalog holds was resolved and read, and no alias stands for two files;
* `registering`: what a registration does; `sound_register`: it keeps a catalog sound;
* `Registered`, `Registered.numbered`, `Registered.named`: catalogs that are built by registrations, their aliases,
  and what these are made of;
* `catalogued_ofScenes`: the catalog of compiled scenes is sound, and each reference in it is one of theirs.
-/

namespace StoryPress

/-! ## Maps of lists -/

/-- Where each key occurs once, a map holds just the pairs of the list that it is made of. -/
theorem OrderedMap.mem_entries_ofList {α β : Type} [Ord α] [Std.TransOrd α] [Std.LawfulEqOrd α] {l : List (α × β)}
    (h : (l.map (·.1)).Nodup) {p : α × β} : p ∈ (ofList l).entries ↔ p ∈ l := by
  refine ⟨mem_of_mem_ofList, fun hp => ?_⟩
  obtain ⟨q, hq, hkey⟩ := List.mem_map.1 (mem_keys_ofList.2 (List.mem_map_of_mem hp))
  obtain rfl := List.inj_on_of_nodup_map h (mem_of_mem_ofList hq) hp hkey
  exact hq

/-! ## Registrations -/

/-- A picture in use was resolved from its reference, and its digest and size are those of its file. -/
structure AssetUsage.Genuine (fs : FileSystem) (index : AssetIndex) (u : AssetUsage) : Prop where
  resolved : ∃ found, index.resolve fs u.kind u.logical = some found ∧ found.relative = u.relative ∧
    found.path = u.source
  read : ∃ bytes, fs.readWithin maxAssetBytes u.source = .ok bytes ∧ u.sha256 = Hash.sha256Hex bytes ∧
    u.size = bytes.size

namespace AssetCatalog

variable {fs : FileSystem} {index : AssetIndex}

structure Sound (fs : FileSystem) (index : AssetIndex) (c : AssetCatalog) : Prop where
  unique : c.registrations.Pairwise fun r r' => ¬(r.kind = r'.kind ∧ r.logical = r'.logical)
  genuine : ∀ r ∈ c.registrations, ∀ u, r.usage = some u →
    u.kind = r.kind ∧ u.logical = r.logical ∧ u.Genuine fs index ∧ ⟨u.kind, u.relative, u.alias_⟩ ∈ c.aliases
  aliases_nodup : (c.aliases.map (·.alias_)).Nodup

theorem find?_eq_none_iff {c : AssetCatalog} {kind : AssetKind} {logical : String} :
    c.find? kind logical = none ↔ ∀ r ∈ c.registrations, ¬(r.kind = kind ∧ r.logical = logical) := by
  simp [find?]

theorem Sound.find? {c : AssetCatalog} (h : Sound fs index c) {r : Registration} (hr : r ∈ c.registrations) :
    c.find? r.kind r.logical = some r := by
  cases hf : c.find? r.kind r.logical with
  | none => exact absurd ⟨rfl, rfl⟩ (find?_eq_none_iff.1 hf r hr)
  | some r' =>
    have hkey : r'.kind = r.kind ∧ r'.logical = r.logical := by simpa using List.find?_some hf
    have hr' : r' ∈ c.registrations := List.mem_of_find?_eq_some hf
    by_cases he : r' = r
    · rw [he]
    · rcases List.pairwise_iff_getElem.1 h.unique with hpair
      obtain ⟨i, hi, rfl⟩ := List.mem_iff_getElem.1 hr
      obtain ⟨j, hj, rfl⟩ := List.mem_iff_getElem.1 hr'
      have hij : i ≠ j := by
        rintro rfl
        exact he rfl
      rcases Nat.lt_or_gt_of_ne hij with hlt | hlt
      · exact absurd ⟨hkey.1.symm, hkey.2.symm⟩ (hpair i j hi hj hlt)
      · exact absurd hkey (hpair j i hj hi hlt)

/-- An alias is kept for its file, and a new one is not taken. -/
theorem aliasFor_spec {c : AssetCatalog} (hn : (c.aliases.map (·.alias_)).Nodup) (kind : AssetKind)
    (relative : String) :
    (c.aliasFor kind relative).2.registrations = c.registrations ∧
      (∀ e ∈ c.aliases, e ∈ (c.aliasFor kind relative).2.aliases) ∧
      ⟨kind, relative, (c.aliasFor kind relative).1⟩ ∈ (c.aliasFor kind relative).2.aliases ∧
      ((c.aliasFor kind relative).2.aliases.map (·.alias_)).Nodup := by
  unfold aliasFor
  split
  · next e he =>
    obtain ⟨rfl, rfl⟩ : e.kind = kind ∧ e.relative = relative := by simpa using List.find?_some he
    exact ⟨rfl, fun _ => id, List.mem_of_find?_eq_some he, hn⟩
  · refine ⟨rfl, fun e he => List.mem_append_left _ he, List.mem_append_right _ (List.mem_singleton.2 rfl), ?_⟩
    simp only [List.map_append, List.map_cons, List.map_nil]
    refine List.nodup_append.2 ⟨hn, by simp, ?_⟩
    rintro a ha b hb rfl
    rw [List.mem_singleton.1 hb] at ha
    exact Naming.fresh_not_mem _ _ ha

theorem usageOf_eq_ok {kind : AssetKind} {logical name : String} {found : ResolvedAsset} {u : AssetUsage}
    (hr : index.resolve fs kind logical = some found) (h : usageOf fs kind logical name found = .ok u) :
    u.kind = kind ∧ u.logical = logical ∧ u.relative = found.relative ∧ u.alias_ = name ∧ u.Genuine fs index := by
  obtain ⟨bytes, hbytes, h⟩ := bind_eq_ok.1 h
  obtain rfl := pure_eq_ok.1 h
  exact ⟨rfl, rfl, rfl, rfl, ⟨found, hr, rfl, rfl⟩, bytes, hbytes, rfl, rfl⟩

theorem Sound.add {c : AssetCatalog} (h : Sound fs index c) {r : Registration}
    (hnew : c.find? r.kind r.logical = none)
    (hr : ∀ u, r.usage = some u → u.kind = r.kind ∧ u.logical = r.logical ∧ u.Genuine fs index ∧
      ⟨u.kind, u.relative, u.alias_⟩ ∈ c.aliases) : Sound fs index (c.add r) := by
  refine ⟨List.pairwise_append.2 ⟨h.unique, by simp, ?_⟩, ?_, h.aliases_nodup⟩
  · intro t ht t' ht'
    obtain rfl := List.mem_singleton.1 ht'
    exact find?_eq_none_iff.1 hnew t ht
  · intro t ht
    rcases List.mem_append.1 ht with ht | ht
    · exact h.genuine t ht
    · obtain rfl := List.mem_singleton.1 ht
      exact hr

/-- What a registration does: it finds its reference registered or registers it, as missing or with the file that it
stands for. If that file cannot be read, the file has its alias all the same. -/
inductive Registering (fs : FileSystem) (index : AssetIndex) (c : AssetCatalog) (kind : AssetKind)
    (reference scene : String) : AssetCatalog × Except Failure (AssetToken × List ExportWarning) → Prop where
  | known {r : Registration} (hr : c.find? kind (Text.trim reference) = some r) :
      Registering fs index c kind reference scene (c, .ok (Registration.token r, []))
  | missing (hnew : c.find? kind (Text.trim reference) = none)
      (hnone : index.resolve fs kind (Text.trim reference) = none) :
      Registering fs index c kind reference scene (c.add ⟨kind, Text.trim reference, none⟩,
        .ok (.raw (Text.trim reference), [.unresolvedAsset kind scene (Text.trim reference)]))
  | unread {found : ResolvedAsset} {e : Failure} (hnew : c.find? kind (Text.trim reference) = none)
      (hfound : index.resolve fs kind (Text.trim reference) = some found)
      (he : usageOf fs kind (Text.trim reference) (c.aliasFor kind found.relative).1 found = .error e) :
      Registering fs index c kind reference scene ((c.aliasFor kind found.relative).2, .error e)
  | found {found : ResolvedAsset} {u : AssetUsage} (hnew : c.find? kind (Text.trim reference) = none)
      (hfound : index.resolve fs kind (Text.trim reference) = some found)
      (hu : usageOf fs kind (Text.trim reference) (c.aliasFor kind found.relative).1 found = .ok u) :
      Registering fs index c kind reference scene
        ((c.aliasFor kind found.relative).2.add ⟨kind, Text.trim reference, some u⟩,
          .ok (.alias_ (c.aliasFor kind found.relative).1, found.fallback.toList.map fun f =>
            .portraitFallback (Text.trim reference) f.requested f.substituted))

theorem registering (fs : FileSystem) (index : AssetIndex) (c : AssetCatalog) (kind : AssetKind) (reference scene : String) :
    Registering fs index c kind reference scene (c.register fs index kind reference scene) := by
  unfold register
  dsimp only
  cases hr : c.find? kind (Text.trim reference) with
  | some r => exact .known hr
  | none =>
    cases hfound : index.resolve fs kind (Text.trim reference) with
    | none => exact .missing hr hfound
    | some found =>
      dsimp only
      cases hu : usageOf fs kind (Text.trim reference) (c.aliasFor kind found.relative).1 found with
      | error e => exact .unread hr hfound hu
      | ok u => exact .found hr hfound hu

/-- A registration keeps a catalog sound, and adds at most the reference it is given. -/
theorem sound_register {c : AssetCatalog} (h : Sound fs index c) {kind : AssetKind} {reference scene : String}
    {result : AssetToken × List ExportWarning}
    (hr : (c.register fs index kind reference scene).2 = .ok result) :
    Sound fs index (c.register fs index kind reference scene).1 ∧
      ∀ r ∈ (c.register fs index kind reference scene).1.registrations,
        r ∈ c.registrations ∨ r.kind = kind ∧ r.logical = Text.trim reference := by
  have hstep := registering fs index c kind reference scene
  generalize c.register fs index kind reference scene = after at hr hstep ⊢
  cases hstep with
  | known => exact ⟨h, fun r => .inl⟩
  | missing hnew =>
    refine ⟨h.add hnew (by simp), ?_⟩
    intro r hr
    rcases List.mem_append.1 hr with hr | hr
    · exact .inl hr
    · obtain rfl := List.mem_singleton.1 hr
      exact .inr ⟨rfl, rfl⟩
  | unread => cases hr
  | @found found u hnew hfound hu =>
    obtain ⟨hregs, hkeep, hmem, hnodup⟩ := aliasFor_spec h.aliases_nodup kind found.relative
    obtain ⟨rfl, hlogical, hrelative, halias, hgenuine⟩ := usageOf_eq_ok hfound hu
    have hsound : Sound fs index (c.aliasFor u.kind found.relative).2 := by
      refine ⟨by rw [hregs]; exact h.unique, ?_, hnodup⟩
      intro r hr t ht
      obtain ⟨hk, hl, hg, ha⟩ := h.genuine r (hregs ▸ hr) t ht
      exact ⟨hk, hl, hg, hkeep _ ha⟩
    refine ⟨hsound.add ?_ ?_, ?_⟩
    · rw [find?_eq_none_iff, hregs]
      exact find?_eq_none_iff.1 hnew
    · rintro t ht
      obtain rfl := Option.some.inj ht
      refine ⟨rfl, hlogical, hgenuine, ?_⟩
      rw [hrelative, halias]
      exact hmem
    · intro r hr
      rcases List.mem_append.1 hr with hr | hr
      · exact .inl (hregs ▸ hr)
      · obtain rfl := List.mem_singleton.1 hr
        exact .inr ⟨rfl, rfl⟩

/-! ## Aliases -/

/-- The catalogs that registrations build, whatever files they look at. -/
inductive Registered : AssetCatalog → Prop where
  | empty : Registered {}
  | register {c : AssetCatalog} (h : Registered c) (fs : FileSystem) (index : AssetIndex) (kind : AssetKind)
      (reference scene : String) : Registered (c.register fs index kind reference scene).1

/-- Aliases are made of letters, digits and underscores. -/
structure Named (c : AssetCatalog) : Prop where
  aliases : ∀ e ∈ c.aliases, ∀ ch ∈ e.alias_.toList, Naming.NameChar ch
  usages : ∀ r ∈ c.registrations, ∀ u, r.usage = some u → ∀ ch ∈ u.alias_.toList, Naming.NameChar ch

theorem nameChar_of_mem_wantedAlias {kind : AssetKind} {relative : String} {ch : Char}
    (h : ch ∈ (wantedAlias kind relative).toList) : Naming.NameChar ch := by
  have hlead : ∀ ch ∈ (aliasLead kind).toList, Naming.NameChar ch := by
    cases kind <;> exact Naming.nameChar_of_all (by decide)
  simp only [wantedAlias, String.toList_append, List.mem_append] at h
  rcases h with (h | h) | h
  · exact hlead ch h
  · exact Naming.nameChar_of_all (by decide) ch h
  · split at h
    · exact Naming.nameChar_of_all (by decide) ch h
    · exact Naming.nameChar_of_mem_slug h

/-- Each alias is the one that its file asks for, or a numbered one. -/
structure Numbered (c : AssetCatalog) : Prop where
  aliases : ∀ e ∈ c.aliases, ∃ n, e.alias_ = Naming.candidate (wantedAlias e.kind e.relative) n
  usages : ∀ r ∈ c.registrations, ∀ u, r.usage = some u →
    ∃ n, u.alias_ = Naming.candidate (wantedAlias u.kind u.relative) n

theorem Numbered.aliasFor {c : AssetCatalog} (h : Numbered c) (kind : AssetKind) (relative : String) :
    Numbered (c.aliasFor kind relative).2 ∧
      ∃ n, (c.aliasFor kind relative).1 = Naming.candidate (wantedAlias kind relative) n := by
  unfold AssetCatalog.aliasFor
  split
  · next e he =>
    obtain ⟨rfl, rfl⟩ : e.kind = kind ∧ e.relative = relative := by simpa using List.find?_some he
    exact ⟨h, h.aliases e (List.mem_of_find?_eq_some he)⟩
  · obtain ⟨n, hfresh, -⟩ := Naming.fresh_eq_candidate (c.aliases.map (·.alias_)) (wantedAlias kind relative)
    refine ⟨⟨?_, h.usages⟩, n, hfresh⟩
    intro e he
    rcases List.mem_append.1 he with he | he
    · exact h.aliases e he
    · obtain rfl := List.mem_singleton.1 he
      exact ⟨n, hfresh⟩

theorem Numbered.add {c : AssetCatalog} (h : Numbered c) {r : Registration}
    (hr : ∀ u, r.usage = some u → ∃ n, u.alias_ = Naming.candidate (wantedAlias u.kind u.relative) n) :
    Numbered (c.add r) := by
  refine ⟨h.aliases, fun t ht => ?_⟩
  rcases List.mem_append.1 ht with ht | ht
  · exact h.usages t ht
  · obtain rfl := List.mem_singleton.1 ht
    exact hr

theorem Numbered.register {c : AssetCatalog} (h : Numbered c) (kind : AssetKind) (reference scene : String) :
    Numbered (c.register fs index kind reference scene).1 := by
  have hstep := registering fs index c kind reference scene
  generalize c.register fs index kind reference scene = after at hstep ⊢
  cases hstep with
  | known => exact h
  | missing => exact h.add (by simp)
  | unread => exact (h.aliasFor _ _).1
  | @found found u _ hfound hu =>
    obtain ⟨hkind, -, hrelative, hname, -⟩ := usageOf_eq_ok hfound hu
    refine (h.aliasFor kind found.relative).1.add ?_
    rintro v hv
    obtain rfl := Option.some.inj hv
    rw [hname, hkind, hrelative]
    exact (h.aliasFor kind found.relative).2

theorem Registered.numbered {c : AssetCatalog} (h : Registered c) : Numbered c := by
  induction h with
  | empty => exact ⟨by simp, by simp⟩
  | register _ fs index kind reference scene ih => exact ih.register kind reference scene

theorem Registered.named {c : AssetCatalog} (h : Registered c) : Named c := by
  constructor
  · intro e he ch hch
    obtain ⟨n, hn⟩ := h.numbered.aliases e he
    exact Naming.nameChar_of_mem_candidate (fun _ => nameChar_of_mem_wantedAlias) (hn ▸ hch)
  · intro r hr u hu ch hch
    obtain ⟨n, hn⟩ := h.numbered.usages r hr u hu
    exact Naming.nameChar_of_mem_candidate (fun _ => nameChar_of_mem_wantedAlias) (hn ▸ hch)

/-! ## Pictures in use -/

/-- An alias that is looked up is that of a registration that is in use. -/
theorem usage_of_lookup {c : AssetCatalog} {kind : AssetKind} {reference name : String}
    (hl : c.lookup kind reference = .alias_ name) :
    ∃ r ∈ c.registrations, ∃ u, r.usage = some u ∧ u.alias_ = name := by
  unfold lookup at hl
  dsimp only at hl
  split at hl
  · next r hr =>
    unfold Registration.token at hl
    split at hl
    · next u hu => exact ⟨r, List.mem_of_find?_eq_some hr, u, hu, AssetToken.alias_.inj hl⟩
    · cases hl
  · cases hl

theorem mem_used {c : AssetCatalog} {kind : AssetKind} {u : AssetUsage} (h : u ∈ c.used kind) :
    ∃ r ∈ c.registrations, r.kind = kind ∧ r.usage = some u := by
  obtain ⟨⟨logical, v⟩, hv, rfl⟩ := List.mem_map.1 h
  obtain ⟨r, hr, hru⟩ := List.mem_filterMap.1 (OrderedMap.mem_of_mem_ofList hv)
  split at hru
  · next hk =>
    obtain ⟨w, hw, heq⟩ := Option.map_eq_some_iff.1 hru
    obtain ⟨-, rfl⟩ := Prod.mk.inj heq
    exact ⟨r, hr, hk, hw⟩
  · cases hru

/-- What is registered once for its reference is in use. -/
theorem mem_used_of_once {c : AssetCatalog} {r : Registration} (hr : r ∈ c.registrations)
    (honce : ∀ t ∈ c.registrations, t.kind = r.kind → t.logical = r.logical → t = r) {u : AssetUsage}
    (hu : r.usage = some u) : u ∈ c.used r.kind := by
  have hpair : (r.logical, u) ∈ c.registrations.filterMap fun t =>
      if t.kind = r.kind then t.usage.map fun v => (t.logical, v) else none :=
    List.mem_filterMap.2 ⟨r, hr, by simp [hu]⟩
  obtain ⟨⟨logical, v⟩, hv, hkey⟩ := List.mem_map.1
    (OrderedMap.mem_keys_ofList.2 (List.mem_map_of_mem (f := (·.1)) hpair))
  obtain ⟨t, ht, htv⟩ := List.mem_filterMap.1 (OrderedMap.mem_of_mem_ofList hv)
  split at htv
  · next hkind =>
    obtain ⟨w, hw, heq⟩ := Option.map_eq_some_iff.1 htv
    obtain ⟨hlogical, rfl⟩ := Prod.mk.inj heq
    obtain rfl := honce t ht hkind (hlogical.trans hkey)
    obtain rfl := Option.some.inj (hw.symm.trans hu)
    exact List.mem_map.2 ⟨_, hv, rfl⟩
  · cases htv

theorem mem_usages {c : AssetCatalog} {u : AssetUsage} (h : u ∈ c.usages) :
    ∃ r ∈ c.registrations, r.usage = some u := by
  rcases List.mem_append.1 h with h | h
  · obtain ⟨r, hr, -, hu⟩ := mem_used h
    exact ⟨r, hr, hu⟩
  · obtain ⟨r, hr, -, hu⟩ := mem_used h
    exact ⟨r, hr, hu⟩

theorem mem_usages_of_used {c : AssetCatalog} {kind : AssetKind} {u : AssetUsage} (h : u ∈ c.used kind) :
    u ∈ c.usages := by
  cases kind with
  | background => exact List.mem_append_left _ h
  | portrait => exact List.mem_append_right _ h

theorem byAlias?_eq_some {c : AssetCatalog} {name : String} {u : AssetUsage} (h : c.byAlias? name = some u) :
    u ∈ c.usages ∧ u.alias_ = name :=
  ⟨List.mem_of_find?_eq_some h, by simpa using List.find?_some h⟩

theorem exists_byAlias? {c : AssetCatalog} {u : AssetUsage} (hu : u ∈ c.usages) :
    ∃ v, c.byAlias? u.alias_ = some v := by
  cases hv : c.byAlias? u.alias_ with
  | none => exact absurd (List.find?_eq_none.1 hv u hu) (by simp)
  | some v => exact ⟨v, rfl⟩

/-- An alias stands for one file. -/
theorem Sound.relative_eq {c : AssetCatalog} (h : Sound fs index c) {u v : AssetUsage} (hu : u ∈ c.usages)
    (hv : v ∈ c.usages) (ha : u.alias_ = v.alias_) : u.relative = v.relative := by
  obtain ⟨r, hr, hru⟩ := mem_usages hu
  obtain ⟨t, ht, htv⟩ := mem_usages hv
  have hue := (h.genuine r hr u hru).2.2.2
  have hve := (h.genuine t ht v htv).2.2.2
  have := List.inj_on_of_nodup_map h.aliases_nodup hue hve ha
  exact congrArg AliasEntry.relative this

theorem Sound.byAlias? {c : AssetCatalog} (h : Sound fs index c) {u : AssetUsage} (hu : u ∈ c.usages) :
    ∃ v, c.byAlias? u.alias_ = some v ∧ v ∈ c.usages ∧ v.relative = u.relative := by
  obtain ⟨v, hv⟩ := exists_byAlias? hu
  obtain ⟨hmem, halias⟩ := byAlias?_eq_some hv
  exact ⟨v, hv, hmem, h.relative_eq hmem hu halias⟩

/-- Where a picture in use comes from. -/
structure Origin (fs : FileSystem) (root : Path) (u : AssetUsage) : Prop where
  source_eq : u.source = root.join u.relative
  never_up : ".." ∉ Text.pieces '/' u.relative
  found : fs.locate u.source = .ok (fs.place u.source)
  file : ∃ bytes, fs.fileAt (fs.place u.source) = some bytes ∧ u.sha256 = Hash.sha256Hex bytes ∧
    u.size = bytes.size ∧ bytes.size ≤ maxAssetBytes

theorem Sound.origin {root : Path} {c : AssetCatalog} (hw : fs.WellFormed)
    (h : Sound fs (AssetIndex.build fs root) c) {u : AssetUsage} (hu : u ∈ c.usages) : Origin fs root u := by
  obtain ⟨r, hr, hru⟩ := mem_usages hu
  obtain ⟨-, -, ⟨⟨found, hfound, hrel, hpath⟩, bytes, hbytes, hsha, hsize⟩, -⟩ := h.genuine r hr u hru
  obtain ⟨reference, hreference, hby⟩ := AssetIndex.foundBy_of_resolve hw hw hfound
  obtain ⟨hfound, hfile, hlimit⟩ := FileSystem.readWithin_eq_ok hbytes
  refine ⟨?_, ?_, hfound, bytes, hfile, hsha, hsize, hlimit⟩
  · rcases hby with ⟨-, hr', hp'⟩ | ⟨-, hc⟩
    · rw [← hpath, hp', ← hrel, hr']
    · rw [← hpath, ← hrel]
      exact hc.path_eq
  · rcases hby with ⟨-, hr', -⟩ | ⟨-, hc⟩
    · rw [← hrel, hr']
      exact (Reference.normalize_eq_some hreference).1
    · rw [← hrel]
      exact hc.never_up

end AssetCatalog

namespace Compilation

variable {fs : FileSystem} {index : AssetIndex}

/-- The catalog is sound, and the scenes name what it holds. -/
structure Catalogued (fs : FileSystem) (index : AssetIndex) (c : Compilation) : Prop where
  sound : c.catalog.Sound fs index
  named : ∀ r ∈ c.catalog.registrations, ∃ s ∈ c.scenes, ∃ node ∈ s.nodes, ∃ reference,
    node.picture? = some (r.kind, reference) ∧ Text.trim reference = r.logical

theorem catalogued_ofScenes {scenes : List Scene} {c : Compilation} (h : ofScenes fs index scenes = .ok c) :
    Catalogued fs index c := by
  refine invariant_of_ofScenes ?_ ?_ ?_
    (fun c ws hc => ⟨hc.sound, hc.named⟩) h
  · exact ⟨⟨.nil, by simp, by simp⟩, by simp⟩
  · intro c s hc
    refine ⟨hc.sound, fun r hr => ?_⟩
    obtain ⟨t, ht, rest⟩ := hc.named r hr
    exact ⟨t, List.mem_append_left _ ht, rest⟩
  · intro c c' s node hs hnode hc hr
    obtain ⟨-, rfl⟩ | ⟨kind, reference, token, warnings, hpicture, hok, rfl⟩ := registerNode_eq_ok hr
    · exact hc
    · obtain ⟨hsound, hregs⟩ := AssetCatalog.sound_register hc.sound hok
      refine ⟨hsound, fun r hr => ?_⟩
      rcases hregs r hr with hr | ⟨hk, hl⟩
      · exact hc.named r hr
      · exact ⟨s, hs, node, hnode, reference, hk ▸ hpicture, hl.symm⟩

theorem registered_ofScenes {scenes : List Scene} {c : Compilation} (h : ofScenes fs index scenes = .ok c) :
    c.catalog.Registered := by
  refine invariant_of_ofScenes (P := fun c => c.catalog.Registered) .empty (fun _ _ hc => hc) ?_
    (fun _ _ hc => hc) h
  intro c c' s node _ _ hc hr
  obtain ⟨-, rfl⟩ | ⟨kind, reference, token, warnings, -, -, rfl⟩ := registerNode_eq_ok hr
  · exact hc
  · exact hc.register fs index kind reference s.sceneId

end Compilation

namespace ScriptPlan

theorem mem_aliasesOf_iff {lines : List Line} {name : String} :
    name ∈ aliasesOf lines ↔ ∃ l ∈ lines, l.statement.alias? = some name := by
  simp only [aliasesOf, OrderedMap.mem_keys_ofList, List.mem_map, List.mem_filterMap, Option.map_eq_some_iff,
    Prod.exists, Prod.mk.injEq]
  constructor
  · rintro ⟨a, u, ⟨l, hl, b, hb, rfl, -⟩, rfl⟩
    exact ⟨l, hl, hb⟩
  · rintro ⟨l, hl, hn⟩
    exact ⟨name, (), ⟨l, hl, name, hn, rfl, trivial⟩, rfl⟩

/-- A script uses the alias of every picture that its scenes name. -/
theorem mem_aliases {fs : FileSystem} {index : AssetIndex} {c : Compilation} (h : c.Catalogued fs index)
    {u : AssetUsage} (hu : u ∈ c.catalog.usages) {p : ScriptPlan} (hscenes : ∀ s ∈ c.scenes, s ∈ p.scenes)
    (labels : OrderedMap String String) : u.alias_ ∈ p.aliases c.catalog labels := by
  obtain ⟨r, hr, hru⟩ := AssetCatalog.mem_usages hu
  obtain ⟨s, hs, node, hnode, reference, hpicture, hlogical⟩ := h.named r hr
  have hlookup : c.catalog.lookup r.kind reference = .alias_ u.alias_ := by
    simp only [AssetCatalog.lookup, hlogical, h.sound.find? hr, AssetCatalog.Registration.token, hru]
  have hline : ∃ l ∈ CompiledScene.nodeLines c.catalog (p.targets labels) node,
      l.statement.alias? = some u.alias_ := by
    cases node with
    | background ref =>
      obtain ⟨hk, rfl⟩ := Prod.mk.inj (Option.some.inj hpicture)
      exact ⟨_, List.mem_singleton.2 rfl, by simp [hk ▸ hlookup, Statement.alias?]⟩
    | portrait ref =>
      obtain ⟨hk, rfl⟩ := Prod.mk.inj (Option.some.inj hpicture)
      exact ⟨_, List.mem_singleton.2 rfl, by simp [hk ▸ hlookup, Statement.alias?]⟩
    | line | choice | jump | unsupported => cases hpicture
  obtain ⟨l, hl, halias⟩ := hline
  refine mem_aliasesOf_iff.2 ⟨l, List.mem_flatten.2 ⟨_, List.mem_map.2 ⟨s, hscenes s hs, rfl⟩, ?_⟩, halias⟩
  simp only [CompiledScene.lines, List.mem_append, List.mem_flatMap]
  exact .inl (.inr ⟨node, hnode, hl⟩)

end ScriptPlan

end StoryPress
