import Mathlib.Data.List.Nodup
import StoryPress.Proofs.Catalogued

/-!
# References and what stands for them

References are registered one after another, and each call may find other files. As long as the calls succeed, each
reference gets one registration at its first call, which no later call changes.

* `Coherent`: the registrations of a catalog have keys of their own, and its aliases stand for one file each;
* `enter_eq_ok`: what one call does;
* `Entered`: what calls leave, kept from each call to the next (`Entered.enter`, `Entered.foldlM`).
-/

namespace StoryPress

/-- In a list with keys of their own, one element gives what no other one gives. -/
theorem flatMap_eq_of_nodup {α β κ : Type} {key : α → κ} {f : α → List β} {xs : List α}
    (h : (xs.map key).Nodup) {x : α} (hx : x ∈ xs) (hf : ∀ y ∈ xs, key y ≠ key x → f y = []) :
    xs.flatMap f = f x := by
  obtain ⟨before, after, rfl⟩ := List.append_of_mem hx
  rw [List.map_append, List.map_cons] at h
  obtain ⟨-, hafter, hne⟩ := List.nodup_append.1 h
  have hbefore : before.flatMap f = [] := by
    rw [List.flatMap_eq_nil_iff]
    intro y hy
    apply hf y (List.mem_append_left _ hy)
    exact hne _ (List.mem_map_of_mem hy) _ List.mem_cons_self
  have hrest : after.flatMap f = [] := by
    rw [List.flatMap_eq_nil_iff]
    intro y hy
    apply hf y (List.mem_append_right _ (List.mem_cons_of_mem _ hy))
    intro heq
    exact (List.nodup_cons.1 hafter).1 (heq ▸ List.mem_map_of_mem hy)
  rw [List.flatMap_append, List.flatMap_cons, hbefore, hrest, List.nil_append, List.append_nil]

/-! ## The neutral expression -/

namespace AssetIndex

variable {fs : FileSystem} {index : AssetIndex}

theorem resolvePath_step {reference : String} {found : ResolvedAsset}
    (h : index.resolvePath fs reference = some found) :
    found.step ≠ .neutralFallback ∧ found.fallback = none := by
  unfold resolvePath at h
  split at h
  · obtain rfl := Option.some.inj h
    exact ⟨by simp [AssetIndex.found], rfl⟩
  · dsimp only at h
    split at h
    · obtain rfl := Option.some.inj h
      exact ⟨by simp, rfl⟩
    · split at h
      · obtain rfl := Option.some.inj h
        exact ⟨by simp [AssetIndex.found], rfl⟩
      · unfold scanForStem at h
        dsimp only at h
        split at h
        · cases h
        · split at h
          · cases h
          · split at h
            · cases h
            · obtain ⟨relative, -, rfl⟩ := Option.map_eq_some_iff.1 h
              exact ⟨by simp, rfl⟩

/-- An expression is replaced in portraits that are found by the neutral expression, and in no other picture. -/
theorem resolve_fallback {kind : AssetKind} {raw : String} {found : ResolvedAsset}
    (h : index.resolve fs kind raw = some found) :
    (found.step = .neutralFallback ↔ found.fallback.isSome = true) ∧
      (found.fallback.isSome = true → kind = .portrait) := by
  have path {reference : String} (h : index.resolvePath fs reference = some found) :
      (found.step = .neutralFallback ↔ found.fallback.isSome = true) ∧
        (found.fallback.isSome = true → kind = .portrait) := by
    obtain ⟨hstep, hnone⟩ := resolvePath_step h
    simp [hstep, hnone]
  unfold resolve at h
  split at h
  · cases h
  · next reference _ =>
    cases kind with
    | background => exact path h
    | portrait =>
      refine ⟨?_, fun _ => rfl⟩
      have h : (index.resolvePath fs reference).orElse (fun _ => index.matchCharacter reference) = some found := h
      cases hp : index.resolvePath fs reference with
      | some a =>
        rw [hp, Option.orElse_some] at h
        obtain rfl := Option.some.inj h
        exact (path hp).1
      | none =>
        rw [hp, Option.orElse_none] at h
        unfold matchCharacter at h
        split at h
        · cases h
        · split at h
          · obtain rfl := Option.some.inj h
            simp [AssetIndex.found]
          · split at h
            · cases h
            · obtain ⟨a, -, rfl⟩ := Option.map_eq_some_iff.1 h
              simp

end AssetIndex

/-! ## Registrations -/

def Registration.key (r : Registration) : AssetKind × String := (r.kind, r.logical)

/-- What is said of a registration when a scene makes it. -/
def Registration.warnings (scene : String) (r : Registration) : List ExportWarning :=
  match r.usage with
  | none => [.unresolvedAsset r.kind scene r.logical]
  | some u => u.fallback.toList.map fun f => .portraitFallback r.logical f.requested f.substituted

namespace AssetCatalog

theorem find?_eq_some_iff {c : AssetCatalog} (h : (c.registrations.map (·.key)).Nodup) {kind : AssetKind}
    {logical : String} {r : Registration} :
    c.find? kind logical = some r ↔ r ∈ c.registrations ∧ r.key = (kind, logical) := by
  constructor
  · intro hf
    have hkey : r.kind = kind ∧ r.logical = logical := by simpa using List.find?_some hf
    exact ⟨List.mem_of_find?_eq_some hf, Prod.ext hkey.1 hkey.2⟩
  · rintro ⟨hr, hkey⟩
    obtain ⟨rfl, rfl⟩ := Prod.mk.inj hkey
    cases hf : c.find? r.kind r.logical with
    | none => exact absurd ⟨rfl, rfl⟩ (find?_eq_none_iff.1 hf r hr)
    | some t =>
      have hkey : t.kind = r.kind ∧ t.logical = r.logical := by simpa using List.find?_some hf
      rw [List.inj_on_of_nodup_map h (List.mem_of_find?_eq_some hf) hr (Prod.ext hkey.1 hkey.2)]

/-- A registration has a key of its own, and an alias stands for one file. -/
structure Coherent (c : AssetCatalog) : Prop where
  keys_nodup : (c.registrations.map (·.key)).Nodup
  aliases_nodup : (c.aliases.map (·.alias_)).Nodup
  files_nodup : (c.aliases.map fun e => (e.kind, e.relative)).Nodup
  usage : ∀ r ∈ c.registrations, ∀ u, r.usage = some u →
    u.kind = r.kind ∧ u.logical = r.logical ∧ ⟨u.kind, u.relative, u.alias_⟩ ∈ c.aliases
  fallback : ∀ r ∈ c.registrations, ∀ u, r.usage = some u →
    (u.step = .neutralFallback ↔ u.fallback.isSome = true) ∧ (u.fallback.isSome = true → r.kind = .portrait)

namespace Coherent

variable {c : AssetCatalog}

/-- An alias is given out for a file that has none. -/
theorem aliasFor (h : c.Coherent) (kind : AssetKind) (relative : String) :
    (c.aliasFor kind relative).2.Coherent ∧ (c.aliasFor kind relative).2.registrations = c.registrations ∧
      ⟨kind, relative, (c.aliasFor kind relative).1⟩ ∈ (c.aliasFor kind relative).2.aliases := by
  obtain ⟨hregs, hkeep, hmem, hnodup⟩ := aliasFor_spec h.aliases_nodup kind relative
  have hfiles : ((c.aliasFor kind relative).2.aliases.map fun e => (e.kind, e.relative)).Nodup := by
    unfold AssetCatalog.aliasFor
    split
    · exact h.files_nodup
    · next hnone =>
      rw [List.map_append, List.map_cons, List.map_nil]
      apply List.nodup_append.2
      refine ⟨h.files_nodup, by simp, ?_⟩
      intro a ha b hb
      obtain ⟨e, he, rfl⟩ := List.mem_map.1 ha
      rw [List.mem_singleton.1 hb]
      intro heq
      obtain ⟨hkind, hrelative⟩ := Prod.mk.inj heq
      exact List.find?_eq_none.1 hnone e he (by simp [hkind, hrelative])
  refine ⟨⟨?_, hnodup, hfiles, ?_, ?_⟩, hregs, hmem⟩
  · rw [hregs]
    exact h.keys_nodup
  · intro r hr u hu
    obtain ⟨hkind, hlogical, hentry⟩ := h.usage r (hregs ▸ hr) u hu
    exact ⟨hkind, hlogical, hkeep _ hentry⟩
  · intro r hr
    exact h.fallback r (hregs ▸ hr)

theorem add (h : c.Coherent) {r : Registration} (hnew : c.find? r.kind r.logical = none)
    (hu : ∀ u, r.usage = some u → u.kind = r.kind ∧ u.logical = r.logical ∧
      ⟨u.kind, u.relative, u.alias_⟩ ∈ c.aliases)
    (hf : ∀ u, r.usage = some u →
      (u.step = .neutralFallback ↔ u.fallback.isSome = true) ∧ (u.fallback.isSome = true → r.kind = .portrait)) :
    (c.add r).Coherent := by
  have hkeys : ((c.registrations ++ [r]).map (·.key)).Nodup := by
    rw [List.map_append, List.map_cons, List.map_nil]
    apply List.nodup_append.2
    refine ⟨h.keys_nodup, by simp, ?_⟩
    intro k hk k' hk'
    obtain ⟨t, ht, rfl⟩ := List.mem_map.1 hk
    rw [List.mem_singleton.1 hk']
    intro heq
    exact find?_eq_none_iff.1 hnew t ht (Prod.mk.inj heq)
  refine ⟨hkeys, h.aliases_nodup, h.files_nodup, ?_, ?_⟩
  · intro t ht
    cases List.mem_append.1 ht with
    | inl ht => exact h.usage t ht
    | inr ht =>
      obtain rfl := List.mem_singleton.1 ht
      exact hu
  · intro t ht
    cases List.mem_append.1 ht with
    | inl ht => exact h.fallback t ht
    | inr ht =>
      obtain rfl := List.mem_singleton.1 ht
      exact hf

/-! ### What a coherent catalog lists -/

/-- A reference of a kind is registered once. -/
theorem eq_of_key (h : c.Coherent) {r t : Registration} (hr : r ∈ c.registrations) (ht : t ∈ c.registrations)
    (hkey : r.key = t.key) : r = t :=
  List.inj_on_of_nodup_map h.keys_nodup hr ht hkey

theorem mem_used_iff (h : c.Coherent) {kind : AssetKind} {u : AssetUsage} :
    u ∈ c.used kind ↔ ∃ r ∈ c.registrations, r.key = (kind, u.logical) ∧ r.usage = some u := by
  constructor
  · intro hu
    obtain ⟨r, hr, hkind, hru⟩ := mem_used hu
    exact ⟨r, hr, Prod.ext hkind (h.usage r hr u hru).2.1.symm, hru⟩
  · rintro ⟨r, hr, hkey, hu⟩
    obtain ⟨rfl, -⟩ := Prod.mk.inj hkey
    exact mem_used_of_once hr (fun t ht hkind hlogical => h.eq_of_key ht hr (Prod.ext hkind hlogical)) hu

theorem lookup_eq (h : c.Coherent) {r : Registration} (hr : r ∈ c.registrations) {kind : AssetKind}
    {reference : String} (hkey : r.key = (kind, Text.trim reference)) :
    c.lookup kind reference = Registration.token r := by
  have hfind := (find?_eq_some_iff h.keys_nodup).2 ⟨hr, hkey⟩
  simp only [lookup, hfind]

theorem mem_usages_iff (h : c.Coherent) {u : AssetUsage} :
    u ∈ c.usages ↔ ∃ r ∈ c.registrations, r.usage = some u := by
  constructor
  · exact mem_usages
  · rintro ⟨r, hr, hu⟩
    exact mem_usages_of_used (h.mem_used_iff.2 ⟨r, hr, Prod.ext rfl (h.usage r hr u hu).2.1.symm, hu⟩)

/-- An alias that is looked up is that of a picture in use. -/
theorem mem_usages_of_lookup (h : c.Coherent) {kind : AssetKind} {reference name : String}
    (hl : c.lookup kind reference = .alias_ name) : ∃ u ∈ c.usages, u.alias_ = name := by
  obtain ⟨r, hr, u, hu, hname⟩ := usage_of_lookup hl
  exact ⟨u, h.mem_usages_iff.2 ⟨r, hr, hu⟩, hname⟩

end Coherent

theorem mem_missing_iff {c : AssetCatalog} {kind : AssetKind} {logical : String} :
    logical ∈ c.missing kind ↔ ∃ r ∈ c.registrations, r.key = (kind, logical) ∧ r.usage = none := by
  unfold missing
  rw [OrderedMap.mem_keys_ofList, List.mem_map]
  constructor
  · rintro ⟨⟨l, u⟩, hl, rfl⟩
    obtain ⟨r, hr, hrl⟩ := List.mem_filterMap.1 hl
    split at hrl
    · next hboth =>
      obtain ⟨hkind, hnone⟩ : r.kind = kind ∧ r.usage = none := by simpa using hboth
      obtain rfl := (Prod.mk.inj (Option.some.inj hrl)).1
      exact ⟨r, hr, Prod.ext hkind rfl, hnone⟩
    · cases hrl
  · rintro ⟨r, hr, hkey, hnone⟩
    obtain ⟨rfl, rfl⟩ := Prod.mk.inj hkey
    exact ⟨(r.logical, ()), List.mem_filterMap.2 ⟨r, hr, by simp [hnone]⟩, rfl⟩

/-- A call that succeeds finds its reference registered, or registers it. -/
theorem register_eq_ok {fs : FileSystem} {index : AssetIndex} {c : AssetCatalog} (hc : c.Coherent)
    {kind : AssetKind} {reference scene : String} {token : AssetToken} {warnings : List ExportWarning}
    (h : (c.register fs index kind reference scene).2 = .ok (token, warnings)) :
    (c.register fs index kind reference scene).1.Coherent ∧
      ((∃ r ∈ c.registrations, r.key = (kind, Text.trim reference) ∧ token = Registration.token r ∧ warnings = [] ∧
          (c.register fs index kind reference scene).1 = c) ∨
        ∃ r : Registration, r.key = (kind, Text.trim reference) ∧ r.key ∉ c.registrations.map (·.key) ∧
          token = Registration.token r ∧ warnings = r.warnings scene ∧
          (c.register fs index kind reference scene).1.registrations = c.registrations ++ [r]) := by
  have hunknown (hnew : c.find? kind (Text.trim reference) = none) :
      ((kind, Text.trim reference) : AssetKind × String) ∉ c.registrations.map (·.key) := by
    intro hmem
    obtain ⟨r, hr, hkey⟩ := List.mem_map.1 hmem
    exact find?_eq_none_iff.1 hnew r hr (Prod.mk.inj hkey)
  have hstep := registering fs index c kind reference scene
  generalize c.register fs index kind reference scene = after at h hstep ⊢
  cases hstep with
  | @known r hr =>
    obtain ⟨rfl, rfl⟩ := Prod.mk.inj (Except.ok.inj h)
    obtain ⟨hmem, hkey⟩ := (find?_eq_some_iff hc.keys_nodup).1 hr
    exact ⟨hc, .inl ⟨r, hmem, hkey, rfl, rfl, rfl⟩⟩
  | missing hnew =>
    obtain ⟨rfl, rfl⟩ := Prod.mk.inj (Except.ok.inj h)
    exact ⟨hc.add hnew (by simp) (by simp),
      .inr ⟨⟨kind, Text.trim reference, none⟩, rfl, hunknown hnew, rfl, rfl, rfl⟩⟩
  | unread => cases h
  | @found found u hnew hfound hu =>
    obtain ⟨rfl, rfl⟩ := Prod.mk.inj (Except.ok.inj h)
    obtain ⟨hcoherent, hregs, hentry⟩ := hc.aliasFor kind found.relative
    obtain ⟨hkind, hlogical, hrelative, halias, -⟩ := usageOf_eq_ok hfound hu
    have hread : u.step = found.step ∧ u.fallback = found.fallback := by
      obtain ⟨bytes, -, hu⟩ := bind_eq_ok.1 hu
      obtain rfl := pure_eq_ok.1 hu
      exact ⟨rfl, rfl⟩
    have hnew' : (c.aliasFor kind found.relative).2.find? kind (Text.trim reference) = none := by
      rw [find?_eq_none_iff, hregs]
      exact find?_eq_none_iff.1 hnew
    refine ⟨hcoherent.add hnew' ?_ ?_, .inr ⟨⟨kind, Text.trim reference, some u⟩, rfl, hunknown hnew, ?_, ?_, ?_⟩⟩
    · intro v hv
      obtain rfl := Option.some.inj hv
      rw [hrelative, halias]
      exact ⟨hkind, hlogical, hkind ▸ hentry⟩
    · intro v hv
      obtain rfl := Option.some.inj hv
      rw [hread.1, hread.2]
      exact AssetIndex.resolve_fallback hfound
    · exact congrArg AssetToken.alias_ halias.symm
    · simp only [Registration.warnings, hread.2]
    · exact congrArg (· ++ [_]) hregs

end AssetCatalog

/-! ## Sequences of calls -/

/-- A reference that a scene registers, with the files that it is looked for among. -/
structure Call where
  fs : FileSystem
  index : AssetIndex
  kind : AssetKind
  reference : String
  scene : String

def Call.key (a : Call) : AssetKind × String := (a.kind, Text.trim a.reference)

/-- What a sequence of calls leaves: the catalog, the token of each call, and the warnings. -/
structure Ledger where
  catalog : AssetCatalog := {}
  tokens : List AssetToken := []
  warnings : List ExportWarning := []

/-- One more call. -/
def Ledger.enter (l : Ledger) (a : Call) : Except Failure Ledger := do
  let (token, warnings) ← (l.catalog.register a.fs a.index a.kind a.reference a.scene).2
  return {
    catalog := (l.catalog.register a.fs a.index a.kind a.reference a.scene).1
    tokens := l.tokens ++ [token]
    warnings := l.warnings ++ warnings }

/-- The ledger of calls one after another, from the empty catalog. -/
def ledger (calls : List Call) : Except Failure Ledger := calls.foldlM Ledger.enter {}

namespace Ledger

theorem enter_eq_ok {l l' : Ledger} (hc : l.catalog.Coherent) {a : Call} (h : l.enter a = .ok l') :
    l'.catalog.Coherent ∧
      ((∃ r ∈ l.catalog.registrations, r.key = a.key ∧ l' = { l with tokens := l.tokens ++ [AssetCatalog.Registration.token r] }) ∨
        ∃ r : Registration, r.key = a.key ∧ r.key ∉ l.catalog.registrations.map (·.key) ∧
          l'.catalog.registrations = l.catalog.registrations ++ [r] ∧ l'.tokens = l.tokens ++ [AssetCatalog.Registration.token r] ∧
          l'.warnings = l.warnings ++ r.warnings a.scene) := by
  obtain ⟨⟨token, warnings⟩, hr, hl⟩ := bind_eq_ok.1 h
  obtain rfl := pure_eq_ok.1 hl
  obtain ⟨hcoherent, hold | hnew⟩ := AssetCatalog.register_eq_ok hc hr
  · obtain ⟨r, hmem, hkey, rfl, rfl, hcatalog⟩ := hold
    refine ⟨hcoherent, .inl ⟨r, hmem, hkey, ?_⟩⟩
    rw [hcatalog, List.append_nil]
  · obtain ⟨r, hkey, hno, rfl, rfl, hregs⟩ := hnew
    exact ⟨hcoherent, .inr ⟨r, hkey, hno, hregs, rfl, rfl⟩⟩

/-- What holds of a ledger while its calls succeed. -/
structure Entered (calls : List Call) (l : Ledger) : Prop where
  coherent : l.catalog.Coherent
  mem_keys_iff : ∀ k, k ∈ l.catalog.registrations.map (·.key) ↔ k ∈ calls.map (·.key)
  tokens_eq : l.tokens = calls.map fun a => l.catalog.lookup a.kind a.reference
  warnings_eq : l.warnings = l.catalog.registrations.flatMap fun r =>
    (calls.find? (·.key = r.key)).toList.flatMap fun a => r.warnings a.scene

theorem entered_nil : Entered [] {} := by
  constructor
  · exact ⟨.nil, .nil, .nil, by simp, by simp⟩
  · simp
  · rfl
  · rfl

/-- What stands for a reference that is registered is not changed by later registrations. -/
theorem lookup_eq_of_extended {c c' : AssetCatalog} (h : c.Coherent) (h' : c'.Coherent)
    (hp : c.registrations <+: c'.registrations) {a : Call} (ha : a.key ∈ c.registrations.map (·.key)) :
    c'.lookup a.kind a.reference = c.lookup a.kind a.reference := by
  obtain ⟨r, hr, hkey⟩ := List.mem_map.1 ha
  rw [h.lookup_eq hr hkey, h'.lookup_eq (hp.subset hr) hkey]

theorem Entered.enter {calls : List Call} {l l' : Ledger} (h : Entered calls l) {a : Call}
    (ha : l.enter a = .ok l') :
    Entered (calls ++ [a]) l' ∧ l.catalog.registrations <+: l'.catalog.registrations := by
  have hfirst (r : Registration) (hr : r ∈ l.catalog.registrations) :
      (calls ++ [a]).find? (·.key = r.key) = calls.find? (·.key = r.key) := by
    obtain ⟨b, hb, hkey⟩ := List.mem_map.1 ((h.mem_keys_iff r.key).1 (List.mem_map_of_mem hr))
    have hsome : (calls.find? (·.key = r.key)).isSome = true := by
      rw [List.find?_isSome]
      exact ⟨b, hb, by simpa using hkey⟩
    rw [List.find?_append, Option.or_of_isSome hsome]
  have hwarnings : l.warnings = l.catalog.registrations.flatMap fun r =>
      ((calls ++ [a]).find? (·.key = r.key)).toList.flatMap fun a => r.warnings a.scene := by
    rw [h.warnings_eq]
    apply List.flatMap_congr
    intro r hr
    rw [hfirst r hr]
  obtain ⟨hcoherent, hold | hnew⟩ := enter_eq_ok h.coherent ha
  · obtain ⟨r, hr, hkey, rfl⟩ := hold
    refine ⟨⟨hcoherent, ?_, ?_, hwarnings⟩, List.prefix_rfl⟩
    · intro k
      rw [List.map_append, List.mem_append, ← h.mem_keys_iff, List.map_cons, List.map_nil, List.mem_singleton]
      constructor
      · exact .inl
      · rintro (hk | rfl)
        · exact hk
        · exact hkey ▸ List.mem_map_of_mem hr
    · rw [List.map_append, List.map_cons, List.map_nil, ← h.tokens_eq, h.coherent.lookup_eq hr hkey]
  · obtain ⟨r, hkey, hno, hregs, htokens, hws⟩ := hnew
    have hprefix : l.catalog.registrations <+: l'.catalog.registrations := ⟨[r], hregs.symm⟩
    have hr : r ∈ l'.catalog.registrations := by
      rw [hregs]
      simp
    refine ⟨⟨hcoherent, ?_, ?_, ?_⟩, hprefix⟩
    · intro k
      rw [hregs, List.map_append, List.mem_append, List.map_append, List.mem_append, h.mem_keys_iff, List.map_cons,
        List.map_nil, List.map_cons, List.map_nil, hkey]
    · rw [htokens, h.tokens_eq, List.map_append, List.map_cons, List.map_nil, hcoherent.lookup_eq hr hkey]
      congr 1
      apply List.map_congr_left
      intro b hb
      exact (lookup_eq_of_extended h.coherent hcoherent hprefix
        ((h.mem_keys_iff b.key).2 (List.mem_map_of_mem hb))).symm
    · -- the call is the first one with its key
      have hnone : calls.find? (·.key = r.key) = none := by
        rw [List.find?_eq_none]
        intro b hb hbkey
        exact hno ((h.mem_keys_iff r.key).2 (of_decide_eq_true hbkey ▸ List.mem_map_of_mem hb))
      have hcall : (calls ++ [a]).find? (·.key = r.key) = some a := by
        rw [List.find?_append, hnone, Option.none_or]
        simp [hkey]
      rw [hws, hwarnings, hregs, List.flatMap_append, List.flatMap_cons, List.flatMap_nil, hcall,
        Option.toList_some, List.flatMap_cons, List.flatMap_nil, List.append_nil, List.append_nil]

/-- Calls that succeed one after another keep what holds of their ledger. -/
theorem Entered.foldlM {before after : List Call} {m l : Ledger} (h : Entered before m)
    (hl : after.foldlM Ledger.enter m = .ok l) :
    Entered (before ++ after) l ∧ m.catalog.registrations <+: l.catalog.registrations := by
  induction after generalizing before m with
  | nil =>
    rw [List.foldlM_nil, pure_eq_ok] at hl
    subst hl
    rw [List.append_nil]
    exact ⟨h, List.prefix_rfl⟩
  | cons a after ih =>
    rw [List.foldlM_cons, bind_eq_ok] at hl
    obtain ⟨m', ha, hl⟩ := hl
    obtain ⟨hm', hprefix⟩ := h.enter ha
    obtain ⟨hentered, hrest⟩ := ih hm' hl
    rw [List.append_assoc] at hentered
    exact ⟨hentered, hprefix.trans hrest⟩

end Ledger

end StoryPress
