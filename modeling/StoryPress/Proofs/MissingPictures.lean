import StoryPress.Proofs.Declared
import StoryPress.Proofs.RoutePlans
import StoryPress.Proofs.Slugs

/-!
# Pictures that are missing

A picture without a file is shown under a tag that is made from its reference. Aliases are kept apart from each other,
but not from tags: the reference to a missing picture can have the words of the alias of another one.

* `rawTag_eq_iff`: when the tag of a reference is a given slug;
* `AssetCatalog.words_alias`: the words of an alias;
* `ScriptPlan.mem_tokens_of_shown`: what a script shows stands for a picture of its scenes;
* `ScriptPlan.missing_shown`: when a missing picture is shown under an alias.
-/

namespace StoryPress

/-- What the tag of a reference is made from: the reference without the extension of a picture. -/
def referenceStem (reference : String) : String :=
  let reference := Text.trim reference
  match Text.splitLast? '.' reference with
  | some (stem, ext) => if isImageExtension ext then stem else reference
  | none => reference

theorem rawTag_eq (reference : String) : rawTag reference =
    if (Naming.slug (referenceStem reference)).isEmpty then missingTag
    else Naming.slug (referenceStem reference) := by
  unfold rawTag referenceStem
  cases h : Text.splitLast? '.' (Text.trim reference) <;> simp only [h]

/-- A tag is a given slug if and only if the reference has its words. -/
theorem rawTag_eq_iff {reference name : String} (hslug : Naming.slug name = name) (hne : name ≠ "")
    (hmissing : name ≠ missingTag) :
    rawTag reference = name ↔ Naming.words (referenceStem reference).toList = Naming.words name.toList := by
  rw [rawTag_eq, ← Naming.slug_eq_iff, hslug]
  split
  · next hempty =>
    rw [String.isEmpty_iff.1 hempty]
    exact iff_of_false hmissing.symm hne.symm
  · exact Iff.rfl

/-! ## Words of aliases -/

namespace AssetCatalog

open Naming

/-- What follows the kind in the alias that a file asks for. -/
def aliasTail (relative : String) : String :=
  if (aliasStem relative).isEmpty then "asset" else aliasStem relative

theorem wantedAlias_eq (kind : AssetKind) (relative : String) :
    wantedAlias kind relative = aliasLead kind ++ "_" ++ aliasTail relative := rfl

theorem slug_aliasLead (kind : AssetKind) : slug (aliasLead kind) = aliasLead kind := by
  cases kind <;> decide

theorem slug_aliasTail (relative : String) : slug (aliasTail relative) = aliasTail relative := by
  unfold aliasTail
  split
  · decide
  · exact slug_slug _

theorem aliasTail_ne_empty (relative : String) : aliasTail relative ≠ "" := by
  unfold aliasTail
  split
  · decide
  · next hne => exact mt String.isEmpty_iff.2 hne

theorem toList_wantedAlias (kind : AssetKind) (relative : String) :
    (wantedAlias kind relative).toList = (aliasLead kind).toList ++ '_' :: (aliasTail relative).toList := by
  simp [wantedAlias_eq]

theorem slug_wantedAlias (kind : AssetKind) (relative : String) :
    slug (wantedAlias kind relative) = wantedAlias kind relative := by
  have hlead : slug (aliasLead kind) ≠ "" := by cases kind <;> decide
  have htail : slug (aliasTail relative) ≠ "" := by
    rw [slug_aliasTail]
    exact aliasTail_ne_empty relative
  rw [slug_append (by decide) (toList_wantedAlias kind relative) hlead htail, slug_aliasLead, slug_aliasTail]
  rfl

theorem words_wantedAlias (kind : AssetKind) (relative : String) :
    words (wantedAlias kind relative).toList = (aliasLead kind).toList :: words (aliasTail relative).toList := by
  have hlead : words (aliasLead kind).toList = [(aliasLead kind).toList] := by cases kind <;> decide
  rw [toList_wantedAlias, words_append (by decide), hlead, List.singleton_append]

/-- The words of an alias: the kind of its file, the words of the path, and a number unless it is the first one. -/
def aliasWords (kind : AssetKind) (relative : String) (n : Nat) : List (List Char) :=
  (aliasLead kind).toList :: (words (aliasTail relative).toList ++ numberWords n)

variable {c : AssetCatalog} {u : AssetUsage}

/-- An alias is a slug, and which words it has. -/
theorem words_alias (h : c.Registered) (hu : u ∈ c.usages) :
    slug u.alias_ = u.alias_ ∧ ∃ n, words u.alias_.toList = aliasWords u.kind u.relative n := by
  obtain ⟨r, hr, hru⟩ := mem_usages hu
  obtain ⟨n, hn⟩ := h.numbered.usages r hr u hru
  have hne : wantedAlias u.kind u.relative ≠ "" := by
    intro hempty
    have hwords := words_wantedAlias u.kind u.relative
    rw [hempty] at hwords
    cases hwords
  rw [hn]
  refine ⟨slug_candidate (slug_wantedAlias _ _) hne n, n, ?_⟩
  rw [words_candidate, words_wantedAlias]
  rfl

/-- The first word of an alias is its kind. -/
theorem head?_words_alias (h : c.Registered) (hu : u ∈ c.usages) :
    (words u.alias_.toList).head? = some (aliasLead u.kind).toList := by
  obtain ⟨-, n, hwords⟩ := words_alias h hu
  rw [hwords, aliasWords, List.head?_cons]

/-- The tag of a reference is the alias of a file if and only if it has the words of that alias. -/
theorem rawTag_eq_alias_iff (h : c.Registered) (hu : u ∈ c.usages) (reference : String) :
    rawTag reference = u.alias_ ↔ words (referenceStem reference).toList = words u.alias_.toList := by
  have hhead := head?_words_alias h hu
  apply rawTag_eq_iff (words_alias h hu).1
  · intro hempty
    rw [hempty] at hhead
    cases hhead
  · intro hmissing
    rw [hmissing] at hhead
    revert hhead
    cases u.kind <;> decide

end AssetCatalog

/-! ## Scripts -/

namespace AssetCatalog

variable {c : AssetCatalog} {kind : AssetKind} {reference written : String}

/-- A reference without a file stands for itself, trimmed. -/
theorem trim_of_lookup (h : c.lookup kind written = .raw reference) : Text.trim written = reference := by
  unfold lookup at h
  dsimp only at h
  split at h
  · next r hr =>
    have hlogical : r.kind = kind ∧ r.logical = Text.trim written := by simpa using List.find?_some hr
    unfold Registration.token at h
    split at h
    · cases h
    · rw [← hlogical.2]
      exact AssetToken.raw.inj h
  · exact AssetToken.raw.inj h

theorem lookup_trim (c : AssetCatalog) (kind : AssetKind) (written : String) :
    c.lookup kind (Text.trim written) = c.lookup kind written := by
  rw [lookup, lookup, Text.trim_trim]

end AssetCatalog

namespace ScriptPlan

variable {catalog : AssetCatalog} {labels : OrderedMap String String} {p : ScriptPlan}

/-- What a script shows stands for a picture of its scenes. -/
theorem mem_tokens_of_shown {l : Line} (hl : l ∈ p.lines catalog labels) {token : AssetToken}
    (h : l.statement.shown? = some token) : token ∈ p.tokens catalog := by
  have hblocks {lines : List Line} (hlines : lines ∈ p.blocks catalog labels) (hl : l ∈ lines) :
      token ∈ p.tokens catalog := by
    have hshown : token ∈ (p.blocks catalog labels).flatMap fun lines => lines.filterMap (·.statement.shown?) :=
      List.mem_flatMap.2 ⟨lines, hlines, List.mem_filterMap.2 ⟨l, hl, h⟩⟩
    rwa [shown_blocks] at hshown
  have hsections : p.sections catalog labels = p.declaring catalog labels ++ p.entrySections ++
      if p.perSceneModules then [] else p.blocks catalog labels := rfl
  obtain ⟨lines, hlines, hl⟩ := List.mem_flatten.1 hl
  rw [hsections] at hlines
  rcases List.mem_append.1 hlines with hlines | hlines
  · rcases List.mem_append.1 hlines with hlines | hlines
    · rcases List.mem_append.1 hlines with hlines | hlines
      · have hnone := forall_declaring (P := fun s => s.shown? = none) (fun _ _ => rfl) lines hlines l hl
        rw [hnone] at h
        cases h
      · have hnone := forall_entrySections Statement.asksOfNames_shown (fun _ _ => rfl) (fun _ _ => rfl)
          (fun _ _ => rfl) lines hlines l hl
        rw [hnone] at h
        cases h
    · split at hlines
      · cases hlines
      · exact hblocks hlines hl
  · exact hblocks hlines hl

/-- What is shown under a tag was registered without a file, or not at all. -/
theorem lookup_of_shown {l : Line} (hl : l ∈ p.lines catalog labels) {reference : String}
    (h : l.statement.shown? = some (.raw reference)) : ∃ kind, catalog.lookup kind reference = .raw reference := by
  obtain ⟨s, -, hs⟩ := List.mem_flatMap.1 (mem_tokens_of_shown hl h)
  obtain ⟨node, -, hnode⟩ := List.mem_filterMap.1 hs
  obtain ⟨⟨kind, written⟩, -, hlookup⟩ := Option.map_eq_some_iff.1 hnode
  have htrimmed := AssetCatalog.trim_of_lookup hlookup
  refine ⟨kind, ?_⟩
  rw [← htrimmed, AssetCatalog.lookup_trim, htrimmed]
  exact hlookup

/-- What a script shows for missing pictures, beside the aliases of the files in use. -/
structure MissingShown (catalog : AssetCatalog) (labels : OrderedMap String String) (p : ScriptPlan) : Prop where
  /-- What is shown under a tag was registered without a file, or not at all. -/
  missing : ∀ l ∈ p.lines catalog labels, ∀ reference, l.statement.shown? = some (.raw reference) →
    ∃ kind, catalog.lookup kind reference = .raw reference
  /-- The first word of an alias is the kind of its file, then come the words of the path. -/
  alias_words : ∀ u ∈ catalog.usages, ∃ n,
    Naming.words u.alias_.toList = AssetCatalog.aliasWords u.kind u.relative n
  /-- A missing picture is shown as a file in use if and only if its reference has the words of the alias. -/
  shown_as_iff : ∀ l ∈ p.lines catalog labels, ∀ reference, l.statement.shown? = some (.raw reference) →
    ∀ u ∈ catalog.usages, (l.statement.tag? = some u.alias_ ↔
      Naming.words (referenceStem reference).toList = Naming.words u.alias_.toList)
  /-- No missing picture is, whose reference begins with another word than that of a kind. -/
  apart : ∀ l ∈ p.lines catalog labels, ∀ reference, l.statement.shown? = some (.raw reference) →
    (∀ kind, (Naming.words (referenceStem reference).toList).head? ≠ some (AssetCatalog.aliasLead kind).toList) →
      ∀ u ∈ catalog.usages, l.statement.tag? ≠ some u.alias_

/-- In every script for a catalog that registrations built, a missing picture is shown under the alias of a file just
when its reference has the words of that alias. -/
theorem missing_shown (h : catalog.Registered) (labels : OrderedMap String String) (p : ScriptPlan) :
    MissingShown catalog labels p := by
  have hiff : ∀ l ∈ p.lines catalog labels, ∀ reference, l.statement.shown? = some (.raw reference) →
      ∀ u ∈ catalog.usages, (l.statement.tag? = some u.alias_ ↔
        Naming.words (referenceStem reference).toList = Naming.words u.alias_.toList) := by
    intro l _ reference hshown u hu
    rw [Statement.tag?, hshown, Option.map_some, Option.some_inj]
    exact AssetCatalog.rawTag_eq_alias_iff h hu reference
  refine ⟨fun l hl _ => lookup_of_shown hl, fun u hu => (AssetCatalog.words_alias h hu).2, hiff, ?_⟩
  intro l hl reference hshown hother u hu htag
  have hwords := (hiff l hl reference hshown u hu).1 htag
  apply hother u.kind
  rw [hwords]
  exact AssetCatalog.head?_words_alias h hu

open Preparation (forestFiles)

/-- A background in use, and a missing one that is named like its alias. -/
def forestCatalog : AssetCatalog :=
  let index := AssetIndex.build forestFiles ⟨"assets"⟩
  let found := (({} : AssetCatalog).register forestFiles index .background "forest" "s").1
  (found.register forestFiles index .background "bg forest" "s").1

theorem registered_forestCatalog : forestCatalog.Registered :=
  .register (.register .empty forestFiles _ .background "forest" "s") forestFiles _ .background "bg forest" "s"

/-- A scene with both backgrounds, and a third one that is missing as well. -/
def forestPlan : ScriptPlan where
  scenes := [⟨"s", "s", none, [.background "forest", .background "bg forest", .background "cave.png"]⟩]

theorem missing_lines_forestPlan :
    (⟨1, .scene (.raw "bg forest")⟩ : Line) ∈ forestPlan.lines forestCatalog ∅ ∧
      (⟨1, .scene (.raw "cave.png")⟩ : Line) ∈ forestPlan.lines forestCatalog ∅ := by
  decide +kernel

/-- The missing background is shown as the one in use. -/
theorem missing_shown_as_forest :
    ¬∀ l ∈ forestPlan.lines forestCatalog ∅, ∀ reference, l.statement.shown? = some (.raw reference) →
      ∀ u ∈ forestCatalog.usages, l.statement.tag? ≠ some u.alias_ := by
  have halias : "bg_forest" ∈ forestCatalog.usages.map (·.alias_) := by decide +kernel
  have htag : (Statement.scene (.raw "bg forest")).tag? = some "bg_forest" := by decide
  intro hall
  obtain ⟨u, hu, hname⟩ := List.mem_map.1 halias
  exact hall _ missing_lines_forestPlan.1 "bg forest" rfl u hu (htag.trans (congrArg some hname.symm))

/-- The other missing background has a tag of its own. -/
theorem cave_not_shown_as_forest :
    forestCatalog.Registered ∧ MissingShown forestCatalog ∅ forestPlan ∧
      (⟨1, .scene (.raw "cave.png")⟩ : Line) ∈ forestPlan.lines forestCatalog ∅ ∧
      ∀ u ∈ forestCatalog.usages, (Statement.scene (.raw "cave.png")).tag? ≠ some u.alias_ := by
  have hshown := missing_shown registered_forestCatalog ∅ forestPlan
  have hline := missing_lines_forestPlan.2
  refine ⟨registered_forestCatalog, hshown, hline, hshown.apart _ hline "cave.png" rfl ?_⟩
  intro kind
  cases kind <;> decide

end ScriptPlan

end StoryPress
