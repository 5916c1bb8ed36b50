import StoryPress.Proofs.Spellings

/-!
# Portraits by their own names

The index reads the character of a portrait from its directory and the expression from its stem. A reference is read
as one slug that is cut at its first underscore. The two agree on `directory:stem` if and only if the directory is
one word: a character of several words is asked for by no reference.

* `ofReference_own`: what the own name of a portrait asks for;
* `no_underscore_of_ofReference`: which characters a reference can ask for;
* `reached_by_own_name_iff`: which portraits are reached by their own names.
-/

namespace StoryPress

/-! ## What a reference asks for -/

namespace PortraitKey

/-- No reference asks for a character of several words. -/
theorem no_underscore_of_ofReference {reference : String} {key : PortraitKey}
    (h : ofReference reference = some key) : '_' ∉ key.character.toList := by
  obtain ⟨tail, -, htail⟩ := Option.bind_eq_some_iff.1 h
  dsimp only at htail
  split at htail
  · cases htail
  · obtain rfl := Option.some.inj htail
    exact no_underscore_of_ofSlug _

/-- The own name of a portrait is read as one slug. -/
theorem ofReference_own {directory stem : String} (hslash : '/' ∉ (directory ++ ":" ++ stem).toList)
    (hperiod : '.' ∉ (directory ++ ":" ++ stem).toList) (hdirectory : Naming.slug directory ≠ "")
    (hstem : Naming.slug stem ≠ "") :
    ofReference (directory ++ ":" ++ stem) =
      some (ofSlug (Naming.slug directory ++ "_" ++ Naming.slug stem)) := by
  have hslug : Spelling.keySlug (directory ++ ":" ++ stem) = Naming.slug directory ++ "_" ++ Naming.slug stem := by
    have hcolon : Char.isAlphanum ':' = false := by decide
    rw [Spelling.keySlug_eq, Naming.slug_append hcolon (by simp) hdirectory hstem]
  have hsegments : ((Text.pieces '/' (directory ++ ":" ++ stem)).filter fun s => !s.isEmpty) =
      [directory ++ ":" ++ stem] := by
    rw [Text.pieces_eq_singleton hslash]
    simp
  rw [Spelling.ofReference_of_segments hperiod (.inl hsegments), hslug]
  rw [hslug]
  exact Spelling.two_words_ne_empty _ _

end PortraitKey

/-! ## Portraits in directories of their own -/

namespace AssetIndex

variable {index : AssetIndex} {a : IndexedAsset}

theorem found_injective {b : IndexedAsset} {step : ResolutionStep} (h : found a step = found b step) : a = b := by
  cases a
  cases b
  simpa [found] using h

/-- A match by character and expression is a picture of the index with the key asked for. -/
theorem exists_key_of_matchCharacter {reference : String}
    (h : index.matchCharacter reference = some (found a .characterExpression)) :
    ∃ key, PortraitKey.ofReference reference = some key ∧ a.portrait? = some key := by
  unfold matchCharacter at h
  split at h
  · cases h
  · next key hkey =>
    refine ⟨key, hkey, ?_⟩
    split at h
    · next b hb =>
      obtain rfl := found_injective (Option.some.inj h)
      simpa using List.find?_some hb
    · split at h
      · cases h
      · obtain ⟨b, -, hb⟩ := Option.map_eq_some_iff.1 h
        simp [found] at hb

/-- A reference finds a picture with the character and the expression of `a`, and finds it as such. -/
def Reaches (index : AssetIndex) (reference : String) (a : IndexedAsset) : Prop :=
  ∃ b ∈ index.list, index.matchCharacter reference = some (found b .characterExpression) ∧ b.portrait? = a.portrait?

/-- A portrait in a directory of its own, below a directory of characters. -/
structure Nested (a : IndexedAsset) (directory : String) : Prop where
  category : a.category = .character
  segments : ∃ front file, front ≠ [] ∧ a.segments = front ++ [directory, file]

theorem Nested.portrait?_eq {directory : String} (h : Nested a directory) :
    a.portrait? = some ⟨Naming.slug directory, Naming.slug a.fileStem⟩ := by
  obtain ⟨front, file, hne, hsegments⟩ := h.segments
  obtain ⟨before, last, rfl⟩ : ∃ before last, front = before ++ [last] :=
    ⟨_, _, (List.dropLast_append_getLast hne).symm⟩
  have hfile : a.fileName = file := by
    simp [IndexedAsset.fileName, hsegments]
  rw [IndexedAsset.portrait?, if_pos h.category, PortraitKey.ofSegments, hsegments, IndexedAsset.fileStem, hfile]
  simp

theorem Nested.no_slash {directory : String} (h : Nested a directory) : '/' ∉ directory.toList := by
  obtain ⟨front, file, -, hsegments⟩ := h.segments
  have hmem : directory ∈ a.segments := by simp [hsegments]
  exact Text.not_mem_of_mem_pieces hmem

theorem no_slash_fileStem (a : IndexedAsset) : '/' ∉ a.fileStem.toList := by
  have hfile : '/' ∉ a.fileName.toList := by
    have hlast := List.getLast?_eq_some_getLast (Text.pieces_ne_nil '/' a.relative)
    rw [IndexedAsset.fileName, IndexedAsset.segments, hlast, Option.getD_some]
    exact Text.not_mem_of_mem_pieces (List.getLast_mem _)
  unfold IndexedAsset.fileStem Text.splitLast?
  cases hcut : Text.cutLast? '.' a.fileName.toList with
  | none => exact hfile
  | some p =>
    rw [(Text.cutLast?_eq_some hcut).1] at hfile
    simp only [List.mem_append, not_or] at hfile
    simpa using hfile.1

theorem no_underscore_of_reaches {reference : String} {key : PortraitKey} (h : index.Reaches reference a)
    (ha : a.portrait? = some key) : '_' ∉ key.character.toList := by
  obtain ⟨b, -, hmatch, hshown⟩ := h
  obtain ⟨asked, hasked, hb⟩ := exists_key_of_matchCharacter hmatch
  have hkey : asked = key := Option.some.inj (hb.symm.trans (hshown.trans ha))
  exact hkey ▸ PortraitKey.no_underscore_of_ofReference hasked

/-- A portrait is reached by its own name, and by any reference at all, if and only if the name of its directory is
one word. -/
theorem reached_by_own_name_iff {directory : String} (ha : a ∈ index.list) (hnested : Nested a directory)
    (hdirectory : '.' ∉ directory.toList) (hstem : '.' ∉ a.fileStem.toList)
    (hcharacter : Naming.slug directory ≠ "") (hexpression : Naming.slug a.fileStem ≠ "") :
    (index.Reaches (directory ++ ":" ++ a.fileStem) a ↔ '_' ∉ (Naming.slug directory).toList) ∧
      ((∃ reference, index.Reaches reference a) ↔ '_' ∉ (Naming.slug directory).toList) := by
  have hkey := hnested.portrait?_eq
  have hreached : '_' ∉ (Naming.slug directory).toList → index.Reaches (directory ++ ":" ++ a.fileStem) a := by
    intro hword
    have hslash : '/' ∉ (directory ++ ":" ++ a.fileStem).toList := by
      simp [hnested.no_slash, no_slash_fileStem a]
    have hperiod : '.' ∉ (directory ++ ":" ++ a.fileStem).toList := by
      simp [hdirectory, hstem]
    have hasked := PortraitKey.ofReference_own hslash hperiod hcharacter hexpression
    rw [PortraitKey.ofSlug_append hword] at hasked
    obtain ⟨b, hb, hmatch, hshown⟩ := matchCharacter_of_key hasked ha hkey
    exact ⟨b, hb, hmatch, hshown.trans hkey.symm⟩
  have hword {reference : String} (h : index.Reaches reference a) : '_' ∉ (Naming.slug directory).toList :=
    (no_underscore_of_reaches h hkey :)
  exact ⟨⟨hword, hreached⟩, fun ⟨_, h⟩ => hword h, fun hone => ⟨_, hreached hone⟩⟩

/-- A portrait of a character with a name of two words. -/
def maryAnn : IndexedAsset := ⟨"characters/Mary Ann/happy.png", ⟨"assets/characters/Mary Ann/happy.png"⟩⟩

theorem not_reached_of_two_words :
    let index := ofEntries ⟨"assets"⟩ [(maryAnn.relative, maryAnn.path)]
    maryAnn ∈ index.list ∧ Nested maryAnn "Mary Ann" ∧ maryAnn.fileStem = "happy" ∧
      Naming.slug "Mary Ann" = "mary_ann" ∧ Naming.slug "happy" = "happy" ∧
      index.matchCharacter "Mary Ann:happy" = none ∧ ¬∃ reference, index.Reaches reference maryAnn := by
  intro index
  obtain ⟨hmem, hcategory, hsegments, hstem, hcharacter, hexpression, hnone⟩ :
      maryAnn ∈ index.list ∧ maryAnn.category = .character ∧
        maryAnn.segments = ["characters"] ++ ["Mary Ann", "happy.png"] ∧ maryAnn.fileStem = "happy" ∧
        Naming.slug "Mary Ann" = "mary_ann" ∧ Naming.slug "happy" = "happy" ∧
        index.matchCharacter "Mary Ann:happy" = none := by
    decide +kernel
  have hnested : Nested maryAnn "Mary Ann" := ⟨hcategory, _, _, by simp, hsegments⟩
  have hreached := reached_by_own_name_iff hmem hnested (by decide) (by rw [hstem]; decide)
    (by rw [hcharacter]; decide) (by rw [hstem, hexpression]; decide)
  refine ⟨hmem, hnested, hstem, hcharacter, hexpression, hnone, ?_⟩
  rw [hreached.2, hcharacter]
  decide

end AssetIndex

end StoryPress
