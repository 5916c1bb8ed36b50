import StoryPress.Proofs.Labels
import StoryPress.Proofs.Pictures
import StoryPress.Proofs.Slugs

/-!
# Spellings of a portrait

A character and an expression are written `alice:happy`, `alice/happy`, `alice_happy` or `alice happy`. Each is
looked for as a file and by its stem before it is looked for as a portrait.

* `Spelling.normalize_text`, `Spelling.ofReference_bare`: what is looked for, and the key that is asked for;
* `Spelling.resolves_iff`: a spelling finds a picture of its character with its expression unless an early step
  finds something else;
* `Spelling.slash_finds_other_character`: an early step can find the picture of another character.
-/

namespace StoryPress

/-! ## Words -/

/-- Small letters and digits, at least one. -/
structure IsWord (s : String) : Prop where
  ne_empty : s ≠ ""
  chars : ∀ c ∈ s.toList, c.isLower = true ∨ c.isDigit = true

theorem isWord_of_all {s : String} (hne : s ≠ "")
    (h : s.toList.all (fun c => c.isLower || c.isDigit) = true) : IsWord s :=
  ⟨hne, fun c hc => by simpa using List.all_eq_true.1 h c hc⟩

/-- The characters of spelled words. -/
def SpellingChar (c : Char) : Prop := c.isLower = true ∨ c.isDigit = true ∨ c = ':' ∨ c = '/' ∨ c = '_' ∨ c = ' '

/-- No other character is in a word. -/
theorem IsWord.not_mem {s : String} (h : IsWord s) {c : Char}
    (hc : c.toNat < 48 ∨ 57 < c.toNat ∧ c.toNat < 97 ∨ 122 < c.toNat) : c ∉ s.toList := by
  intro hmem
  have hn := Naming.WordChar.toNat (h.chars c hmem)
  omega

theorem SpellingChar.isSmall {c : Char} (h : SpellingChar c) : Text.IsSmall c := by
  have hword (hc : Naming.WordChar c) : Text.IsSmall c := by
    have hn := hc.toNat
    exact ⟨by omega, hc.toLower_eq⟩
  rcases h with h | h | rfl | rfl | rfl | rfl
  · exact hword (.inl h)
  · exact hword (.inr h)
  all_goals exact ⟨by decide, by decide⟩

theorem SpellingChar.ne_period {c : Char} (h : SpellingChar c) : c ≠ '.' ∧ c ≠ '\\' := by
  constructor <;> (rintro rfl; revert h; simp [SpellingChar])

/-- The ways to write a character and an expression. -/
inductive Spelling where
  | colon
  | slash
  | underscore
  | space
deriving DecidableEq

namespace Spelling

def separator : Spelling → Char
  | colon => ':'
  | slash => '/'
  | underscore => '_'
  | space => ' '

def text (sp : Spelling) (character expression : String) : String :=
  character ++ String.singleton sp.separator ++ expression

/-- What is left of a spelling without the name of the asset root in front. -/
def bare (root : Path) (character expression : String) : Spelling → String
  | slash => if Reference.namesRoot root character then expression else slash.text character expression
  | sp => sp.text character expression

/-- The last segment of a spelling. -/
def stem (character expression : String) : Spelling → String
  | slash => expression
  | sp => sp.text character expression

variable {c e : String}

theorem toList_text (sp : Spelling) (c e : String) : (sp.text c e).toList = c.toList ++ sp.separator :: e.toList := by
  simp [text]

theorem spellingChar_text (hc : IsWord c) (he : IsWord e) (sp : Spelling) :
    ∀ ch ∈ (sp.text c e).toList, SpellingChar ch := by
  have hword {s : String} (hs : IsWord s) : ∀ ch ∈ s.toList, SpellingChar ch :=
    fun ch hch => (hs.chars ch hch).imp_right .inl
  intro ch hch
  rw [toList_text] at hch
  rcases List.mem_append.1 hch with hch | hch
  · exact hword hc ch hch
  · rcases List.mem_cons.1 hch with rfl | hch
    · cases sp <;> simp [SpellingChar, separator]
    · exact hword he ch hch

/-- Neither end of a spelling is white space, and no spelling begins with a slash or a period. -/
theorem ends_text (hc : IsWord c) (he : IsWord e) (sp : Spelling) :
    (∃ first rest, (sp.text c e).toList = first :: rest ∧ (first.isLower = true ∨ first.isDigit = true)) ∧
      ∃ last before, (sp.text c e).toList = before ++ [last] ∧ (last.isLower = true ∨ last.isDigit = true) := by
  rw [toList_text]
  constructor
  · cases hcs : c.toList with
    | nil => exact absurd (String.toList_injective (hcs.trans String.toList_empty.symm)) hc.ne_empty
    | cons first rest => exact ⟨first, _, rfl, hc.chars first (by simp [hcs])⟩
  · have hne : e.toList ≠ [] := fun h => he.ne_empty (String.toList_injective (h.trans String.toList_empty.symm))
    refine ⟨e.toList.getLast hne, c.toList ++ sp.separator :: e.toList.dropLast, ?_,
      he.chars _ (List.getLast_mem hne)⟩
    rw [List.append_assoc, List.cons_append, List.dropLast_append_getLast hne]

theorem not_blank_of_word {ch : Char} (h : ch.isLower = true ∨ ch.isDigit = true) : Text.isBlank ch = false := by
  have hn := Naming.WordChar.toNat h
  simp only [Text.isBlank, Bool.or_eq_false_iff, Bool.and_eq_false_iff, decide_eq_false_iff_not, beq_eq_false_iff_ne]
  omega

theorem trim_text (hc : IsWord c) (he : IsWord e) (sp : Spelling) : Text.trim (sp.text c e) = sp.text c e := by
  obtain ⟨⟨first, rest, hfirst, hword⟩, last, before, hlast, hword'⟩ := ends_text hc he sp
  have hleft : (sp.text c e).toList.dropWhile Text.isBlank = (sp.text c e).toList := by
    rw [hfirst, List.dropWhile_cons_of_neg (by simp [not_blank_of_word hword])]
  have hright : (sp.text c e).toList.reverse.dropWhile Text.isBlank = (sp.text c e).toList.reverse := by
    rw [hlast, List.reverse_append, List.reverse_singleton, List.singleton_append,
      List.dropWhile_cons_of_neg (by simp [not_blank_of_word hword'])]
  rw [Text.trim, Text.trimBoth, hleft, hright, List.reverse_reverse, String.ofList_toList]

/-- A spelling has at most one slash. -/
theorem count_text (hc : IsWord c) (he : IsWord e) (sp : Spelling) : (sp.text c e).toList.count '/' ≤ 1 := by
  have hword {s : String} (hs : IsWord s) : s.toList.count '/' = 0 :=
    List.count_eq_zero.2 (hs.not_mem (by decide))
  rw [toList_text, List.count_append, List.count_cons, hword hc, hword he]
  split <;> omega

theorem bare?_text (hc : IsWord c) (he : IsWord e) (sp : Spelling) :
    Reference.bare? (sp.text c e) = some (sp.text c e) := by
  have hchars := spellingChar_text hc he sp
  have hslashes : Text.mapChars (fun ch => if ch = '\\' then '/' else ch) (sp.text c e) = sp.text c e := by
    have hmap : (sp.text c e).toList.map (fun ch => if ch = '\\' then '/' else ch) = (sp.text c e).toList := by
      conv_rhs => rw [← List.map_id (sp.text c e).toList]
      exact List.map_congr_left fun ch hch => if_neg (hchars ch hch).ne_period.2
    rw [Text.mapChars, hmap, String.ofList_toList]
  have hlower : Text.lowerAscii (sp.text c e) = sp.text c e :=
    Text.lowerAscii_of_small fun ch hch => (hchars ch hch).isSmall
  -- addresses and schemes have two slashes
  have hstart : ∀ start ∈ Reference.networkStarts ++ Reference.schemes,
      Text.startsWith start (sp.text c e) = false := by
    intro start hmem
    have htwo : start.toList.count '/' = 2 := by
      revert start
      decide
    cases h : Text.startsWith start (sp.text c e) with
    | false => rfl
    | true =>
      have hcount := Text.count_le_of_startsWith h '/'
      have hone := count_text hc he sp
      omega
  have hnetwork : (Reference.networkStarts.any fun start => Text.startsWith start (sp.text c e)) = false := by
    rw [List.any_eq_false]
    intro start hmem
    simp [hstart start (List.mem_append_left _ hmem)]
  have hscheme : (Reference.schemes.find? fun start => Text.startsWith start (sp.text c e)) = none := by
    rw [List.find?_eq_none]
    intro start hmem
    simp [hstart start (List.mem_append_right _ hmem)]
  have hleading : Reference.dropLeading (sp.text c e).toList = (sp.text c e).toList := by
    obtain ⟨⟨first, rest, hfirst, hword⟩, -⟩ := ends_text hc he sp
    have hn := Naming.WordChar.toNat hword
    have hperiod : first ≠ '.' := by
      rintro rfl
      revert hn
      decide
    have hslash : first ≠ '/' := by
      rintro rfl
      revert hn
      decide
    rw [hfirst, Reference.dropLeading.eq_def]
    split
    · next heq => exact absurd (List.cons.inj heq).1 hperiod
    · next heq => exact absurd (List.cons.inj heq).1 hslash
    · rfl
  simp only [Reference.bare?, trim_text hc he, hslashes, hlower, hnetwork, hscheme, hleading, Bool.false_eq_true,
    if_false, String.ofList_toList]

theorem no_slash_text (hc : IsWord c) (he : IsWord e) {sp : Spelling} (hs : sp ≠ .slash) :
    '/' ∉ (sp.text c e).toList := by
  rw [toList_text, List.mem_append, List.mem_cons, not_or, not_or]
  refine ⟨hc.not_mem (by decide), ?_, he.not_mem (by decide)⟩
  cases sp with
  | slash => exact absurd rfl hs
  | colon | underscore | space => decide

theorem dropRoot_text (root : Path) (hc : IsWord c) (he : IsWord e) (sp : Spelling) :
    Reference.dropRoot root (sp.text c e) = sp.bare root c e := by
  by_cases hs : sp = .slash
  · subst hs
    have hsplit : Text.splitFirst? '/' (slash.text c e) = some (c, e) := by
      refine Text.splitFirst?_eq_some_iff.2 ⟨?_, hc.not_mem (by decide)⟩
      rw [toList_text]
      rfl
    simp only [Reference.dropRoot, hsplit, bare]
  · have hsplit : Text.splitFirst? '/' (sp.text c e) = none := by
      cases h : Text.splitFirst? '/' (sp.text c e) with
      | none => rfl
      | some p =>
        have hcs := (Text.splitFirst?_eq_some_iff.1 h).1
        exact absurd (by simp [hcs]) (no_slash_text hc he hs)
    have hbare : sp.bare root c e = sp.text c e := by
      cases sp with
      | slash => exact absurd rfl hs
      | colon | underscore | space => rfl
    rw [Reference.dropRoot, hsplit, hbare]

theorem stem_cases (c e : String) (sp : Spelling) :
    sp = .slash ∧ sp.stem c e = e ∨ sp ≠ .slash ∧ sp.stem c e = sp.text c e := by
  cases sp with
  | slash => exact .inl ⟨rfl, rfl⟩
  | colon | underscore | space => exact .inr ⟨nofun, rfl⟩

theorem bare_cases (root : Path) (c e : String) (sp : Spelling) :
    (sp = .slash ∧ Reference.namesRoot root c = true) ∧ sp.bare root c e = e ∨
      ¬(sp = .slash ∧ Reference.namesRoot root c = true) ∧ sp.bare root c e = sp.text c e := by
  cases sp with
  | slash =>
    by_cases h : Reference.namesRoot root c = true
    · exact .inl ⟨⟨rfl, h⟩, if_pos h⟩
    · exact .inr ⟨fun hn => h hn.2, if_neg h⟩
  | colon | underscore | space => exact .inr ⟨fun hn => (nomatch hn.1), rfl⟩

theorem spellingChar_bare (hc : IsWord c) (he : IsWord e) (root : Path) (sp : Spelling) :
    ∀ ch ∈ (sp.bare root c e).toList, SpellingChar ch := by
  rcases bare_cases root c e sp with ⟨-, hbare⟩ | ⟨-, hbare⟩
  · rw [hbare]
    exact fun ch hch => (he.chars ch hch).imp_right .inl
  · rw [hbare]
    exact spellingChar_text hc he sp

theorem spellingChar_stem (hc : IsWord c) (he : IsWord e) (sp : Spelling) :
    ∀ ch ∈ (sp.stem c e).toList, SpellingChar ch := by
  rcases stem_cases c e sp with ⟨-, hstem⟩ | ⟨-, hstem⟩
  · rw [hstem]
    exact fun ch hch => (he.chars ch hch).imp_right .inl
  · rw [hstem]
    exact spellingChar_text hc he sp

theorem no_period_bare (hc : IsWord c) (he : IsWord e) (root : Path) (sp : Spelling) :
    '.' ∉ (sp.bare root c e).toList :=
  fun hmem => (spellingChar_bare hc he root sp _ hmem).ne_period.1 rfl

theorem no_period_stem (hc : IsWord c) (he : IsWord e) (sp : Spelling) : '.' ∉ (sp.stem c e).toList :=
  fun hmem => (spellingChar_stem hc he sp _ hmem).ne_period.1 rfl

theorem text_ne_empty (sp : Spelling) (c e : String) : sp.text c e ≠ "" := by
  intro h
  have hchars := toList_text sp c e
  rw [h] at hchars
  simp at hchars

theorem stem_ne_empty (he : IsWord e) (sp : Spelling) : sp.stem c e ≠ "" := by
  rcases stem_cases c e sp with ⟨-, hstem⟩ | ⟨-, hstem⟩
  · rw [hstem]
    exact he.ne_empty
  · rw [hstem]
    exact text_ne_empty sp c e

/-! ## Keys of spellings -/

theorem slug_word {s : String} (h : IsWord s) : Naming.slug s = s :=
  Naming.slug_of_word ⟨mt String.toList_eq_nil_iff.1 h.ne_empty, h.chars⟩

/-- Two words with anything else between them make the slug of the two. -/
theorem slug_two_words (hc : IsWord c) (he : IsWord e) {s : String} {separator : Char}
    (hs : s.toList = c.toList ++ separator :: e.toList) (hsep : separator.isAlphanum = false) :
    Naming.slug s = c ++ "_" ++ e := by
  have hcne : Naming.slug c ≠ "" := by
    rw [slug_word hc]
    exact hc.ne_empty
  have hene : Naming.slug e ≠ "" := by
    rw [slug_word he]
    exact he.ne_empty
  rw [Naming.slug_append hsep hs hcne hene, slug_word hc, slug_word he]

theorem ofSlug_word {s : String} (h : IsWord s) : PortraitKey.ofSlug s = ⟨s, PortraitKey.neutral⟩ := by
  have hsplit : Text.splitFirst? '_' s = none := by
    cases hs : Text.splitFirst? '_' s with
    | none => rfl
    | some p =>
      have hmem : '_' ∈ s.toList := by
        rw [(Text.splitFirst?_eq_some_iff.1 hs).1]
        simp
      exact absurd hmem (h.not_mem (by decide))
  rw [PortraitKey.ofSlug, hsplit]

theorem pieces_bare (hc : IsWord c) (he : IsWord e) (root : Path) (sp : Spelling) :
    Text.pieces '/' (sp.bare root c e) = [sp.bare root c e] ∧ sp.bare root c e = sp.stem c e ∨
      Text.pieces '/' (sp.bare root c e) = [c, e] ∧ sp.stem c e = e := by
  rcases bare_cases root c e sp with ⟨⟨rfl, -⟩, hbare⟩ | ⟨hno, hbare⟩
  · rw [hbare]
    exact .inl ⟨Text.pieces_eq_singleton (he.not_mem (by decide)), rfl⟩
  · rw [hbare]
    rcases stem_cases c e sp with ⟨rfl, hstem⟩ | ⟨hs, hstem⟩
    · right
      have htext : slash.text c e = c ++ "/" ++ e := rfl
      rw [htext, Text.pieces_append, Text.pieces_eq_singleton (hc.not_mem (by decide)),
        Text.pieces_eq_singleton (he.not_mem (by decide))]
      exact ⟨rfl, rfl⟩
    · exact .inl ⟨Text.pieces_eq_singleton (no_slash_text hc he hs), hstem.symm⟩

theorem lastSegment_bare (hc : IsWord c) (he : IsWord e) (root : Path) (sp : Spelling) :
    AssetIndex.lastSegment (sp.bare root c e) = sp.stem c e := by
  rcases pieces_bare hc he root sp with ⟨hp, hstem⟩ | ⟨hp, hstem⟩
  · rw [AssetIndex.lastSegment, hp]
    exact hstem
  · rw [AssetIndex.lastSegment, hp, hstem]
    rfl

theorem normalize_text (hc : IsWord c) (he : IsWord e) (root : Path) (sp : Spelling) :
    Reference.normalize (sp.text c e) root = some (sp.bare root c e) := by
  have hperiod := no_period_bare hc he root sp
  have hup : ".." ∉ Text.pieces '/' (sp.bare root c e) :=
    fun hmem => hperiod (Text.mem_of_mem_pieces hmem (by decide))
  have hne : sp.bare root c e ≠ "" := by
    rcases bare_cases root c e sp with ⟨-, hbare⟩ | ⟨-, hbare⟩
    · rw [hbare]
      exact he.ne_empty
    · rw [hbare]
      exact text_ne_empty sp c e
  rw [Reference.normalize, bare?_text hc he, Option.map_some, dropRoot_text root hc he]
  simp [Option.filter, hne, hup]

/-- The slug in which a key is read: a colon stands for an underscore. -/
def keySlug (tail : String) : String := Naming.slug (Text.mapChars (fun ch => if ch = ':' then '_' else ch) tail)

theorem keySlug_eq (tail : String) : keySlug tail = Naming.slug tail := Naming.slug_colons tail

theorem keySlug_word {s : String} (h : IsWord s) : keySlug s = s := by
  rw [keySlug_eq, slug_word h]

theorem keySlug_two_words (hc : IsWord c) (he : IsWord e) {tail : String} {separator : Char}
    (htail : tail.toList = c.toList ++ separator :: e.toList) (hsep : separator.isAlphanum = false) :
    keySlug tail = c ++ "_" ++ e := by
  rw [keySlug_eq, slug_two_words hc he htail hsep]

theorem two_words_ne_empty (c e : String) : c ++ "_" ++ e ≠ "" := by
  intro h
  have h := congrArg String.toList h
  simp at h

/-- The key of a reference without a period is that of its only segment, or of its two segments together. -/
theorem ofReference_of_segments {reference tail : String} (hperiod : '.' ∉ reference.toList)
    (hsegments : ((Text.pieces '/' reference).filter fun s => !s.isEmpty) = [tail] ∨
      ∃ a b, ((Text.pieces '/' reference).filter fun s => !s.isEmpty) = [a, b] ∧ tail = a ++ "_" ++ b)
    (hne : keySlug tail ≠ "") :
    PortraitKey.ofReference reference =
      some (PortraitKey.ofSlug (keySlug tail)) := by
  have hbody : PortraitKey.withoutExtension reference = reference := by
    rw [PortraitKey.withoutExtension, Text.splitLast?_eq_none hperiod]
  unfold PortraitKey.ofReference
  dsimp only
  rw [hbody]
  rcases hsegments with h | ⟨a, b, h, htail⟩
  · rw [h]
    simpa [keySlug] using hne
  · rw [h]
    simpa [← htail, keySlug] using hne

/-- What a spelling asks for: its character and expression, or what stands for the expression as a character of
its own if the name in front is that of the asset root. -/
theorem ofReference_bare (hc : IsWord c) (he : IsWord e) (root : Path) (sp : Spelling) :
    PortraitKey.ofReference (sp.bare root c e) =
      some (if sp = .slash ∧ Reference.namesRoot root c = true then ⟨e, PortraitKey.neutral⟩ else ⟨c, e⟩) := by
  have hperiod := no_period_bare hc he root sp
  rcases bare_cases root c e sp with ⟨hroot, hbare⟩ | ⟨hno, hbare⟩
  · have hsegments : ((Text.pieces '/' e).filter fun s => !s.isEmpty) = [e] := by
      rw [Text.pieces_eq_singleton (he.not_mem (by decide))]
      simp [he.ne_empty]
    rw [hbare] at hperiod ⊢
    have hkey := ofReference_of_segments hperiod (.inl hsegments)
    rw [keySlug_word he, ofSlug_word he] at hkey
    rw [if_pos hroot]
    exact hkey he.ne_empty
  · rw [if_neg hno]
    rcases stem_cases c e sp with ⟨rfl, -⟩ | ⟨hs, -⟩
    · have hsegments : ((Text.pieces '/' (slash.text c e)).filter fun s => !s.isEmpty) = [c, e] := by
        have htext : slash.text c e = c ++ "/" ++ e := rfl
        rw [htext, Text.pieces_append, Text.pieces_eq_singleton (hc.not_mem (by decide)),
          Text.pieces_eq_singleton (he.not_mem (by decide))]
        simp [hc.ne_empty, he.ne_empty]
      have htail : (c ++ "_" ++ e).toList = c.toList ++ '_' :: e.toList := by simp
      have hslug := keySlug_two_words hc he htail (by decide)
      rw [hbare] at hperiod ⊢
      have hkey := ofReference_of_segments hperiod (.inr ⟨c, e, hsegments, rfl⟩)
      rw [hslug, PortraitKey.ofSlug_append (hc.not_mem (by decide))] at hkey
      exact hkey (two_words_ne_empty c e)
    · have hsegments : ((Text.pieces '/' (sp.text c e)).filter fun s => !s.isEmpty) = [sp.text c e] := by
        rw [Text.pieces_eq_singleton (no_slash_text hc he hs)]
        simp [text_ne_empty]
      have hsep : sp.separator.isAlphanum = false := by cases sp <;> decide
      have hslug := keySlug_two_words hc he (toList_text sp c e) hsep
      rw [hbare] at hperiod ⊢
      have hkey := ofReference_of_segments hperiod (.inl hsegments)
      rw [hslug, PortraitKey.ofSlug_append (hc.not_mem (by decide))] at hkey
      exact hkey (two_words_ne_empty c e)

end Spelling

/-! ## What a spelling finds -/

namespace AssetIndex

open Spelling

/-- The file that is found has an entry in the index, with the given key. -/
def Shows (index : AssetIndex) (found : ResolvedAsset) (key : PortraitKey) : Prop :=
  ∃ a, index.get? found.relative = some a ∧ a.portrait? = some key

variable {fs : FileSystem} {root : Path} {c e : String}

theorem shows_iff_of_mem (hw : fs.WellFormed) {relative : String} {path : Path}
    (h : (relative, path) ∈ walked fs root) {found : ResolvedAsset} (hf : found.relative = relative)
    (key : PortraitKey) : (build fs root).Shows found key ↔ (IndexedAsset.mk relative path).portrait? = some key := by
  have hget : (build fs root).get? found.relative = some ⟨relative, root.join relative⟩ := by
    rw [get?_build hw, hf, if_pos (List.mem_map.2 ⟨_, h, rfl⟩)]
  constructor
  · rintro ⟨a, ha, hkey⟩
    rw [hget] at ha
    obtain rfl := Option.some.inj ha
    exact hkey
  · exact fun hkey => ⟨_, hget, hkey⟩

/-- A reference without a period is no entry of the index. -/
theorem get?_of_no_period (hw : fs.WellFormed) {reference : String} (h : '.' ∉ reference.toList) :
    (build fs root).get? reference = none := by
  rw [get?_build hw, if_neg]
  intro hmem
  obtain ⟨entry, he, rfl⟩ := List.mem_map.1 hmem
  exact h (picture_of_mem_walked hw he).period_mem.1

/-- The steps for a spelling: a file of its name, the first picture with its stem, and the portrait. -/
theorem resolve_text (hw : fs.WellFormed) (hc : IsWord c) (he : IsWord e) (sp : Spelling) :
    (build fs root).resolve fs .portrait (sp.text c e) =
      if fs.isFile (root.join (sp.bare root c e)) then
        some ⟨sp.bare root c e, root.join (sp.bare root c e), .onDisk, none⟩
      else
        ((firstWithStem (walked fs root) (sp.stem c e)).map fun first =>
          (⟨first.1, first.2, .directoryScan, none⟩ : ResolvedAsset)).or
            ((build fs root).matchCharacter (sp.bare root c e)) := by
  have hperiod := no_period_bare hc he root sp
  have hlast := lastSegment_bare hc he root sp
  have hstemPeriod : '.' ∉ (sp.stem c e).toList := no_period_stem hc he sp
  have hstemLower : Text.lower (sp.stem c e) = sp.stem c e :=
    Text.lower_of_small fun ch hch => (spellingChar_stem hc he sp ch hch).isSmall
  have hlower : Text.lower (sp.bare root c e) = sp.bare root c e :=
    Text.lower_of_small fun ch hch => (spellingChar_bare hc he root sp ch hch).isSmall
  have hcase : (build fs root).matchCase (sp.bare root c e) = none :=
    matchCase_of_no_period hw hlower (by rw [hlast, hstemLower]) hperiod (by rwa [hlast])
  have hscan : scanForStem fs (build fs root) (sp.bare root c e) =
      (firstWithStem (walked fs root) (sp.stem c e)).map fun e => ⟨e.1, e.2, .directoryScan, none⟩ := by
    rw [scanForStem_of_no_period hw (by rw [hlast, hstemLower]) (by rwa [hlast])
      (by rw [hlast]; exact stem_ne_empty he sp), hlast]
  have hpath : resolvePath fs (build fs root) (sp.bare root c e) =
      if fs.isFile (root.join (sp.bare root c e)) then
        some ⟨sp.bare root c e, root.join (sp.bare root c e), .onDisk, none⟩
      else
        (firstWithStem (walked fs root) (sp.stem c e)).map fun first => ⟨first.1, first.2, .directoryScan, none⟩ := by
    unfold resolvePath
    simp only [get?_of_no_period hw hperiod, root_build, hcase, hscan]
  unfold resolve
  simp only [root_build, normalize_text hc he, hpath, Option.orElse_eq_or]
  split <;> rfl

/-- The picture of a key that the index holds is found as such. -/
theorem matchCharacter_of_key {index : AssetIndex} {reference : String} {key : PortraitKey}
    (hr : PortraitKey.ofReference reference = some key) {a : IndexedAsset} (ha : a ∈ index.list)
    (hkey : a.portrait? = some key) :
    ∃ b ∈ index.list, index.matchCharacter reference = some (found b .characterExpression) ∧
      b.portrait? = some key := by
  obtain ⟨b, hfind⟩ : ∃ b, index.findPortrait key = some b :=
    Option.isSome_iff_exists.1 (List.find?_isSome.2 ⟨a, ha, beq_iff_eq.2 hkey⟩)
  refine ⟨b, List.mem_of_find?_eq_some hfind, by simp [matchCharacter, hr, hfind], ?_⟩
  simpa using List.find?_some hfind

/-- The picture of a key that the index holds is found, and shows the key. -/
theorem matchCharacter_shows (hw : fs.WellFormed) {reference : String} {key : PortraitKey}
    (hr : PortraitKey.ofReference reference = some key) {a : IndexedAsset} (ha : a ∈ (build fs root).list)
    (hkey : a.portrait? = some key) :
    ∃ found, (build fs root).matchCharacter reference = some found ∧ (build fs root).Shows found key := by
  obtain ⟨b, hb, hmatch, hshown⟩ := matchCharacter_of_key hr ha hkey
  exact ⟨_, hmatch, (shows_iff_of_mem hw (mem_walked_of_mem_list hb) rfl key).2 hshown⟩

/-- What is found for a neutral key shows no other key. -/
theorem key_of_matchCharacter (hw : fs.WellFormed) {reference character : String}
    (hr : PortraitKey.ofReference reference = some ⟨character, PortraitKey.neutral⟩) {found : ResolvedAsset}
    (hf : (build fs root).matchCharacter reference = some found) {key : PortraitKey}
    (hs : (build fs root).Shows found key) : key = ⟨character, PortraitKey.neutral⟩ := by
  simp only [matchCharacter, hr, if_true] at hf
  split at hf
  · next b hfind =>
    obtain rfl := Option.some.inj hf
    have hb : b.portrait? = some ⟨character, PortraitKey.neutral⟩ := by simpa using List.find?_some hfind
    have hmem := mem_walked_of_mem_list (List.mem_of_find?_eq_some hfind)
    have hkey := (shows_iff_of_mem hw hmem rfl key).1 hs
    exact Option.some.inj (hkey.symm.trans hb)
  · cases hf

end AssetIndex

namespace Spelling

open AssetIndex

/-- No early step takes the spelling for something else. -/
structure Reaches (fs : FileSystem) (root : Path) (c e : String) (sp : Spelling) : Prop where
  /-- No file below the root has the spelling for its path. -/
  no_file : fs.isFile (root.join (sp.bare root c e)) = false
  /-- The first picture with the stem of the spelling shows the character with the expression. -/
  first_shows : ∀ first, firstWithStem (walked fs root) (sp.stem c e) = some first →
    (IndexedAsset.mk first.1 first.2).portrait? = some ⟨c, e⟩
  /-- Without such a picture, the character is not taken for the asset root. -/
  not_root : firstWithStem (walked fs root) (sp.stem c e) = none → sp = .slash →
    Reference.namesRoot root c = true → c = PortraitKey.neutral ∧ e = PortraitKey.neutral

/-- A spelling finds a picture of its character with its expression if and only if no early step takes it for
something else. -/
theorem resolves_iff {fs : FileSystem} (hw : fs.WellFormed) {root : Path} {c e : String} (hc : IsWord c)
    (he : IsWord e) {a : IndexedAsset} (ha : a ∈ (build fs root).list) (hkey : a.portrait? = some ⟨c, e⟩)
    (sp : Spelling) :
    (∃ found, (build fs root).resolve fs .portrait (sp.text c e) = some found ∧
      (build fs root).Shows found ⟨c, e⟩) ↔ sp.Reaches fs root c e := by
  have hshows {first : String × Path} (hf : firstWithStem (walked fs root) (sp.stem c e) = some first) :
      (build fs root).Shows ⟨first.1, first.2, .directoryScan, none⟩ ⟨c, e⟩ ↔
        (IndexedAsset.mk first.1 first.2).portrait? = some ⟨c, e⟩ :=
    shows_iff_of_mem hw (List.mem_of_find?_eq_some hf) rfl _
  rw [resolve_text hw hc he]
  constructor
  · rintro ⟨found, hfound, hkeyed⟩
    cases hfile : fs.isFile (root.join (sp.bare root c e)) with
    | true =>
      -- the file is no picture, so it has no entry
      rw [hfile, if_pos rfl] at hfound
      obtain rfl := Option.some.inj hfound
      obtain ⟨b, hb, -⟩ := hkeyed
      rw [get?_of_no_period hw (no_period_bare hc he root sp)] at hb
      cases hb
    | false =>
      rw [hfile, if_neg (by decide)] at hfound
      refine ⟨hfile, fun first hfirst => ?_, fun hnone hs hroot => ?_⟩
      · rw [hfirst, Option.map_some, Option.some_or] at hfound
        obtain rfl := Option.some.inj hfound
        exact (hshows hfirst).1 hkeyed
      · rw [hnone, Option.map_none, Option.none_or] at hfound
        have hasks := ofReference_bare hc he root sp
        rw [if_pos ⟨hs, hroot⟩] at hasks
        obtain ⟨hce, hneutral⟩ := PortraitKey.mk.inj (key_of_matchCharacter hw hasks hfound hkeyed)
        exact ⟨hce.trans hneutral, hneutral⟩
  · rintro ⟨hfile, hfirst, hroot⟩
    rw [hfile, if_neg (by decide)]
    cases hfind : firstWithStem (walked fs root) (sp.stem c e) with
    | some first => exact ⟨_, rfl, (hshows hfind).2 (hfirst first hfind)⟩
    | none =>
      rw [Option.map_none, Option.none_or]
      have hasks : PortraitKey.ofReference (sp.bare root c e) = some ⟨c, e⟩ := by
        rw [ofReference_bare hc he]
        split
        · next h =>
          obtain ⟨hc', he'⟩ := hroot hfind h.1 h.2
          rw [hc', he']
        · rfl
      exact matchCharacter_shows hw hasks ha hkey

/-- Two characters below the asset root `art`, with one expression. -/
def twoCharacters : FileSystem where
  nodes := .ofList [(["art"], .directory), (["art", "characters"], .directory),
    (["art", "characters", "alice"], .directory),
    (["art", "characters", "alice", "happy.png"], .file (Bytes.ofList [1])),
    (["art", "characters", "bob"], .directory),
    (["art", "characters", "bob", "happy.png"], .file (Bytes.ofList [2]))]

theorem wellFormed_twoCharacters : twoCharacters.WellFormed := by decide +kernel

/-- The second of them, as the index holds it. -/
def secondHappy : IndexedAsset := ⟨"characters/bob/happy.png", ⟨"art/characters/bob/happy.png"⟩⟩

theorem secondHappy_mem : secondHappy ∈ (build twoCharacters ⟨"art"⟩).list := by decide +kernel

/-- With a colon, the expression of the second character is found. -/
theorem resolves_of_colon :
    secondHappy.portrait? = some ⟨"bob", "happy"⟩ ∧
      ∃ found, (build twoCharacters ⟨"art"⟩).resolve twoCharacters .portrait "bob:happy" = some found ∧
        (build twoCharacters ⟨"art"⟩).Shows found ⟨"bob", "happy"⟩ := by
  obtain ⟨hkey, hfile, hnone⟩ : secondHappy.portrait? = some ⟨"bob", "happy"⟩ ∧
      twoCharacters.isFile ((⟨"art"⟩ : Path).join "bob:happy") = false ∧
      firstWithStem (walked twoCharacters ⟨"art"⟩) "bob:happy" = none := by
    decide +kernel
  have hreaches : colon.Reaches twoCharacters ⟨"art"⟩ "bob" "happy" := by
    refine ⟨hfile, fun first hfirst => ?_, fun _ hs => nomatch hs⟩
    rw [show colon.stem "bob" "happy" = "bob:happy" from rfl, hnone] at hfirst
    cases hfirst
  have hbob : IsWord "bob" := isWord_of_all (by decide) (by decide)
  have hhappy : IsWord "happy" := isWord_of_all (by decide) (by decide)
  exact ⟨hkey, (resolves_iff wellFormed_twoCharacters hbob hhappy secondHappy_mem hkey colon).2 hreaches⟩

/-- With a slash, the first picture with the stem of the expression is found: it shows the first character. -/
theorem slash_finds_other_character :
    secondHappy ∈ (build twoCharacters ⟨"art"⟩).list ∧ secondHappy.portrait? = some ⟨"bob", "happy"⟩ ∧
      (∃ found, (build twoCharacters ⟨"art"⟩).resolve twoCharacters .portrait "bob/happy" = some found ∧
        (build twoCharacters ⟨"art"⟩).Shows found ⟨"alice", "happy"⟩) ∧
      ¬∃ found, (build twoCharacters ⟨"art"⟩).resolve twoCharacters .portrait "bob/happy" = some found ∧
        (build twoCharacters ⟨"art"⟩).Shows found ⟨"bob", "happy"⟩ := by
  obtain ⟨hsecond, hresolve, hget, hkey⟩ : secondHappy.portrait? = some ⟨"bob", "happy"⟩ ∧
      (build twoCharacters ⟨"art"⟩).resolve twoCharacters .portrait "bob/happy" =
        some ⟨"characters/alice/happy.png", ⟨"art/characters/alice/happy.png"⟩, .directoryScan, none⟩ ∧
      (build twoCharacters ⟨"art"⟩).get? "characters/alice/happy.png" =
        some ⟨"characters/alice/happy.png", ⟨"art/characters/alice/happy.png"⟩⟩ ∧
      (IndexedAsset.mk "characters/alice/happy.png" ⟨"art/characters/alice/happy.png"⟩).portrait? =
        some ⟨"alice", "happy"⟩ := by
    decide +kernel
  refine ⟨secondHappy_mem, hsecond, ⟨_, hresolve, _, hget, hkey⟩, ?_⟩
  rintro ⟨found, hfound, a, ha, hshown⟩
  rw [hresolve] at hfound
  obtain rfl := Option.some.inj hfound
  rw [hget] at ha
  obtain rfl := Option.some.inj ha
  rw [hkey] at hshown
  exact absurd hshown (by decide)

end Spelling

end StoryPress
