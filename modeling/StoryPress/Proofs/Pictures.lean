import StoryPress.Proofs.Containment

/-!
# The pictures of the index

* `get?_build`: the index holds the pictures of a walk, each by its path below the root;
* `Picture.period_mem`: the path of a picture has a period in its last name, so that a reference without a period
  is neither the path nor the file name of one, in any letter case;
* `scanForStem_build`: the scan for the stem of a reference finds the first picture of the walk that has it.
-/

namespace StoryPress

/-! ## Periods and letter case -/

namespace Text

theorem splitLast?_eq_none {sep : Char} {s : String} (h : sep ∉ s.toList) : splitLast? sep s = none := by
  cases hc : cutLast? sep s.toList with
  | none => simp [splitLast?, hc]
  | some p =>
    obtain ⟨before, after⟩ := p
    rw [(cutLast?_eq_some hc).1] at h
    simp at h

theorem mem_of_mem_pieces {sep c : Char} {s part : String} (hp : part ∈ pieces sep s) (hc : c ∈ part.toList) :
    c ∈ s.toList := by
  have hcut (cs : List Char) : ∀ part ∈ cutAll sep cs, c ∈ part → c ∈ cs := by
    induction cs with
    | nil =>
      intro part hpart hmem
      rw [List.mem_singleton.1 hpart] at hmem
      cases hmem
    | cons d cs ih =>
      intro part hpart hmem
      by_cases hd : d = sep
      · rw [cutAll, if_pos hd] at hpart
        rcases List.mem_cons.1 hpart with rfl | hpart
        · cases hmem
        · exact List.mem_cons_of_mem _ (ih part hpart hmem)
      · obtain ⟨p, ps, hcs, hcons⟩ := cutAll_cons_ne hd cs
        rw [hcons] at hpart
        rcases List.mem_cons.1 hpart with rfl | hpart
        · rcases List.mem_cons.1 hmem with rfl | hmem
          · exact List.mem_cons_self
          · exact List.mem_cons_of_mem _ (ih p (by simp [hcs]) hmem)
        · exact List.mem_cons_of_mem _ (ih part (by simp [hcs, hpart]) hmem)
  obtain ⟨cs, hcs, rfl⟩ := List.mem_map.1 hp
  exact hcut _ cs hcs (by simpa using hc)

theorem afterStart?_eq_some {start cs rest : List Char} (h : afterStart? start cs = some rest) :
    cs = start ++ rest := by
  induction start generalizing cs with
  | nil => exact Option.some.inj h
  | cons c start ih =>
    cases cs with
    | nil => cases h
    | cons d cs =>
      simp only [afterStart?] at h
      split at h
      · next heq => rw [heq, ih h, List.cons_append]
      · cases h

theorem count_le_of_startsWith {start s : String} (h : startsWith start s = true) (c : Char) :
    start.toList.count c ≤ s.toList.count c := by
  obtain ⟨rest, hrest⟩ := Option.isSome_iff_exists.1 h
  rw [afterStart?_eq_some hrest, List.count_append]
  omega

/-- A character that is its own small form. -/
def IsSmall (c : Char) : Prop := c.toNat < 128 ∧ c.toLower = c

theorem lowerFrom_of_small {before cs : List Char} (h : ∀ c ∈ cs, IsSmall c) : lowerFrom before cs = cs := by
  induction cs generalizing before with
  | nil => rfl
  | cons c cs ih =>
    obtain ⟨hascii, hsmall⟩ := h c (by simp)
    have hsigma : c ≠ 'Σ' := by
      rintro rfl
      exact absurd hascii (by decide)
    have hdotted : c ≠ 'İ' := by
      rintro rfl
      exact absurd hascii (by decide)
    rw [lowerFrom, ih fun d hd => h d (by simp [hd])]
    simp [hsigma, hdotted, lowerSimple, hascii, hsmall]

theorem lower_of_small {s : String} (h : ∀ c ∈ s.toList, IsSmall c) : lower s = s := by
  rw [lower, lowerFrom_of_small h, String.ofList_toList]

theorem lowerAscii_of_small {s : String} (h : ∀ c ∈ s.toList, IsSmall c) : lowerAscii s = s := by
  have hmap : s.toList.map Char.toLower = s.toList := by
    conv_rhs => rw [← List.map_id s.toList]
    exact List.map_congr_left fun c hc => (h c hc).2
  rw [lowerAscii, hmap, String.ofList_toList]

theorem period_mem_lower {s : String} (h : '.' ∈ s.toList) : '.' ∈ (lower s).toList := by
  have hfrom (cs : List Char) : ∀ before, '.' ∈ cs → '.' ∈ lowerFrom before cs := by
    induction cs with
    | nil => exact fun _ h => h
    | cons c cs ih =>
      intro before hmem
      rw [lowerFrom]
      rcases List.mem_cons.1 hmem with rfl | hmem
      · exact List.mem_append_left _ (by simp [lowerSimple])
      · exact List.mem_append_right _ (ih _ hmem)
  rw [lower, String.toList_ofList]
  exact hfrom _ _ h

theorem lower_eq_empty {s : String} (h : lower s = "") : s = "" := by
  have hlist : lowerFrom [] s.toList = [] := by
    simpa [lower] using congrArg String.toList h
  cases hs : s.toList with
  | nil => exact String.toList_eq_nil_iff.1 hs
  | cons c cs =>
    rw [hs, lowerFrom] at hlist
    have hsmall := (List.append_eq_nil_iff.1 hlist).1
    split at hsmall
    · cases hsmall
    · split at hsmall <;> cases hsmall

end Text

/-! ## The pictures of the index -/

namespace Path

theorem name?_join {ns : List String} (hne : ns ≠ []) (h : ∀ n ∈ ns, IsName n) (dir : Path) :
    (dir.join (Text.joinWith "/" ns)).name? = ns.getLast? := by
  have hlast : (dir.components ++ ns.map Component.name).getLast? = ns.getLast?.map Component.name := by
    rw [List.getLast?_append_of_ne_nil _ (by simpa using hne), List.getLast?_map]
  rw [name?, components_join hne h, hlast]
  cases ns.getLast? <;> rfl

/-- A name with an extension has a period. -/
theorem period_of_extension {name ext : String} (h : (splitName name).2 = some ext) : '.' ∈ name.toList := by
  unfold splitName at h
  split at h
  · next stem ext' hsplit =>
    obtain ⟨⟨before, after⟩, hcut, -⟩ := Option.map_eq_some_iff.1 hsplit
    rw [(Text.cutLast?_eq_some hcut).1]
    simp
  · cases h

theorem splitName_of_no_period {name : String} (h : '.' ∉ name.toList) : splitName name = (name, none) := by
  rw [splitName, Text.splitLast?_eq_none h]

end Path

namespace AssetIndex

/-- The pictures of a walk from the root, by their paths below it; none if the root is no directory. -/
def walked (fs : FileSystem) (root : Path) : List (String × Path) :=
  (if fs.isDirectory root then picturesBelow fs root else .ok []).toOption.getD []

theorem build_eq (fs : FileSystem) (root : Path) : build fs root = ofEntries root (walked fs root) := by
  unfold build walked
  cases (if fs.isDirectory root then picturesBelow fs root else .ok []) <;> rfl

/-- A walked picture has a path of names below the root, the last one with a period in it. -/
structure Picture (fs : FileSystem) (root : Path) (relative : String) (path : Path) : Prop where
  names : ∃ ns : List String, ns ≠ [] ∧ (∀ n ∈ ns, Path.IsName n) ∧ relative = Text.joinWith "/" ns
  path_eq : path = root.join relative
  image : path.isImage = true

theorem picture_of_mem_walked {fs : FileSystem} (hw : fs.WellFormed) {root : Path} {e : String × Path}
    (he : e ∈ walked fs root) : Picture fs root e.1 e.2 := by
  by_cases hd : fs.isDirectory root = true
  · obtain ⟨files, hfiles, hmem⟩ := FileSystem.mem_walkFiles_iff hw hd
    have hwalked : walked fs root = files.filterMap fun f =>
        if f.1.isImage then (Path.slashBelow? root f.1).map fun relative => (relative, f.1) else none := by
      simp [walked, hd, picturesBelow, hfiles, bind, Except.bind, pure, Except.pure, Except.toOption]
    rw [hwalked] at he
    obtain ⟨⟨p, c⟩, hp, heq⟩ := List.mem_filterMap.1 he
    split at heq
    · next himage =>
      obtain ⟨ns, hne, hns, -, rfl⟩ := (hmem p c).1 hp
      rw [Path.slashBelow?_join hne hns] at heq
      obtain rfl := Option.some.inj heq
      exact ⟨⟨ns, hne, hns, rfl⟩, rfl, himage⟩
    · cases heq
  · have hnone : walked fs root = [] := by simp [walked, hd, Except.toOption]
    rw [hnone] at he
    cases he

theorem get?_foldl_insert {entries : List (String × Path)} {f : String → Path} (hf : ∀ e ∈ entries, e.2 = f e.1) :
    ∀ (index : AssetIndex) (relative : String),
      (entries.foldl (fun index e => index.insert e.1 e.2) index).get? relative =
        if relative ∈ entries.map (·.1) then some ⟨relative, f relative⟩ else index.get? relative := by
  induction entries with
  | nil => simp
  | cons e entries ih =>
    intro index relative
    have he : e.2 = f e.1 := hf e (by simp)
    rw [List.foldl_cons, ih (fun x hx => hf x (by simp [hx]))]
    have hget : (index.insert e.1 e.2).get? relative =
        if relative = e.1 then some ⟨e.1, e.2⟩ else index.get? relative := by
      rw [get?, insert, OrderedMap.get?_insert]
      by_cases h : relative = e.1
      · simp [h]
      · rw [if_neg h, if_neg fun hc => h (Std.LawfulEqCmp.eq_of_compare hc)]
        rfl
    rw [hget, List.map_cons]
    by_cases hmem : relative ∈ entries.map (·.1)
    · rw [if_pos hmem, if_pos (List.mem_cons_of_mem _ hmem)]
    · by_cases h : relative = e.1
      · rw [if_neg hmem, if_pos h, if_pos (h ▸ List.mem_cons_self), h, he]
      · have hnot : relative ∉ e.1 :: entries.map (·.1) := by
          rw [List.mem_cons, not_or]
          exact ⟨h, hmem⟩
        rw [if_neg hmem, if_neg h, if_neg hnot]

/-- The path of a picture and its file name have a period. -/
theorem Picture.period_mem {fs : FileSystem} {root : Path} {relative : String} {path : Path}
    (h : Picture fs root relative path) :
    '.' ∈ relative.toList ∧ '.' ∈ (IndexedAsset.fileName ⟨relative, path⟩).toList := by
  obtain ⟨ns, hne, hns, rfl⟩ := h.names
  have himage := h.image
  rw [h.path_eq, Path.isImage, Path.extension?, Path.name?_join hne hns] at himage
  obtain ⟨name, hlast⟩ : ∃ name, ns.getLast? = some name := ⟨_, List.getLast?_eq_some_getLast hne⟩
  rw [hlast] at himage
  obtain ⟨ext, hext⟩ : ∃ ext, (Path.splitName name).2 = some ext := by
    cases he : (Path.splitName name).2 with
    | none => simp [he] at himage
    | some ext => exact ⟨ext, rfl⟩
  have hperiod : '.' ∈ name.toList := Path.period_of_extension hext
  have hpieces := Path.pieces_joinNames hne hns
  have hfile : IndexedAsset.fileName ⟨Text.joinWith "/" ns, path⟩ = name := by
    simp [IndexedAsset.fileName, IndexedAsset.segments, hpieces, hlast]
  have hmem : name ∈ Text.pieces '/' (Text.joinWith "/" ns) := by
    rw [hpieces]
    exact List.mem_of_getLast? hlast
  exact ⟨Text.mem_of_mem_pieces hmem hperiod, hfile ▸ hperiod⟩

/-- The index holds the pictures of the walk. -/
theorem get?_build {fs : FileSystem} (hw : fs.WellFormed) {root : Path} (relative : String) :
    (build fs root).get? relative =
      if relative ∈ (walked fs root).map (·.1) then some ⟨relative, root.join relative⟩ else none := by
  rw [build_eq]
  exact get?_foldl_insert (fun e he => (picture_of_mem_walked hw he).path_eq) { root := root } relative

theorem mem_walked_of_mem_list {fs : FileSystem} {root : Path} {a : IndexedAsset}
    (h : a ∈ (build fs root).list) : (a.relative, a.path) ∈ walked fs root := by
  rw [build_eq] at h
  exact mem_list_ofEntries h

/-! ## References without a period -/

/-- The first picture of a walk with the given stem in some letter case. -/
def firstWithStem (entries : List (String × Path)) (stem : String) : Option (String × Path) :=
  entries.find? fun e => e.2.stem?.map Text.lower == some stem

theorem matchCase_of_no_period {fs : FileSystem} (hw : fs.WellFormed) {root : Path} {reference : String}
    (hlower : Text.lower reference = reference)
    (hlast : Text.lower (lastSegment reference) = lastSegment reference) (hperiod : '.' ∉ reference.toList)
    (hlastPeriod : '.' ∉ (lastSegment reference).toList) : (build fs root).matchCase reference = none := by
  have hpicture {a : IndexedAsset} (ha : a ∈ (build fs root).list) :=
    (picture_of_mem_walked hw (mem_walked_of_mem_list ha)).period_mem
  have hpath : ((build fs root).list.find? fun a => Text.lower a.relative == Text.lower reference) = none := by
    rw [List.find?_eq_none]
    intro a ha heq
    have hmem := Text.period_mem_lower (hpicture ha).1
    rw [beq_iff_eq.1 heq, hlower] at hmem
    exact hperiod hmem
  have hname : ((build fs root).list.find? fun a => Text.lower a.fileName == Text.lower (lastSegment reference)) =
      none := by
    rw [List.find?_eq_none]
    intro a ha heq
    have hmem := Text.period_mem_lower (hpicture ha).2
    rw [beq_iff_eq.1 heq, hlast] at hmem
    exact hlastPeriod hmem
  rw [matchCase, hpath, hname]
  rfl

/-- The first file of a walk that passes a test is the first picture that does. -/
theorem find?_files {root : Path} {stem : String} {files : List (Path × ByteArray)}
    (h : ∀ f ∈ files, ∃ relative, Path.slashBelow? root f.1 = some relative) :
    ((files.find? fun f => f.1.isImage && f.1.stem?.map Text.lower == some stem).bind fun f =>
        (Path.slashBelow? root f.1).map fun relative => (relative, f.1)) =
      firstWithStem (files.filterMap fun f =>
        if f.1.isImage then (Path.slashBelow? root f.1).map fun relative => (relative, f.1) else none) stem := by
  unfold firstWithStem
  induction files with
  | nil => rfl
  | cons f files ih =>
    obtain ⟨relative, hrel⟩ := h f (by simp)
    have ih := ih fun x hx => h x (by simp [hx])
    by_cases himage : f.1.isImage = true
    · by_cases hstem : (f.1.stem?.map Text.lower == some stem) = true
      · simp [himage, hstem, hrel]
      · simp [himage, hstem, hrel, ih]
    · simp [himage, ih]

/-- The stem that a scan looks for, in lower case. -/
def wantedStem (reference : String) : String := Text.lower (Path.splitName (lastSegment reference)).1

/-- The scan for a stem finds the first picture of the walk that has it. -/
theorem scanForStem_build {fs : FileSystem} (hw : fs.WellFormed) {root : Path} {reference : String}
    (hstem : (Path.splitName (lastSegment reference)).1 ≠ "") :
    scanForStem fs (build fs root) reference =
      (firstWithStem (walked fs root) (wantedStem reference)).map fun e => ⟨e.1, e.2, .directoryScan, none⟩ := by
  unfold scanForStem
  rw [root_build, ← wantedStem]
  by_cases hd : fs.isDirectory root = true
  · obtain ⟨files, hfiles, hmem⟩ := FileSystem.mem_walkFiles_iff hw hd
    have hbelow : ∀ f ∈ files, ∃ relative, Path.slashBelow? root f.1 = some relative := by
      rintro ⟨p, c⟩ hp
      obtain ⟨ns, hne, hns, -, rfl⟩ := (hmem p c).1 hp
      exact ⟨_, Path.slashBelow?_join hne hns root⟩
    have hwalked : walked fs root = files.filterMap fun f =>
        if f.1.isImage then (Path.slashBelow? root f.1).map fun relative => (relative, f.1) else none := by
      simp [walked, hd, picturesBelow, hfiles, bind, Except.bind, pure, Except.pure, Except.toOption]
    have hempty : (wantedStem reference).isEmpty = false := by
      rw [Bool.eq_false_iff, ne_eq, String.isEmpty_iff]
      exact mt Text.lower_eq_empty hstem
    rw [hwalked, ← find?_files hbelow]
    simp only [hd, hempty, hfiles, Bool.not_true, Bool.or_self, Bool.false_eq_true, if_false]
    cases files.find? fun f => f.1.isImage && f.1.stem?.map Text.lower == some (wantedStem reference) with
    | none => rfl
    | some f => cases hrel : Path.slashBelow? root f.1 <;> simp [hrel]
  · have hnone : walked fs root = [] := by simp [walked, hd, Except.toOption]
    simp [hd, hnone, firstWithStem]

theorem scanForStem_of_no_period {fs : FileSystem} (hw : fs.WellFormed) {root : Path} {reference : String}
    (hlast : Text.lower (lastSegment reference) = lastSegment reference)
    (hperiod : '.' ∉ (lastSegment reference).toList) (hne : lastSegment reference ≠ "") :
    scanForStem fs (build fs root) reference =
      (firstWithStem (walked fs root) (lastSegment reference)).map fun e => ⟨e.1, e.2, .directoryScan, none⟩ := by
  have hsplit := Path.splitName_of_no_period hperiod
  rw [scanForStem_build hw (by rwa [hsplit]), wantedStem, hsplit, hlast]

end AssetIndex

end StoryPress
