import StoryPress.FileSystem.Path

/-!
# Segments and names

* `pieces_append`, `joinWith_pieces`, `pieces_joinWith`: cutting a text at slashes and joining the parts
  undo each other;
* `names_join`: joining a relative text to a path appends its names;
* `components_join`, `textBelow?_join`: what stands below a path is found again.
-/

namespace StoryPress.Text

theorem cutAll_ne_nil (sep : Char) (cs : List Char) : cutAll sep cs ≠ [] := by
  cases cs with
  | nil => simp [cutAll]
  | cons c rest =>
    simp only [cutAll]
    split
    · simp
    · split <;> simp

theorem cutAll_cons_ne {sep c : Char} (h : c ≠ sep) (cs : List Char) :
    ∃ part parts, cutAll sep cs = part :: parts ∧ cutAll sep (c :: cs) = (c :: part) :: parts := by
  cases hc : cutAll sep cs with
  | nil => exact absurd hc (cutAll_ne_nil sep cs)
  | cons part parts => exact ⟨part, parts, rfl, by simp [cutAll, h, hc]⟩

theorem cutAll_append (sep : Char) (a b : List Char) :
    cutAll sep (a ++ sep :: b) = cutAll sep a ++ cutAll sep b := by
  induction a with
  | nil => simp [cutAll]
  | cons c a ih =>
    by_cases hc : c = sep
    · simp [cutAll, hc, ih]
    · obtain ⟨part, parts, ha, hca⟩ := cutAll_cons_ne hc a
      simp only [List.cons_append, hca]
      simp [cutAll, hc, ih, ha]

theorem cutAll_eq_singleton {sep : Char} {cs : List Char} (h : sep ∉ cs) : cutAll sep cs = [cs] := by
  induction cs with
  | nil => rfl
  | cons c cs ih =>
    rw [List.mem_cons, not_or] at h
    simp [cutAll, Ne.symm h.1, ih h.2]

theorem not_mem_of_mem_cutAll {sep : Char} {cs part : List Char} (h : part ∈ cutAll sep cs) :
    sep ∉ part := by
  induction cs generalizing part with
  | nil => simp_all [cutAll]
  | cons c cs ih =>
    by_cases hc : c = sep
    · simp only [cutAll, hc, if_true, List.mem_cons] at h
      rcases h with rfl | h
      · simp
      · exact ih h
    · obtain ⟨p, ps, hcs, hcc⟩ := cutAll_cons_ne hc cs
      rw [hcc, List.mem_cons] at h
      rcases h with rfl | h
      · simpa [Ne.symm hc] using ih (show p ∈ cutAll sep cs by simp [hcs])
      · exact ih (by simp [hcs, h])

theorem intercalate_cutAll (sep : Char) (cs : List Char) : [sep].intercalate (cutAll sep cs) = cs := by
  induction cs with
  | nil => simp [cutAll]
  | cons c cs ih =>
    by_cases hc : c = sep
    · cases hcs : cutAll sep cs with
      | nil => exact absurd hcs (cutAll_ne_nil sep cs)
      | cons p ps =>
        rw [hcs] at ih
        simp [cutAll, hc, hcs, ih]
    · obtain ⟨p, ps, hcs, hcc⟩ := cutAll_cons_ne hc cs
      rw [hcc]
      rw [hcs] at ih
      cases ps with
      | nil => simpa using ih
      | cons q qs => simpa using ih

theorem pieces_ne_nil (sep : Char) (s : String) : pieces sep s ≠ [] := by
  simp [pieces, cutAll_ne_nil]

theorem pieces_append (a b : String) : pieces '/' (a ++ "/" ++ b) = pieces '/' a ++ pieces '/' b := by
  have h : ("/" : String).toList = ['/'] := rfl
  simp [pieces, h, cutAll_append]

theorem pieces_eq_singleton {sep : Char} {s : String} (h : sep ∉ s.toList) : pieces sep s = [s] := by
  simp [pieces, cutAll_eq_singleton h]

theorem not_mem_of_mem_pieces {sep : Char} {s part : String} (h : part ∈ pieces sep s) :
    sep ∉ part.toList := by
  obtain ⟨cs, hcs, rfl⟩ := List.mem_map.1 h
  simpa using not_mem_of_mem_cutAll hcs

theorem joinWith_pieces (s : String) : joinWith "/" (pieces '/' s) = s := by
  apply String.toList_injective
  have h : ("/" : String).toList = ['/'] := rfl
  have hmap : (pieces '/' s).map String.toList = cutAll '/' s.toList := by
    simp [pieces, Function.comp_def]
  rw [joinWith, String.toList_intercalate, hmap, h, intercalate_cutAll]

theorem joinWith_cons {n : String} {names : List String} (h : names ≠ []) :
    joinWith "/" (n :: names) = n ++ "/" ++ joinWith "/" names :=
  String.intercalate_cons_of_ne_nil h

theorem joinWith_append {a b : List String} (ha : a ≠ []) (hb : b ≠ []) :
    joinWith "/" (a ++ b) = joinWith "/" a ++ "/" ++ joinWith "/" b :=
  String.intercalate_append_of_ne_nil ha hb

theorem pieces_joinWith {names : List String} (hne : names ≠ []) (h : ∀ n ∈ names, '/' ∉ n.toList) :
    pieces '/' (joinWith "/" names) = names := by
  induction names with
  | nil => exact absurd rfl hne
  | cons n names ih =>
    have hn := pieces_eq_singleton (h n (by simp))
    cases names with
    | nil => simpa [joinWith] using hn
    | cons m names =>
      rw [joinWith_cons (by simp), pieces_append, hn, ih (by simp) fun x hx => h x (by simp [hx])]
      rfl

/-- Text without a slash that is added to a text goes to its last piece. -/
theorem pieces_append_ending (s : String) :
    ∃ front last, pieces '/' s = front ++ [last] ∧
      ∀ e : String, '/' ∉ e.toList → pieces '/' (s ++ e) = front ++ [last ++ e] := by
  have hsplit := List.dropLast_concat_getLast (pieces_ne_nil '/' s)
  generalize (pieces '/' s).dropLast = front, (pieces '/' s).getLast (pieces_ne_nil '/' s) = last at hsplit
  refine ⟨front, last, hsplit.symm, fun e he => ?_⟩
  have hjoin : s ++ e = joinWith "/" (front ++ [last ++ e]) := by
    have hs := joinWith_pieces s
    rw [← hsplit] at hs
    rw [← hs]
    by_cases hnil : front = []
    · simp [hnil, joinWith]
    · rw [joinWith_append hnil (by simp), joinWith_append hnil (by simp)]
      simp [joinWith, String.append_assoc]
  rw [hjoin, pieces_joinWith (by simp)]
  intro n hn
  rcases List.mem_append.1 hn with hn | hn
  · exact not_mem_of_mem_pieces (hsplit ▸ List.mem_append_left _ hn)
  · rw [List.mem_singleton.1 hn, String.toList_append, List.mem_append, not_or]
    exact ⟨not_mem_of_mem_pieces (hsplit ▸ List.mem_append_right _ (by simp)), he⟩

theorem cutFirst?_append {sep : Char} {before : List Char} (h : sep ∉ before) (after : List Char) :
    cutFirst? sep (before ++ sep :: after) = some (before, after) := by
  induction before with
  | nil => simp [cutFirst?]
  | cons c cs ih =>
    rw [List.mem_cons, not_or] at h
    simp [cutFirst?, Ne.symm h.1, ih h.2]

theorem splitFirst?_eq_some_iff {sep : Char} {s a b : String} :
    splitFirst? sep s = some (a, b) ↔ s.toList = a.toList ++ sep :: b.toList ∧ sep ∉ a.toList := by
  constructor
  · intro h
    obtain ⟨⟨x, y⟩, hxy, heq⟩ := Option.map_eq_some_iff.1 h
    obtain ⟨rfl, rfl⟩ := Prod.mk.inj heq
    simpa using cutFirst?_eq_some hxy
  · rintro ⟨h, ha⟩
    simp [splitFirst?, h, cutFirst?_append ha]

end StoryPress.Text

namespace StoryPress.Path

/-- A name that can stand in a directory. -/
def IsName (s : String) : Prop := s ≠ "" ∧ s ≠ "." ∧ s ≠ ".." ∧ '/' ∉ s.toList

instance : DecidablePred IsName := fun _ => inferInstanceAs (Decidable (_ ∧ _ ∧ _ ∧ _))

theorem IsName.not_filler {s : String} (h : IsName s) : isFiller s = false := by
  simp [isFiller, h.1, h.2.1]

/-- Whether a text is a path of its own, whatever directory it is joined to. -/
def startsAtRoot (s : String) : Bool := s.toList.head? == some '/'

/-- The names on a path; fillers name nothing. -/
def names (p : Path) : List String := p.segments.filter fun s => !isFiller s

theorem segments_eq_singleton_empty {p : Path} (h : p.segments = [""]) : p.text = "" := by
  rw [← Text.joinWith_pieces p.text, ← segments, h]
  rfl

/-- Without the slashes at the end the names are the same. -/
theorem filter_entrySegments (p : Path) : (p.entrySegments.filter fun s => !isFiller s) = p.names := by
  have hdrop (ss : List String) : ((ss.dropWhile (· == "")).filter fun s => !isFiller s) =
      ss.filter fun s => !isFiller s := by
    induction ss with
    | nil => rfl
    | cons s ss ih =>
      by_cases hs : s = ""
      · simpa [hs, isFiller] using ih
      · simp [hs]
  unfold entrySegments names
  split
  · rw [List.filter_reverse, hdrop, List.filter_reverse, List.reverse_reverse]
  · rfl

theorem getLast?_entrySegments_ne {p : Path} (hne : p.text ≠ "") : p.entrySegments.getLast? ≠ some "" := by
  unfold entrySegments
  split
  · intro hl
    rw [List.getLast?_reverse] at hl
    have := List.head?_dropWhile_not (· == "") p.segments.reverse
    simp [hl] at this
  · next hslash =>
    intro hl
    obtain ⟨ss, hss⟩ := List.getLast?_eq_some_iff.1 hl
    cases ss with
    | nil => exact hne (segments_eq_singleton_empty hss)
    | cons s ss =>
      have hlen : 1 < p.segments.length := by rw [hss]; simp
      exact hslash (by simp [endsInSlash, hl, hlen])

theorem filter_eq_self_of_isName {ns : List String} (h : ∀ n ∈ ns, IsName n) :
    (ns.filter fun s => !isFiller s) = ns :=
  List.filter_eq_self.2 fun n hn => by simp [(h n hn).not_filler]

section
variable {ns : List String} (hne : ns ≠ []) (h : ∀ n ∈ ns, IsName n)
include hne h

theorem pieces_joinNames : Text.pieces '/' (Text.joinWith "/" ns) = ns :=
  Text.pieces_joinWith hne fun n hn => (h n hn).2.2.2

theorem joinNames_ne_empty : Text.joinWith "/" ns ≠ "" := by
  intro he
  have hp := pieces_joinNames hne h
  rw [he] at hp
  have : ns = [""] := hp.symm
  exact (h "" (by simp [this])).1 rfl

theorem startsAtRoot_joinNames : startsAtRoot (Text.joinWith "/" ns) = false := by
  cases ns with
  | nil => exact absurd rfl hne
  | cons n ns =>
    obtain ⟨hn, -, -, hs⟩ := h n (by simp)
    have hh : n.toList.head? ≠ some '/' := fun hh => hs (List.mem_of_mem_head? hh)
    cases hcs : n.toList with
    | nil => exact absurd (String.toList_eq_nil_iff.1 hcs) hn
    | cons c cs =>
      cases ns with
      | nil => simpa [startsAtRoot, Text.joinWith] using hh
      | cons m ns => simpa [startsAtRoot, Text.joinWith, hcs] using hh

end

theorem names_joinNames {ns : List String} (hne : ns ≠ []) (h : ∀ n ∈ ns, IsName n) :
    (⟨Text.joinWith "/" ns⟩ : Path).names = ns := by
  rw [names, segments, pieces_joinNames hne h, filter_eq_self_of_isName h]

theorem join_of_startsAtRoot {rel : String} (h : startsAtRoot rel = true) (dir : Path) :
    dir.join rel = ⟨rel⟩ := by
  simp only [startsAtRoot, beq_iff_eq] at h
  simp [join, h]

/-- What stands in front of a relative text that is joined to a path. -/
def front (dir : Path) : String :=
  if dir.text.isEmpty || dir.text.toList.getLast? == some '/' then dir.text else dir.text ++ "/"

theorem join_eq_front {rel : String} (h : startsAtRoot rel = false) (dir : Path) :
    dir.join rel = ⟨dir.front ++ rel⟩ := by
  have hrel : (rel.toList.head? == some '/') = false := h
  simp only [join, hrel, front, Bool.false_eq_true, if_false]
  split <;> rfl

/-- In front stands nothing, or a text that ends in a slash. -/
theorem front_cases (dir : Path) :
    dir.text = "" ∧ dir.front = "" ∨
      ∃ t, dir.front = t ++ "/" ∧ (dir.text = t ∨ dir.text = t ++ "/") ∧ dir.text ≠ "" := by
  by_cases he : dir.text = ""
  · exact .inl ⟨he, by simp [front, he]⟩
  · right
    by_cases hl : dir.text.toList.getLast? = some '/'
    · obtain ⟨cs, hcs⟩ := List.getLast?_eq_some_iff.1 hl
      have ht : dir.text = String.ofList cs ++ "/" := String.toList_injective (by simp [hcs])
      exact ⟨String.ofList cs, by simp [front, ht], .inr ht, he⟩
    · exact ⟨dir.text, by simp [front, he, hl], .inl rfl, he⟩

/-- The text of a joined path ends in that of the part joined. -/
theorem segments_join {rel : String} (h : startsAtRoot rel = false) (dir : Path) :
    ∃ before, (dir.join rel).segments = before ++ Text.pieces '/' rel ∧
      (dir.segments = before ∨ dir.segments = before ++ [""]) := by
  rw [join_eq_front h]
  have hempty : Text.pieces '/' "" = [""] := by simp [Text.pieces, Text.cutAll]
  obtain ⟨he, hf⟩ | ⟨t, hf, ht | ht, -⟩ := front_cases dir
  · exact ⟨[], by simp [segments, hf], .inr (by simp [segments, he, hempty])⟩
  · exact ⟨dir.segments, by simp only [segments, hf, ht, Text.pieces_append], .inl rfl⟩
  · refine ⟨Text.pieces '/' t, by simp only [segments, hf, Text.pieces_append], .inr ?_⟩
    have hp := Text.pieces_append t ""
    simpa [segments, ht, hempty] using hp

theorem isAbsolute_join {rel : String} (h : startsAtRoot rel = false) (dir : Path) :
    (dir.join rel).isAbsolute = dir.isAbsolute := by
  have hrel : (rel.toList.head? == some '/') = false := h
  rw [join_eq_front h]
  obtain ⟨he, hf⟩ | ⟨t, hf, ht, hne⟩ := front_cases dir
  · simp [isAbsolute, he, hf, hrel]
  · cases hc : dir.text.toList with
    | nil => exact absurd (String.toList_eq_nil_iff.1 hc) hne
    | cons c cs =>
      obtain ⟨after, ha⟩ : ∃ after, dir.front = dir.text ++ after := by
        rcases ht with ht | ht
        · exact ⟨"/", by rw [hf, ht]⟩
        · exact ⟨"", by simp [hf, ht]⟩
      simp [isAbsolute, ha, hc]

theorem names_join {rel : String} (h : startsAtRoot rel = false) (dir : Path) :
    (dir.join rel).names = dir.names ++ (⟨rel⟩ : Path).names := by
  obtain ⟨front, hj, hd | hd⟩ := segments_join h dir
  · simp only [names, hj, hd, List.filter_append]
    rfl
  · simp only [names, hj, hd, List.filter_append]
    simp [segments, isFiller]

theorem getLast?_joinNames {ns : List String} (hne : ns ≠ []) (h : ∀ n ∈ ns, IsName n) :
    ∃ c, (Text.joinWith "/" ns).toList.getLast? = some c ∧ c ≠ '/' := by
  induction ns with
  | nil => exact absurd rfl hne
  | cons n ns ih =>
    cases ns with
    | nil =>
      obtain ⟨hn, -, -, hs⟩ := h n (by simp)
      have hcs : n.toList ≠ [] := fun hc => hn (String.toList_eq_nil_iff.1 hc)
      exact ⟨_, by simp [Text.joinWith, List.getLast?_eq_some_getLast hcs],
        fun he => hs (he ▸ List.getLast_mem hcs)⟩
    | cons m ns =>
      obtain ⟨c, hc, hslash⟩ := ih (by simp) fun x hx => h x (by simp [hx])
      refine ⟨c, ?_, hslash⟩
      rw [Text.joinWith_cons (by simp), String.toList_append, List.getLast?_append, hc]
      rfl

theorem front_join {ns : List String} (hne : ns ≠ []) (h : ∀ n ∈ ns, IsName n) (dir : Path) :
    (dir.join (Text.joinWith "/" ns)).front = dir.front ++ Text.joinWith "/" ns ++ "/" := by
  obtain ⟨c, hc, hslash⟩ := getLast?_joinNames hne h
  have hempty := joinNames_ne_empty hne h
  rw [join_eq_front (startsAtRoot_joinNames hne h), front, if_neg]
  simp [hempty, List.getLast?_append, hc, hslash]

theorem join_join {ns : List String} (hne : ns ≠ []) (h : ∀ n ∈ ns, IsName n) {rel : String}
    (hrel : startsAtRoot rel = false) (dir : Path) :
    (dir.join (Text.joinWith "/" ns)).join rel = dir.join (Text.joinWith "/" ns ++ "/" ++ rel) := by
  have hcs : (Text.joinWith "/" ns).toList ≠ [] := fun hc =>
    joinNames_ne_empty hne h (String.toList_eq_nil_iff.1 hc)
  have hroot : startsAtRoot (Text.joinWith "/" ns ++ "/" ++ rel) = false := by
    have := startsAtRoot_joinNames hne h
    obtain ⟨c, cs, hc⟩ := List.exists_cons_of_ne_nil hcs
    simpa [startsAtRoot, hc] using this
  rw [join_eq_front hrel, front_join hne h, join_eq_front hroot]
  simp [String.append_assoc]

/-- Joining names one after the other is joining them at once. -/
theorem foldl_join {ns : List String} (hne : ns ≠ []) (h : ∀ n ∈ ns, IsName n) (dir : Path) :
    ns.foldl join dir = dir.join (Text.joinWith "/" ns) := by
  have more (ms : List String) : ∀ done : List String, done ≠ [] → (∀ n ∈ done, IsName n) →
      (∀ m ∈ ms, IsName m) →
      ms.foldl join (dir.join (Text.joinWith "/" done)) = dir.join (Text.joinWith "/" (done ++ ms)) := by
    induction ms with
    | nil => simp
    | cons m ms ih =>
      intro done hd hdone hms
      have hm : ∀ x ∈ [m], IsName x := by simpa using hms m (by simp)
      have hroot : startsAtRoot m = false := by
        simpa [Text.joinWith] using startsAtRoot_joinNames (by simp) hm
      rw [List.foldl_cons, join_join hd hdone hroot]
      have hjoin : Text.joinWith "/" done ++ "/" ++ m = Text.joinWith "/" (done ++ [m]) := by
        rw [Text.joinWith_append hd (by simp)]
        simp [Text.joinWith]
      have hboth : ∀ x ∈ done ++ [m], IsName x := fun x hx =>
        (List.mem_append.1 hx).elim (hdone x) (hm x)
      rw [hjoin, ih (done ++ [m]) (by simp) hboth fun x hx => hms x (by simp [hx])]
      simp
  cases ns with
  | nil => exact absurd rfl hne
  | cons n ns =>
    have hn : ∀ x ∈ [n], IsName x := by simpa using h n (by simp)
    have := more ns [n] (by simp) hn fun x hx => h x (by simp [hx])
    simpa [Text.joinWith] using this

section
variable {ns : List String} (hne : ns ≠ []) (h : ∀ n ∈ ns, IsName n) (dir : Path)
include hne h

theorem startsHere_join : (dir.join (Text.joinWith "/" ns)).startsHere = dir.startsHere := by
  obtain ⟨before, hj, hd⟩ := segments_join (startsAtRoot_joinNames hne h) dir
  rw [pieces_joinNames hne h] at hj
  obtain ⟨n, ms, rfl⟩ := List.exists_cons_of_ne_nil hne
  have hn : n ≠ "." := (h n (by simp)).2.1
  have hdir : dir.segments ≠ [] := Text.pieces_ne_nil _ _
  cases before with
  | nil =>
    have : dir.segments = [""] := by simpa [hdir] using hd
    simp [startsHere, hj, this, hn]
  | cons b bs => rcases hd with hd | hd <;> simp [startsHere, hj, hd]

theorem lead_join : (dir.join (Text.joinWith "/" ns)).lead = dir.lead := by
  simp only [lead, isAbsolute_join (startsAtRoot_joinNames hne h), startsHere_join hne h]

theorem body_join :
    ∃ before, (dir.join (Text.joinWith "/" ns)).body = before ++ ns ∧
      (dir.body = before ∨ dir.body = before ++ [""]) := by
  have hroot := startsAtRoot_joinNames hne h
  obtain ⟨before, hj, hd⟩ := segments_join hroot dir
  rw [pieces_joinNames hne h] at hj
  simp only [body, isAbsolute_join hroot, startsHere_join hne h, hj]
  by_cases hlead : (dir.isAbsolute || dir.startsHere) = true
  · -- a path with a lead of its own has a first segment to drop
    have hb : before ≠ [] := by
      rintro rfl
      have hs : dir.segments = [""] := by
        simpa [show dir.segments ≠ [] from Text.pieces_ne_nil _ _] using hd
      have ht : dir.text = "" := by rw [← Text.joinWith_pieces dir.text, ← segments, hs]; rfl
      simp [isAbsolute, startsHere, hs, ht] at hlead
    simp only [hlead, if_true]
    refine ⟨before.tail, List.tail_append_of_ne_nil hb, ?_⟩
    rcases hd with hd | hd
    · exact .inl (by rw [hd])
    · exact .inr (by rw [hd, List.tail_append_of_ne_nil hb])
  · simp only [hlead]
    exact ⟨before, rfl, hd⟩

theorem components_join :
    (dir.join (Text.joinWith "/" ns)).components = dir.components ++ ns.map Component.name := by
  obtain ⟨before, hj, hd⟩ := body_join hne h dir
  have hns : (ns.map componentOf) = ns.map Component.name :=
    List.map_congr_left fun n hn => by simp [componentOf, (h n hn).2.2.1]
  have hfilter : (dir.body.filter fun s => !isFiller s) = before.filter fun s => !isFiller s := by
    rcases hd with hd | hd <;> simp [hd, isFiller]
  simp only [components, lead_join hne h, hj, List.filter_append, filter_eq_self_of_isName h, hfilter,
    List.map_append, hns, List.append_assoc]

theorem slashBelow?_join : slashBelow? dir (dir.join (Text.joinWith "/" ns)) = some (Text.joinWith "/" ns) := by
  have hc := components_join hne h dir
  obtain ⟨n, ms, rfl⟩ := List.exists_cons_of_ne_nil hne
  have htext : (Component.name n :: ms.map Component.name).map Component.text = n :: ms := by
    simp [Component.text, Function.comp_def]
  simp only [slashBelow?, below?, hc, List.isPrefixOf_iff_prefix.2 (List.prefix_append _ _), if_true,
    List.drop_left, List.map_cons]
  rw [← htext]
  rfl

omit hne in
theorem dropNames_append (before : List String) :
    dropNames (before.filter fun s => !isFiller s).length (before ++ ns) = ns := by
  induction before with
  | nil =>
    cases ns with
    | nil => rfl
    | cons n ns => simp [dropNames, (h n (by simp)).not_filler]
  | cons b bs ih =>
    by_cases hb : isFiller b = true
    · simp only [List.filter_cons, hb, Bool.not_true, Bool.false_eq_true, if_false, List.cons_append]
      generalize (bs.filter fun s => !isFiller s).length = k at ih
      cases k <;> simpa [dropNames, hb] using ih
    · simpa [hb, dropNames] using ih

theorem dropEndFillers_append (before : List String) : dropEndFillers (before ++ ns) = before ++ ns := by
  obtain ⟨ms, n, rfl⟩ : ∃ ms n, ns = ms ++ [n] := ⟨_, _, (List.dropLast_concat_getLast hne).symm⟩
  simp [dropEndFillers, (h n (by simp)).not_filler]

omit hne h in
theorem text_eq_empty_of_components (hc : dir.components = []) : dir.text = "" := by
  simp only [components, List.append_eq_nil_iff, List.map_eq_nil_iff] at hc
  obtain ⟨hlead, hbody⟩ := hc
  have habs : dir.isAbsolute = false ∧ dir.startsHere = false := by
    unfold lead at hlead
    split at hlead
    · cases hlead
    · split at hlead
      · cases hlead
      · simp_all
  cases hcs : dir.text.toList with
  | nil => exact String.toList_eq_nil_iff.1 hcs
  | cons c cs =>
    have hslash : c ≠ '/' := by simpa [isAbsolute, hcs] using habs.1
    obtain ⟨part, parts, -, hcut⟩ := Text.cutAll_cons_ne hslash cs
    have hseg : dir.segments = String.ofList (c :: part) :: parts.map String.ofList := by
      simp [segments, Text.pieces, hcs, hcut]
    have hempty : String.ofList (c :: part) ≠ "" := by
      intro he
      have := congrArg String.toList he
      simp at this
    generalize String.ofList (c :: part) = first at hseg hempty
    have hhere : first ≠ "." := by simpa [startsHere, hseg] using habs.2
    simp [body, habs.1, habs.2, hseg, isFiller, hempty, hhere] at hbody

theorem textBelow?_join :
    textBelow? dir (dir.join (Text.joinWith "/" ns)) = some (Text.joinWith "/" ns) := by
  have hc := components_join hne h dir
  obtain ⟨before, hj, hd⟩ := body_join hne h dir
  have hcount : dir.components.length - dir.lead.length = (before.filter fun s => !isFiller s).length := by
    rcases hd with hd | hd <;> simp [components, hd, isFiller]
  have hend := dropEndFillers_append hne h []
  rw [List.nil_append] at hend
  simp only [textBelow?, hc, List.isPrefixOf_iff_prefix.2 (List.prefix_append _ _), if_true,
    lead_join hne h, hcount, hj, dropNames_append h, hend]
  split
  · next hzero =>
    have he := text_eq_empty_of_components dir (List.length_eq_zero_iff.1 hzero)
    have hroot := startsAtRoot_joinNames hne h
    have hns : before ++ ns = ns := by
      have hsegs : (dir.join (Text.joinWith "/" ns)).segments = ns := by
        rw [join_eq_front hroot, segments]
        simpa [front, he] using pieces_joinNames hne h
      have hlead : dir.isAbsolute = false ∧ dir.startsHere = false := by
        simp [isAbsolute, startsHere, segments, he, Text.pieces, Text.cutAll]
      rw [← hj, body, isAbsolute_join hroot, startsHere_join hne h, hlead.1, hlead.2, hsegs]
      rfl
    have hlead : dir.lead = [] := by simp [lead, isAbsolute, startsHere, segments, he, Text.pieces, Text.cutAll]
    simp [hlead, textOf, hns, hend]
  · rfl

end

end StoryPress.Path
