import StoryPress.Proofs.Confined

/-!
# What pruning leaves

Pruning asks the directories below one, from below, whether they are empty. A directory that is left empty by the
removal of another is asked after it, so none is left empty.

* `FileSystem.NoneEmpty`: each directory at and below a location has an entry;
* `FileSystem.noneEmpty_sweep`: sweeping leaves no empty directory;
* `Sink.noneEmpty_of_prune`: nor does pruning, and it changes nothing elsewhere (`Sink.node?_of_prune`);
* `Export.noneEmpty_of_pruneAll`: nor does pruning several directories of which none lies in another.
-/

namespace StoryPress

namespace FileSystem

/-- Each directory at and below a location has an entry. -/
def NoneEmpty (fs : FileSystem) (l : Location) : Prop :=
  ∀ ns, fs.node? (l ++ ns) = some .directory → ∃ ms, ms ≠ [] ∧ (fs.node? (l ++ ns ++ ms)).isSome

theorem NoneEmpty.congr {fs fs' : FileSystem} {l : Location} (h : fs.NoneEmpty l)
    (hsame : ∀ ns, fs'.node? (l ++ ns) = fs.node? (l ++ ns)) : fs'.NoneEmpty l := by
  intro ns hdir
  obtain ⟨ms, hne, hsome⟩ := h ns (hsame ns ▸ hdir)
  refine ⟨ms, hne, ?_⟩
  rw [List.append_assoc] at hsome ⊢
  rwa [hsame]

theorem compare_append {l : Location} {ns : List String} (hne : ns ≠ []) : compare l (l ++ ns) = .lt := by
  induction l with
  | nil =>
    obtain ⟨n, ns, rfl⟩ := List.exists_cons_of_ne_nil hne
    rfl
  | cons a l ih =>
    rw [List.cons_append, List.compare_cons_cons, ih, show compare a a = .eq from Std.ReflCmp.compare_self]
    rfl

/-- What comes first in the order of a walk is not below what comes later. -/
theorem not_prefix_of_lt {k l : Location} (h : compare k l = .lt) : ¬l <+: k := by
  rintro ⟨ns, rfl⟩
  by_cases hne : ns = []
  · rw [hne, List.append_nil, show compare l l = .eq from Std.ReflCmp.compare_self] at h
    cases h
  · rw [Std.OrientedCmp.gt_of_lt (compare_append hne)] at h
    cases h

theorem pairwise_upwards (fs : FileSystem) (l : Location) : (fs.upwards l).Pairwise fun d e => ¬d <+: e := by
  refine List.pairwise_reverse.2 (List.pairwise_cons.2 ⟨?_, ?_⟩)
  · intro d hd
    obtain ⟨⟨k, n⟩, hk, hkn⟩ := List.mem_filterMap.1 hd
    obtain ⟨ns, hne, rfl, -⟩ := mem_below_iff.1 hk
    dsimp only at hkn
    split at hkn
    · obtain rfl := Option.some.inj hkn
      exact not_prefix_of_lt (compare_append hne)
    · cases hkn
  · refine List.pairwise_filterMap.2 ((fs.nodes.sorted.filter _).imp ?_)
    rintro ⟨k, n⟩ ⟨k', n'⟩ hlt d hd e he
    dsimp only at hd he
    split at hd <;> cases hd
    split at he <;> cases he
    exact not_prefix_of_lt hlt

section
variable {fs : FileSystem} {ds : List Location} {l : Location}

theorem node?_clear_of_ne {d : Location} (h : l ≠ d) : (fs.clear d).node? l = fs.node? l := by
  unfold clear
  split
  · rw [node?_drop, if_neg fun he => h he.1]
  · rfl

theorem node?_foldl_clear (h : l ∉ ds) : (ds.foldl clear fs).node? l = fs.node? l := by
  induction ds generalizing fs with
  | nil => rfl
  | cons d ds ih =>
    rw [List.mem_cons, not_or] at h
    rw [List.foldl_cons, ih h.2, node?_clear_of_ne h.1]

/-- A directory that is still there had an entry when it was its turn, and those below it have had theirs. -/
theorem exists_entry_of_foldl_clear (hds : ds.Pairwise fun d e => ¬d <+: e) {d : Location} (hd : d ∈ ds)
    (hne : d ≠ []) {n : Node} (hn : (ds.foldl clear fs).node? d = some n) :
    ∃ ms, ms ≠ [] ∧ ((ds.foldl clear fs).node? (d ++ ms)).isSome := by
  induction ds generalizing fs with
  | nil => cases hd
  | cons e ds ih =>
    obtain ⟨hlater, hrest⟩ := List.pairwise_cons.1 hds
    rw [List.foldl_cons] at hn ⊢
    rcases List.mem_cons.1 hd with rfl | hd
    · have hkept {ms : List String} : ((ds.foldl clear (fs.clear d)).node? (d ++ ms)) = (fs.clear d).node? (d ++ ms) :=
        node?_foldl_clear fun hmem => hlater _ hmem (List.prefix_append _ _)
      have hstays := shrinks_foldl_clear.node? d n hn
      by_cases hempty : fs.below d = []
      · have hgone : (fs.clear d).node? d = none := by
          have hcleared : fs.clear d = fs.drop d := by simp [clear, isEmptyDirectory, hempty, hne]
          rw [hcleared, node?_drop, if_pos ⟨rfl, hne⟩]
        rw [hgone] at hstays
        cases hstays
      · obtain ⟨⟨k, m⟩, hmem⟩ := List.exists_mem_of_ne_nil _ hempty
        obtain ⟨ms, hms, rfl, hm⟩ := mem_below_iff.1 hmem
        have hself : d ++ ms ≠ d := by simpa using hms
        exact ⟨ms, hms, by rw [hkept, node?_clear_of_ne hself, hm]; rfl⟩
    · exact ih hrest hd hn

/-- Sweeping leaves no empty directory. -/
theorem noneEmpty_sweep (hne : l ≠ []) : (fs.sweep l).NoneEmpty l := by
  intro ns hdir
  rw [sweep_eq_foldl] at hdir ⊢
  have hmem : l ++ ns ∈ fs.upwards l := by
    rw [mem_upwards_iff]
    by_cases hns : ns = []
    · exact .inl (by rw [hns, List.append_nil])
    · exact .inr ⟨ns, hns, rfl, shrinks_foldl_clear.node? _ _ hdir⟩
  exact exists_entry_of_foldl_clear (fs.pairwise_upwards l) hmem (List.append_ne_nil_of_left_ne_nil hne ns) hdir

end

end FileSystem

namespace Sink

open FileSystem (NoneEmpty Touches Framed)

variable {w w' : Workbench} {ms : List String}

/-- Pruning changes nothing but what is at and below its directory. -/
theorem node?_of_prune {count : Nat} (hne : ms ≠ []) (hms : ∀ m ∈ ms, Path.IsName m) (hw : w.files.WellFormed)
    (hd : w.sink.dryRun = false) (h : Runs (prune (Text.joinWith "/" ms)) w count w') {l : Location}
    (hl : ¬w.files.place w.sink.root ++ ms <+: l) : w'.files.node? l = w.files.node? l := by
  let below (rel : String) : Prop := ∃ ns, (∀ n ∈ ns, Path.IsName n) ∧ rel = Text.joinWith "/" (ms ++ ns)
  have hkeeps : Keeps (Confined (Touches w.sink.root below) w.sink.root w.files) (fun _ => True)
      (prune (Text.joinWith "/" ms)) := keeps_prune_steps hw hne hms fun ns hns => ⟨ns, hns, rfl⟩
  have hsteps := (hkeeps w ⟨rfl, .refl⟩).1.2
  rw [show (outcome (prune (Text.joinWith "/" ms)) w).2 = w' by rw [show outcome _ w = _ from h]] at hsteps
  have hout : ∀ rel, below rel → l ≠ w.files.place (w.sink.root.join rel) := by
    rintro rel ⟨ns, hns, rfl⟩ rfl
    rw [FileSystem.place_join_names (by simp [hne]) fun n hn => (List.mem_append.1 hn).elim (hms n) (hns n),
      ← List.append_assoc] at hl
    exact hl (List.prefix_append _ _)
  by_contra hdiff
  obtain ⟨hnone, hnew, -⟩ := (Framed.of_steps hsteps).frame l hout hdiff
  rw [(prune_real hne hms hw hd h).2.node? l _ hnew] at hnone
  cases hnone

/-- Pruning leaves no empty directory where its path leads. -/
theorem noneEmpty_of_prune {count : Nat} (hne : ms ≠ []) (hms : ∀ m ∈ ms, Path.IsName m) (hw : w.files.WellFormed)
    (hd : w.sink.dryRun = false) (hl : w.files.Leads w.sink.root)
    (h : Runs (prune (Text.joinWith "/" ms)) w count w') :
    w'.files.NoneEmpty (w.files.place w.sink.root ++ ms) := by
  cases prunes_of_prune h with
  | absent hnodir =>
    intro ns hdir
    have htop : w.files.node? (w.files.place w.sink.root ++ ms) = some .directory := by
      by_cases hns : ns = []
      · rwa [hns, List.append_nil] at hdir
      · exact hw.node?_of_append hns hdir
    rw [(FileSystem.isDirectory_join_iff hw hne hms).2 ⟨hl, htop⟩] at hnodir
    cases hnodir
  | surveyed _ hdry => cases hd.symm.trans hdry
  | swept _ _ hremoved hlocate =>
    obtain ⟨-, hshrinks, -⟩ := fileAt_of_removeAll hw hremoved
    rw [FileSystem.locate_eq_place hlocate, hshrinks.place_eq, FileSystem.place_join_names hne hms]
    exact FileSystem.noneEmpty_sweep (by simp [hne])

end Sink

namespace Export

variable {w w' : Workbench} {mss : List (List String)}

section
variable (hmss : ∀ ms ∈ mss, ms ≠ [] ∧ ∀ m ∈ ms, Path.IsName m) (hw : w.files.WellFormed)
  (hd : w.sink.dryRun = false) (h : Runs (pruneAll (mss.map (Text.joinWith "/"))) w () w')
include hmss hw hd h

theorem node?_of_pruneAll {l : Location} (hl : ∀ ms ∈ mss, ¬w.files.place w.sink.root ++ ms <+: l) :
    w'.files.node? l = w.files.node? l := by
  induction mss generalizing w with
  | nil =>
    obtain ⟨-, rfl⟩ := Runs.pure_iff.1 h
    rfl
  | cons ms mss ih =>
    obtain ⟨count, w₁, hp, h⟩ := Runs.bind_iff.1 h
    obtain ⟨hne, hms⟩ := hmss ms (by simp)
    obtain ⟨hsink, hpruned⟩ := Sink.prune_real hne hms hw hd hp
    rw [← Sink.node?_of_prune hne hms hw hd hp (hl ms (by simp))]
    refine ih (fun x hx => hmss x (by simp [hx])) (hpruned.wellFormed hw) (hsink ▸ hd) h fun x hx => ?_
    rw [hsink, hpruned.place_eq]
    exact hl x (by simp [hx])

/-- Pruning directories of which none lies in another leaves no empty directory in any. -/
theorem noneEmpty_of_pruneAll (hapart : mss.Pairwise fun ms ms' => ¬ms <+: ms' ∧ ¬ms' <+: ms)
    (hl : w'.files.Leads w.sink.root) :
    ∀ ms ∈ mss, w'.files.NoneEmpty (w.files.place w.sink.root ++ ms) := by
  induction mss generalizing w with
  | nil => simp
  | cons ms mss ih =>
    obtain ⟨count, w₁, hp, h⟩ := Runs.bind_iff.1 h
    obtain ⟨hne, hms⟩ := hmss ms (by simp)
    obtain ⟨hsink, hpruned⟩ := Sink.prune_real hne hms hw hd hp
    obtain ⟨hfirst, hrest⟩ := List.pairwise_cons.1 hapart
    have hmss' := fun x hx => hmss x (List.mem_cons_of_mem ms hx)
    have hw₁ := hpruned.wellFormed hw
    have hd₁ : w₁.sink.dryRun = false := hsink ▸ hd
    have hplace : w₁.files.place w₁.sink.root = w.files.place w.sink.root := by rw [hsink, hpruned.place_eq]
    have hl₁ : w₁.files.Leads w.sink.root :=
      hsink ▸ (pruneAll_real hmss' hw₁ hd₁ h).2.toShrinks.leads (hsink ▸ hl)
    have hempty := Sink.noneEmpty_of_prune hne hms hw hd (hpruned.leads hl₁) hp
    refine List.forall_mem_cons.2 ⟨hempty.congr fun ns => ?_, hplace ▸ ih hmss' hw₁ hd₁ h hrest (hsink ▸ hl)⟩
    refine node?_of_pruneAll hmss' hw₁ hd₁ h fun x hx hpre => ?_
    rw [hplace, List.append_assoc, List.prefix_append_right_inj] at hpre
    exact (List.prefix_or_prefix_of_prefix hpre (List.prefix_append ms ns)).elim (hfirst x hx).2 (hfirst x hx).1

end

end Export

end StoryPress
