import StoryPress.Command.Invocation
import StoryPress.Proofs.Outcome

/-!
# Flags on a command line

An option that takes no value and has no short form is given exactly if its word is among the words: a word
that looks like an option is never the value of another, and a flag with a value is refused.

* `OptionSpec.IsFlag`: such an option, with a name that no other option of the command has;
* `Settled`, `ArgumentState.flag_of_read`: what reading the words records of it;
* `has_iff_of_readArguments`: the flag is given if and only if its word is there.
-/

namespace StoryPress

namespace OptionSpec

/-- The word that gives an option by its name. -/
def word (o : OptionSpec) : String := "--" ++ o.name

/-- An option of a command that takes no value, is known by its name alone, and shares it with no other. -/
structure IsFlag (specs : List OptionSpec) (o : OptionSpec) : Prop where
  mem : o ∈ specs
  plain : o.expects = .nothing
  long : o.short = none
  nonempty : o.name ≠ ""
  unassigned : '=' ∉ o.name.toList
  only : ∀ p ∈ specs, p.name = o.name → p = o

end OptionSpec

theorem OptionSpec.eq_word_iff {o : OptionSpec} {w : String} :
    w = o.word ↔ w.toList = '-' :: '-' :: o.name.toList := by
  rw [← String.toList_inj, word, String.toList_append]
  rfl

namespace ArgumentState

variable {specs : List OptionSpec} {o p : OptionSpec} {s s' : ArgumentState}

/-- The option that waits for its value has another name. -/
def Awaits (name : String) (s : ArgumentState) : Prop := ∀ p value, s.pending = some (p, value) → p.name ≠ name

/-- From one state to the next an option of the name is recorded exactly if `now` says so. -/
structure Notes (name : String) (now : Prop) (s s' : ArgumentState) : Prop where
  given : s'.given.has name = true ↔ s.given.has name = true ∨ now
  awaits : s'.Awaits name

theorem Notes.trans {name : String} {first second : Prop} {t : ArgumentState} (h : Notes name first s t)
    (h' : Notes name second t s') : Notes name (first ∨ second) s s' := by
  refine ⟨?_, h'.awaits⟩
  rw [h'.given, h.given, or_assoc]

theorem Notes.congr {name : String} {now now' : Prop} (h : Notes name now s s') (hiff : now ↔ now') :
    Notes name now' s s' := ⟨by rw [h.given, hiff], h.awaits⟩

theorem notes_record {name value : String} (hw : s.Awaits name) (h : s.record p value = .ok s') :
    Notes name (p.name = name) s s' := by
  unfold record at h
  split at h
  · obtain ⟨_, he, -⟩ := bind_eq_ok.1 h
    cases he
  · obtain ⟨⟨⟩, -, h⟩ := bind_eq_ok.1 h
    obtain rfl := pure_eq_ok.1 h
    exact ⟨by simp [Given.has], hw⟩

/-- The value that was waited for belongs to an option of another name. -/
theorem notes_settle {name : String} (hw : s.Awaits name) (h : s.settle = .ok s') : Notes name False s s' := by
  unfold settle at h
  split at h
  · obtain rfl := Except.ok.inj h
    exact ⟨by simp, hw⟩
  · cases h
  · next p value hp =>
    have hnone : ({ s with pending := none } : ArgumentState).Awaits name := by
      intro q v hq
      cases hq
    have hnotes := notes_record hnone h
    exact ⟨by simpa [hw p _ hp] using hnotes.given, hnotes.awaits⟩

/-- What takes no value never waits for one. -/
theorem notes_take {name : String} {attached : Option String} (hw : s.Awaits name)
    (hvalued : p.takesValue = true → p.name ≠ name) (h : s.take p attached = .ok s') :
    Notes name (p.name = name) s s' := by
  unfold take at h
  obtain ⟨t, ht, h⟩ := bind_eq_ok.1 h
  have hsettled := notes_settle hw ht
  have hrecorded {value : String} (h : t.record p value = .ok s') : Notes name (p.name = name) s s' :=
    (hsettled.trans (notes_record hsettled.awaits h)).congr (by simp)
  split at h
  · cases h
  · exact hrecorded h
  · exact hrecorded h
  · next hhelp hnothing _ =>
    obtain rfl := pure_eq_ok.1 h
    have hne : p.name ≠ name := hvalued (by cases he : p.expects <;> simp_all [OptionSpec.takesValue])
    refine ⟨by simpa [hne] using hsettled.given, fun q v hq => ?_⟩
    obtain ⟨rfl, -⟩ := Prod.mk.inj (Option.some.inj hq)
    exact hne

section
variable (hflag : o.IsFlag specs)
include hflag

theorem ne_of_takesValue (hp : p ∈ specs) (hv : p.takesValue = true) : p.name ≠ o.name := by
  intro hname
  obtain rfl := hflag.only p hp hname
  simp [OptionSpec.takesValue, hflag.plain] at hv

theorem notes_takeLong {name : String} (hw : s.Awaits o.name) (h : s.takeLong specs name = .ok s') :
    Notes o.name (name = o.name) s s' := by
  unfold takeLong at h
  cases hsplit : Text.splitFirst? '=' name with
  | none =>
    simp only [hsplit] at h
    split at h
    · cases h
    · next p hp =>
      have hname : p.name = name := by simpa using List.find?_some hp
      split at h
      · cases h
      · exact hname ▸ notes_take hw (ne_of_takesValue hflag (List.mem_of_find?_eq_some hp)) h
  | some parts =>
    obtain ⟨before, value⟩ := parts
    simp only [hsplit] at h
    split at h
    · cases h
    · next p hp =>
      have hname : p.name = before := by simpa using List.find?_some hp
      split at h
      · cases h
      · next hvalued =>
        have hne : p.name ≠ o.name :=
          ne_of_takesValue hflag (List.mem_of_find?_eq_some hp) (by simpa using hvalued)
        refine (notes_take hw (fun _ => hne) h).congr (iff_of_false hne ?_)
        rintro rfl
        -- the name of the flag cannot be cut
        simp only [Text.splitFirst?, Text.cutFirst?_eq_none_iff.2 hflag.unassigned, Option.map_none] at hsplit
        cases hsplit

/-- A word with one hyphen gives no flag that has no short form. -/
theorem notes_takeShort {cs : List Char} (hw : s.Awaits o.name) (h : s.takeShort specs cs = .ok s') :
    Notes o.name False s s' := by
  induction cs generalizing s with
  | nil =>
    obtain rfl := Except.ok.inj h
    exact ⟨by simp, hw⟩
  | cons c rest ih =>
    unfold takeShort at h
    split at h
    · cases h
    · next p hp =>
      have hne : p.name ≠ o.name := by
        intro hname
        obtain rfl := hflag.only p (List.mem_of_find?_eq_some hp) hname
        simpa [hflag.long] using List.find?_some hp
      have htaken {attached : Option String} {t : ArgumentState} (ht : s.take p attached = .ok t) :
          Notes o.name False s t := (notes_take hw (fun _ => hne) ht).congr (by simp [hne])
      split at h
      · split at h
        · exact htaken h
        · exact htaken h
        · exact htaken h
      · obtain ⟨t, ht, h⟩ := bind_eq_ok.1 h
        have hfirst := htaken ht
        exact (hfirst.trans (ih hfirst.awaits h)).congr (by simp)

/-- What reading words records of a flag. -/
theorem notes_read {words : List String} (hw : s.Awaits o.name) (h : s.read specs words = .ok s') :
    Notes o.name (o.word ∈ words) s s' := by
  induction words generalizing s with
  | nil => exact (notes_settle hw h).congr (by simp)
  | cons w rest ih =>
    unfold read at h
    -- the words that give other options, or none, are not the flag's
    have hother (hne : w ≠ o.word) : (o.word ∈ rest) ↔ o.word ∈ w :: rest := by simp [Ne.symm hne]
    split at h
    · next hdashes =>
      have hne : w ≠ o.word := by
        rw [ne_eq, OptionSpec.eq_word_iff, hdashes]
        simpa using hflag.nonempty
      split at h
      · next hrest =>
        obtain rfl := List.isEmpty_iff.1 hrest
        exact (notes_settle hw h).congr (by simp [Ne.symm hne])
      · cases h
    · next name _ hlong =>
      obtain ⟨t, ht, h⟩ := bind_eq_ok.1 h
      have hfirst := notes_takeLong hflag hw ht
      refine (hfirst.trans (ih hfirst.awaits h)).congr ?_
      have hword : String.ofList name = o.name ↔ o.word = w := by
        rw [eq_comm (a := o.word), OptionSpec.eq_word_iff, hlong, ← String.toList_inj]
        simp
      rw [hword, List.mem_cons]
    · next c more _ hnolong hshort =>
      obtain ⟨t, ht, h⟩ := bind_eq_ok.1 h
      have hfirst := notes_takeShort hflag hw ht
      have hne : w ≠ o.word := by
        rw [ne_eq, OptionSpec.eq_word_iff, hshort]
        exact fun heq => hnolong (List.cons.inj (List.cons.inj heq).2).1
      exact (hfirst.trans (ih hfirst.awaits h)).congr (by rw [false_or, hother hne])
    · next _ hnolong _ =>
      have hne : w ≠ o.word := by
        rw [ne_eq, OptionSpec.eq_word_iff]
        exact hnolong _
      split at h
      · next p hp =>
        have hstill : ({ s with pending := some (p, some w) } : ArgumentState).Awaits o.name := by
          intro q v hq
          obtain ⟨rfl, -⟩ := Prod.mk.inj (Option.some.inj hq)
          exact hw p none hp
        have hrest := ih hstill h
        exact ⟨by rw [hrest.given, hother hne], hrest.awaits⟩
      · cases h

end

end ArgumentState

/-- A flag is given if and only if its word is among the words. -/
theorem has_iff_of_readArguments {specs : List OptionSpec} {o : OptionSpec}
    (hflag : o.IsFlag (helpOption :: specs)) {words : List String} {g : Given}
    (h : readArguments specs words = .ok g) : g.has o.name = true ↔ o.word ∈ words := by
  unfold readArguments at h
  cases hread : ({} : ArgumentState).read (helpOption :: specs) words with
  | error stop =>
    rw [hread] at h
    cases h
  | ok s =>
    rw [hread] at h
    obtain rfl := Except.ok.inj h
    have hstart : ({} : ArgumentState).Awaits o.name := by
      intro p value hp
      cases hp
    rw [(ArgumentState.notes_read hflag hstart hread).given]
    simp [Given.has]

end StoryPress
