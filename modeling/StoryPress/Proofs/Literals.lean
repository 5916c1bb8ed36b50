import Mathlib.Algebra.Ring.Parity
import Mathlib.Data.List.Induction
import StoryPress.Proofs.ScriptText

/-!
# Literals are read back

A reader of literals is an exact inverse of their writing, but for carriage returns. That no quote ends a literal before
its last one, and that brackets come in pairs, is said of the written characters alone, without the reader.

* `Quoted.Encodes`: what is written for one character, case by case;
* `Quoted.read?_eq_some_iff`: a reader takes literals of texts, and no others;
* `Quoted.quote_eq_iff`: which texts have one literal;
* `Quoted.cut_encode`: where what is written for a text comes apart;
* `Quoted.odd_of_encode`: every quote that is written for a text is escaped;
* `Quoted.even_of_encode`: brackets and braces are written in pairs;
* `Quoted.stands_for_text`: how a literal stands for its text.
-/

namespace StoryPress

/-- A text as a literal keeps it. -/
def Text.withoutReturns (s : String) : String := String.ofList (s.toList.filter (· != '\r'))

theorem Text.filter_returns_eq_self_iff {cs : List Char} : cs.filter (· != '\r') = cs ↔ '\r' ∉ cs := by
  rw [List.filter_eq_self]
  constructor
  · intro h hmem
    simpa using h _ hmem
  · intro h c hc
    have hne : c ≠ '\r' := fun heq => h (heq ▸ hc)
    simpa using hne

theorem Text.withoutReturns_eq_self_iff {s : String} : withoutReturns s = s ↔ '\r' ∉ s.toList := by
  rw [← String.toList_inj, withoutReturns, String.toList_ofList, filter_returns_eq_self_iff]

namespace Quoted

/-! ## What is written for a character -/

/-- What stands for a character: an escape, the character twice or once, or nothing. -/
inductive Encodes (c : Char) : List Char → Prop where
  | escape (d : Char) (hc : c ∈ ['\\', '"', '\n', '\t']) (hd : d ∉ ['[', '{']) : Encodes c ['\\', d]
  | twice (hc : c ∈ ['[', '{']) : Encodes c [c, c]
  | once (hc : c ∉ ['\\', '"', '\n', '\t', '[', '{', '\r']) : Encodes c [c]
  | nothing (hc : c = '\r') : Encodes c []

theorem encodes_encodeChar (c : Char) : Encodes c (encodeChar c) := by
  unfold encodeChar
  split_ifs with h1 h2 h3 h4 h5 h6 h7
  · exact .escape _ (by simp [h1]) (by decide)
  · exact .escape _ (by simp [h2]) (by decide)
  · exact .escape _ (by simp [h3]) (by decide)
  · exact .nothing h4
  · exact .escape _ (by simp [h5]) (by decide)
  · subst h6
    exact .twice (by decide)
  · subst h7
    exact .twice (by decide)
  · exact .once (by simp [h1, h2, h3, h4, h5, h6, h7])

theorem encode_cons (c : Char) (cs : List Char) : encode (c :: cs) = encodeChar c ++ encode cs := rfl

/-- Carriage returns leave no trace. -/
theorem encode_filter (cs : List Char) : encode (cs.filter (· != '\r')) = encode cs := by
  induction cs with
  | nil => rfl
  | cons c cs ih =>
    by_cases hc : c = '\r'
    · rw [hc, List.filter_cons_of_neg (by decide), ih]
      rfl
    · rw [List.filter_cons_of_pos (by simpa using hc), encode_cons, encode_cons, ih]

/-! ## Reading literals -/

theorem eq_encode_of_decode {cs text rest : List Char} (h : decode cs = some (text, rest)) :
    cs = encode text ++ '"' :: rest ∧ '\r' ∉ text := by
  fun_induction decode cs generalizing text with
  | case1 => cases h
  | case2 =>
    obtain ⟨rfl, rfl⟩ := Prod.mk.inj (Option.some.inj h)
    exact ⟨rfl, List.not_mem_nil⟩
  | case3 after ih | case4 after ih | case5 after ih | case6 after ih | case7 after ih | case8 after ih =>
    -- two characters that stand for one
    obtain ⟨⟨text', rest'⟩, hread, heq⟩ := Option.map_eq_some_iff.1 h
    obtain ⟨rfl, rfl⟩ := Prod.mk.inj heq
    obtain ⟨rfl, hno⟩ := ih hread
    exact ⟨rfl, by simp [hno]⟩
  | case9 => cases h
  | case10 c after hquote _ _ _ _ _ _ hc ih =>
    obtain ⟨⟨text', rest'⟩, hread, heq⟩ := Option.map_eq_some_iff.1 h
    obtain ⟨rfl, rfl⟩ := Prod.mk.inj heq
    obtain ⟨rfl, hno⟩ := ih hread
    simp only [Bool.or_eq_true, decide_eq_true_eq, not_or] at hc
    have hself : encodeChar c = [c] := by simp [encodeChar, hc, show c ≠ '"' from hquote]
    have hreturn : '\r' ≠ c := Ne.symm hc.1.2
    rw [encode_cons, hself]
    exact ⟨rfl, by simp [hreturn, hno]⟩

/-- What is read as the rest of a literal is what was written for a text. -/
theorem decode_eq_some_iff {cs text rest : List Char} :
    decode cs = some (text, rest) ↔ cs = encode text ++ '"' :: rest ∧ '\r' ∉ text := by
  refine ⟨eq_encode_of_decode, ?_⟩
  rintro ⟨rfl, hno⟩
  rw [decode_encode, Text.filter_returns_eq_self_iff.2 hno]

/-- Reads the literal that a text begins with: what it stands for, and what follows it. -/
def read? (s : String) : Option (String × String) :=
  match s.toList with
  | '"' :: cs => (decode cs).map fun (text, rest) => (String.ofList text, String.ofList rest)
  | _ => none

theorem read?_quote_append (text rest : String) :
    read? (quote text ++ rest) = some (Text.withoutReturns text, rest) := by
  have hchars : (quote text ++ rest).toList = '"' :: (encode text.toList ++ '"' :: rest.toList) := by
    simp [toList_quote]
  simp [read?, hchars, decode_encode, Text.withoutReturns]

/-- A reader takes the literals of texts, and no others. -/
theorem read?_eq_some_iff {s text rest : String} :
    read? s = some (text, rest) ↔ s = quote text ++ rest ∧ '\r' ∉ text.toList := by
  constructor
  · intro h
    unfold read? at h
    split at h
    · next cs hs =>
      obtain ⟨⟨text', rest'⟩, hread, heq⟩ := Option.map_eq_some_iff.1 h
      obtain ⟨rfl, rfl⟩ := Prod.mk.inj heq
      obtain ⟨rfl, hno⟩ := decode_eq_some_iff.1 hread
      rw [String.toList_ofList]
      refine ⟨?_, hno⟩
      apply String.toList_injective
      rw [hs]
      simp [toList_quote]
    · cases h
  · rintro ⟨rfl, hno⟩
    rw [read?_quote_append, Text.withoutReturns_eq_self_iff.2 hno]

theorem quote_withoutReturns (text : String) : quote (Text.withoutReturns text) = quote text := by
  apply String.toList_injective
  rw [toList_quote, toList_quote, Text.withoutReturns, String.toList_ofList, encode_filter]

/-- Texts have one literal if and only if they differ in carriage returns alone. -/
theorem quote_eq_iff {text other : String} :
    quote text = quote other ↔ Text.withoutReturns text = Text.withoutReturns other := by
  constructor
  · intro h
    have hread := read?_quote_append text ""
    rw [h, read?_quote_append] at hread
    exact (Prod.mk.inj (Option.some.inj hread)).1.symm
  · intro h
    rw [← quote_withoutReturns, h, quote_withoutReturns]

/-! ## Rows of one character -/

/-- How often a text has a character at its end. -/
def trailing (d : Char) (cs : List Char) : Nat := (cs.reverse.takeWhile (· == d)).length

@[simp] theorem trailing_concat_self (d : Char) (cs : List Char) : trailing d (cs ++ [d]) = trailing d cs + 1 := by
  simp [trailing]

theorem trailing_concat_ne {c d : Char} (h : c ≠ d) (cs : List Char) : trailing d (cs ++ [c]) = 0 := by
  simp [trailing, h]

namespace Encodes

variable {c d : Char} {before after written : List Char}

/-- What is written for a character comes apart after a backslash, and between two of a kind. -/
theorem cut (h : Encodes c (before ++ after)) (hbefore : before ≠ []) (hafter : after ≠ []) :
    (∃ e, e ∉ ['[', '{'] ∧ before = ['\\'] ∧ after = [e]) ∨ c ∈ ['[', '{'] ∧ before = [c] ∧ after = [c] := by
  obtain ⟨b, before, rfl⟩ := List.exists_cons_of_ne_nil hbefore
  obtain ⟨e, after, rfl⟩ := List.exists_cons_of_ne_nil hafter
  have hpair {x y : Char} (hw : (b :: before) ++ e :: after = [x, y]) : b :: before = [x] ∧ e :: after = [y] := by
    cases before <;> simp_all
  generalize hw : (b :: before) ++ e :: after = written at h
  cases h with
  | escape e' hc he =>
    obtain ⟨hb, he'⟩ := hpair hw
    exact .inl ⟨e', he, hb, he'⟩
  | twice hc => exact .inr ⟨hc, hpair hw⟩
  | once hc => simp at hw
  | nothing hc => cases hw

theorem head_ne_quote (h : Encodes c (d :: after)) : d ≠ '"' := by
  rintro rfl
  cases h <;> simp_all

/-- All that is written for a character leaves rows even. -/
theorem even_trailing (h : Encodes c written) (hd : d ∈ ['\\', '[', '{']) (heven : Even (trailing d before)) :
    Even (trailing d (before ++ written)) := by
  have htwo (b e : Char) : before ++ [b, e] = (before ++ [b]) ++ [e] := by simp
  cases h with
  | escape e hc he =>
    by_cases hed : e = d
    · subst hed
      obtain rfl : e = '\\' := by simp_all
      rw [htwo, trailing_concat_self, trailing_concat_self]
      exact heven.add even_two
    · rw [htwo, trailing_concat_ne hed]
      exact Even.zero
  | twice hc =>
    by_cases hcd : c = d
    · subst hcd
      rw [htwo, trailing_concat_self, trailing_concat_self]
      exact heven.add even_two
    · rw [htwo, trailing_concat_ne hcd]
      exact Even.zero
  | once hc =>
    have hcd : c ≠ d := by
      rintro rfl
      simp_all
    rw [trailing_concat_ne hcd]
    exact Even.zero
  | nothing hc => rwa [List.append_nil]

end Encodes

/-- Rows of backslashes, of brackets and of braces are even at the end of what is written for a text. -/
theorem even_trailing_encode {d : Char} (hd : d ∈ ['\\', '[', '{']) (cs : List Char) :
    Even (trailing d (encode cs)) := by
  induction cs using List.reverseRecOn with
  | nil => exact Even.zero
  | append_singleton cs c ih =>
    have hlast : encode (cs ++ [c]) = encode cs ++ encodeChar c := by simp [encode]
    rw [hlast]
    exact (encodes_encodeChar c).even_trailing hd ih

/-- What is written for a text comes apart between two of its characters, after the backslash of an escape, or between
two of a kind. -/
theorem cut_encode {cs before after : List Char} (h : encode cs = before ++ after) :
    (∃ front back, before = encode front ∧ after = encode back) ∨
      (∃ front e back, e ∉ ['[', '{'] ∧ before = encode front ++ ['\\'] ∧ after = e :: back) ∨
      ∃ front c back, c ∈ ['[', '{'] ∧ before = encode front ++ [c] ∧ after = c :: back := by
  induction cs generalizing before with
  | nil =>
    obtain ⟨rfl, rfl⟩ := List.append_eq_nil_iff.1 h.symm
    exact .inl ⟨[], [], rfl, rfl⟩
  | cons c cs ih =>
    rw [encode_cons] at h
    obtain ⟨rest, rfl, hrest⟩ | ⟨rest, hfirst, rfl⟩ := List.append_eq_append_iff.1 h
    · -- after what is written for the first character
      have hfront (front : List Char) : encodeChar c ++ encode front = encode (c :: front) := rfl
      obtain ⟨front, back, rfl, hback⟩ | ⟨front, e, back, he, rfl, hback⟩ | ⟨front, e, back, he, rfl, hback⟩ := ih hrest
      · exact .inl ⟨c :: front, back, hfront front, hback⟩
      · exact .inr (.inl ⟨c :: front, e, back, he, by rw [← List.append_assoc, hfront], hback⟩)
      · exact .inr (.inr ⟨c :: front, e, back, he, by rw [← List.append_assoc, hfront], hback⟩)
    · by_cases hbefore : before = []
      · rw [hbefore, List.nil_append] at hfirst
        exact .inl ⟨[], c :: cs, hbefore, by rw [encode_cons, hfirst]⟩
      · by_cases hrest : rest = []
        · rw [hrest, List.append_nil] at hfirst
          exact .inl ⟨[c], cs, by simp [encode, hfirst], by rw [hrest, List.nil_append]⟩
        · have hc := encodes_encodeChar c
          rw [hfirst] at hc
          obtain ⟨e, he, rfl, rfl⟩ | ⟨hmem, rfl, rfl⟩ := hc.cut hbefore hrest
          · exact .inr (.inl ⟨[], e, encode cs, he, rfl, rfl⟩)
          · exact .inr (.inr ⟨[], c, encode cs, hmem, rfl, rfl⟩)

theorem head?_encode_ne_quote (cs : List Char) : (encode cs).head? ≠ some '"' := by
  induction cs with
  | nil => simp [encode]
  | cons c cs ih =>
    have hc := encodes_encodeChar c
    rw [encode_cons]
    cases hwritten : encodeChar c with
    | nil => exact ih
    | cons d after =>
      rw [hwritten] at hc
      simpa using hc.head_ne_quote

/-- A quote that is written for a text has an odd number of backslashes right before it. -/
theorem odd_of_encode {cs before after : List Char} (h : encode cs = before ++ '"' :: after) :
    Odd (trailing '\\' before) := by
  obtain ⟨front, back, rfl, hback⟩ | ⟨front, e, back, -, rfl, -⟩ | ⟨front, c, back, hc, -, hback⟩ := cut_encode h
  · have hhead := head?_encode_ne_quote back
    rw [← hback] at hhead
    exact absurd rfl hhead
  · rw [trailing_concat_self]
    exact (even_trailing_encode (by decide) front).add_one
  · obtain ⟨rfl, -⟩ := List.cons.inj hback
    simp at hc

/-- A row of brackets or of braces that is written for a text is even where it ends. -/
theorem even_of_encode {d : Char} (hd : d ∈ ['[', '{']) {cs before after : List Char} (h : encode cs = before ++ after)
    (hend : after.head? ≠ some d) : Even (trailing d before) := by
  obtain ⟨front, back, rfl, -⟩ | ⟨front, e, back, -, rfl, -⟩ | ⟨front, c, back, -, rfl, rfl⟩ := cut_encode h
  · exact even_trailing_encode (List.mem_cons_of_mem _ hd) front
  · have hslash : '\\' ≠ d := by
      rintro rfl
      simp at hd
    rw [trailing_concat_ne hslash]
    exact Even.zero
  · -- between two of a kind ends a row of others only
    have hcd : c ≠ d := by
      rintro rfl
      simp at hend
    rw [trailing_concat_ne hcd]
    exact Even.zero

/-! ## Literals -/

/-- What stands between the first and the last character. -/
def between (literal : String) : List Char := literal.toList.tail.dropLast

theorem between_quote (text : String) : between (quote text) = encode text.toList := by
  rw [between, toList_quote, List.tail_cons, List.dropLast_concat]

/-- How a literal stands for a text. -/
structure StandsFor (literal text : String) : Prop where
  /-- Whatever follows, a reader takes the whole literal and no more, and gets the text without carriage returns. -/
  read : ∀ rest, read? (literal ++ rest) = some (Text.withoutReturns text, rest)
  delimited : literal.toList = '"' :: (between literal ++ ['"'])
  onLine : OnLine literal
  /-- Each quote in between is escaped: the number of backslashes right before it is odd. -/
  escaped : ∀ before after, between literal = before ++ '"' :: after → Odd (trailing '\\' before)
  /-- Where a row of brackets or of braces ends, their number is even. -/
  doubled : ∀ d ∈ ['[', '{'], ∀ before after, between literal = before ++ after → after.head? ≠ some d →
    Even (trailing d before)
  /-- It is the literal of just those texts that differ in carriage returns alone. -/
  literal_iff : ∀ other, quote other = literal ↔ Text.withoutReturns other = Text.withoutReturns text

theorem stands_for_text (text : String) : StandsFor (quote text) text := by
  refine ⟨read?_quote_append text, ?_, onLine_quote text, ?_, ?_, fun other => quote_eq_iff⟩
  · rw [between_quote, toList_quote]
  · intro before after hs
    rw [between_quote] at hs
    exact odd_of_encode hs
  · intro d hd before after hs hend
    rw [between_quote] at hs
    exact even_of_encode hd hs hend

example : read? (quote "\\\"[\r\n" ++ " and more") = some ("\\\"[\n", " and more") := by decide

end Quoted

end StoryPress
