import Mathlib.Data.List.Basic
import StoryPress.Json.Printer
import StoryPress.Json.Reader

/-!
# Printed JSON is read back

* `Reader.string_quoted`, `Reader.number_digits`: quoted texts and integers are read from their front;
* `Plain`: values without doubles, nested at most so deep;
* `Tree.written`: the tree of a value as its text tells it;
* `Reader.value_pretty`: the reader finds this tree in the printed text;
* `Tree.skip_written`: such a tree can be skipped.
-/

namespace StoryPress.Json

open Text (Symbol symbolsOfText)

theorem symbolsOfText_append (a b : String) : symbolsOfText (a ++ b) = symbolsOfText a ++ symbolsOfText b := by
  simp [symbolsOfText]

theorem symbolsOfText_ofList (cs : List Char) : symbolsOfText (String.ofList cs) = cs.map some := by
  simp [symbolsOfText]

namespace Reader

/-! ## Strings -/

theorem hexValue?_hexDigit : ∀ d < 16, Hash.hexValue? (Hash.hexDigit d) = some d := by decide

/-- A control character that is escaped by its code is read back. -/
theorem string_control {c : Char} (h : c.toNat < 32) (before : List Char) (rest : List Symbol) :
    string { reversed := before }
        ((['\\', 'u', '0', '0'] ++ Hash.hexByte (UInt8.ofNat c.toNat)).map some ++ rest) =
      string { reversed := c :: before } rest := by
  have hbyte : (UInt8.ofNat c.toNat).toNat = c.toNat := by
    rw [UInt8.toNat_ofNat']
    omega
  have hhigh := hexValue?_hexDigit (c.toNat / 16) (by omega)
  have hlow := hexValue?_hexDigit (c.toNat % 16) (by omega)
  have hzero : Hash.hexValue? '0' = some 0 := by decide
  have hunit : hex4? (some '0') (some '0') (some (Hash.hexDigit (c.toNat / 16)))
      (some (Hash.hexDigit (c.toNat % 16))) = some c.toNat := by
    simp only [hex4?, Option.bind_some, hzero, hhigh, hlow]
    congr 1
    omega
  have hpush : ({ reversed := before } : Partial).pushUnit c.toNat = { reversed := c :: before } := by
    have hlead : isLead c.toNat = false := by simp [isLead]; omega
    have htrail : isTrail c.toNat = false := by simp [isTrail]; omega
    simp [Partial.pushUnit, hlead, htrail, Char.ofNat_toNat]
  simp only [Hash.hexByte, hbyte, List.cons_append, List.nil_append, List.map_cons, List.map_nil]
  rw [string, hunit]
  dsimp only
  rw [hpush]

/-- An escaped character is read back. -/
theorem string_escapeChar (before : List Char) (c : Char) (rest : List Symbol) :
    string { reversed := before } ((escapeChar c).map some ++ rest) = string { reversed := c :: before } rest := by
  have hletter {letter : Char} (hu : letter ≠ 'u') (he : escaped? letter = some c) :
      string { reversed := before } (['\\', letter].map some ++ rest) = string { reversed := c :: before } rest := by
    simp only [List.map_cons, List.map_nil, List.cons_append, List.nil_append]
    rw [string, he]
    · rfl
    · exact fun _ _ _ _ _ _ => hu
    · exact hu
  unfold escapeChar
  split
  · exact hletter (by decide) rfl
  · exact hletter (by decide) rfl
  · exact hletter (by decide) rfl
  · exact hletter (by decide) rfl
  · exact hletter (by decide) rfl
  · exact hletter (by decide) rfl
  · exact hletter (by decide) rfl
  · next hquote hslash _ _ _ _ _ =>
    split
    · next hcontrol => exact string_control hcontrol before rest
    · next hplain =>
      simp only [List.map_cons, List.map_nil, List.cons_append, List.nil_append]
      rw [string, if_neg hplain]
      · rfl
      · exact hquote
      · exact hslash

theorem string_quoted (s : String) (rest : List Symbol) :
    string {} ((s.toList.flatMap escapeChar).map some ++ some '"' :: rest) = .ok (some s, rest) := by
  have hfold (cs : List Char) : ∀ before : List Char,
      string { reversed := before } ((cs.flatMap escapeChar).map some ++ some '"' :: rest) =
        .ok (some (String.ofList (before.reverse ++ cs)), rest) := by
    induction cs with
    | nil => 
      intro before
      simp [string, Partial.close, Partial.settle]
    | cons c cs ih =>
      intro before
      rw [List.flatMap_cons, List.map_append, List.append_assoc, string_escapeChar, ih]
      simp
  have h := hfold s.toList []
  rw [List.reverse_nil, List.nil_append, String.ofList_toList] at h
  exact h

/-! ## Integers -/

/-- A value is followed by a comma or by the end of its line. -/
def Ends (rest : List Symbol) : Prop := ∃ more, rest = some ',' :: more ∨ rest = some '\n' :: more

/-- The digits of a number. -/
def digitsOf (n : Nat) : List Nat := (Nat.toDigits 10 n).map fun c => c.toNat - '0'.toNat

theorem digits_append {cs : List Char} (hcs : ∀ c ∈ cs, c.isDigit = true) {rest : List Symbol} (h : Ends rest) :
    digits (cs.map some ++ rest) = (cs.map fun c => c.toNat - '0'.toNat, rest) := by
  induction cs with
  | nil => obtain ⟨more, rfl | rfl⟩ := h <;> rfl
  | cons c cs ih =>
    rw [List.map_cons, List.cons_append, digits, digit?, if_pos (hcs c (by simp))]
    dsimp only
    rw [ih fun d hd => hcs d (by simp [hd])]
    rfl

/-- Only zero itself begins with a zero. -/
theorem head?_toDigits {n : Nat} (h : 0 < n) : (Nat.toDigits 10 n).head? ≠ some '0' := by
  induction n using Nat.strongRecOn with
  | ind n ih =>
    by_cases hn : n < 10
    · rw [Nat.toDigits_of_lt_base hn]
      have hall : ∀ d < 10, 0 < d → [Nat.digitChar d].head? ≠ some '0' := by decide
      exact hall n hn h
    · rw [Nat.toDigits_of_base_le (by omega) (by omega), List.head?_append_of_ne_nil _ Nat.toDigits_ne_nil]
      exact ih (n / 10) (by omega) (by omega)

theorem digitsOf_ne (n : Nat) {d : Nat} {ds : List Nat} : digitsOf n ≠ 0 :: d :: ds := by
  intro h
  by_cases hn : n < 10
  · rw [digitsOf, Nat.toDigits_of_lt_base hn] at h
    exact absurd (congrArg List.length h) (by simp)
  · have hhead : (digitsOf n).head? = some 0 := by rw [h]; rfl
    rw [digitsOf, List.head?_map, Option.map_eq_some_iff] at hhead
    obtain ⟨c, hc, hzero⟩ := hhead
    have hdigit : c.isDigit = true :=
      Nat.isDigit_of_mem_toDigits (by omega) (by omega) (List.mem_of_mem_head? hc)
    have hc0 : c = '0' := by
      apply Char.toNat_inj.1
      have hlow : 48 ≤ c.toNat :=
        UInt32.le_iff_toNat_le.1 (of_decide_eq_true (Bool.and_eq_true_iff.1 hdigit).1)
      have hsame : c.toNat - 48 = 0 := hzero
      show c.toNat = 48
      omega
    exact head?_toDigits (by omega) (hc0 ▸ hc)

theorem number_digits (negative : Bool) (n : Nat) {rest : List Symbol} (h : Ends rest) :
    number negative ((Nat.toDigits 10 n).map some ++ rest) = .ok (⟨negative, digitsOf n, none, none⟩, rest) := by
  have hall : ∀ c ∈ Nat.toDigits 10 n, c.isDigit = true := fun c hc =>
    Nat.isDigit_of_mem_toDigits (by omega) (by omega) hc
  unfold number
  rw [digits_append hall h, ← digitsOf]
  dsimp only
  split
  · next hnone =>
    simp [digitsOf, Nat.toDigits_ne_nil] at hnone
  · next hzeros => exact absurd hzeros (digitsOf_ne n)
  · obtain ⟨more, rfl | rfl⟩ := h <;> rfl

/-- The value that the digits of an integer are read as. -/
def integer (n : Int) : Option Number := (Written.mk (decide (n < 0)) (digitsOf n.natAbs) none none).value

end Reader

/-! ## Values -/

/-- Values without doubles, with at most so many containers one in another. -/
def Plain : Nat → Json → Prop
  | _, .null | _, .bool _ | _, .string _ | _, .number (.integer _) => True
  | _, .number (.double _) | 0, .array _ | 0, .object _ => False
  | n + 1, .array items => ∀ v ∈ items, Plain n v
  | n + 1, .object fields => ∀ f ∈ fields, Plain n f.2

namespace Tree

mutual

/-- The tree of a value as its text tells it: integers are read from their digits. -/
def written : Json → Tree
  | .null => null
  | .bool b => bool b
  | .number (.integer n) => number (Reader.integer n)
  | .number (.double bits) => number (some (.double bits))
  | .string s => string (some s)
  | .array items => array (writtenItems items) .closed
  | .object fields => object (writtenFields fields) .closed

def writtenItems : List Json → List Tree
  | [] => []
  | v :: vs => written v :: writtenItems vs

def writtenFields : List (String × Json) → List (Option String × Tree)
  | [] => []
  | (k, v) :: rest => (some k, written v) :: writtenFields rest

end

theorem writtenItems_eq (vs : List Json) : writtenItems vs = vs.map written := by
  induction vs with
  | nil => rfl
  | cons v vs ih => rw [writtenItems, ih, List.map_cons]

theorem writtenFields_eq (fields : List (String × Json)) :
    writtenFields fields = fields.map fun f => (some f.1, written f.2) := by
  induction fields with
  | nil => rfl
  | cons f fields ih =>
    obtain ⟨k, v⟩ := f
    rw [writtenFields, ih, List.map_cons]

end Tree

theorem prettyItems_eq (level : Nat) (vs : List Json) : prettyItems level vs = vs.map (prettyAt level) := by
  induction vs with
  | nil => rfl
  | cons v vs ih => rw [prettyItems, ih, List.map_cons]

/-- A field on its line. -/
def prettyField (level : Nat) (f : String × Json) : String := quoted f.1 ++ ": " ++ prettyAt level f.2

theorem prettyFields_eq (level : Nat) (fields : List (String × Json)) :
    prettyFields level fields = fields.map (prettyField level) := by
  induction fields with
  | nil => rfl
  | cons f fields ih =>
    obtain ⟨k, v⟩ := f
    rw [prettyFields, ih, List.map_cons, prettyField]

/-- Parts one after the other, each but the first after a comma and on a line of its own. -/
def partsText (level : Nat) (part : String) (parts : List String) : List Symbol :=
  symbolsOfText part ++ parts.flatMap fun p => some ',' :: (symbolsOfText (newLine level) ++ symbolsOfText p)

theorem symbolsOfText_intercalate (level : Nat) (part : String) (parts : List String) :
    symbolsOfText (("," ++ newLine level).intercalate (part :: parts)) = partsText level part parts := by
  induction parts generalizing part with
  | nil => simp [partsText]
  | cons p parts ih =>
    rw [String.intercalate_cons_cons, symbolsOfText_append, symbolsOfText_append, symbolsOfText_append, ih]
    simp [partsText, show symbolsOfText "," = [some ','] from rfl]

theorem symbolsOfText_block (opening closing : String) (level : Nat) (part : String) (parts : List String) :
    symbolsOfText (block opening closing level (part :: parts)) =
      symbolsOfText opening ++ (symbolsOfText (newLine (level + 1)) ++ (partsText (level + 1) part parts ++
        (symbolsOfText (newLine level) ++ symbolsOfText closing))) := by
  unfold block
  rw [if_neg (by simp)]
  simp only [symbolsOfText_append, symbolsOfText_intercalate, List.append_assoc]

theorem symbolsOfText_block_append (opening closing : String) (level : Nat) (parts : List String) :
    ∃ cs, symbolsOfText (block opening closing level parts) = symbolsOfText opening ++ cs := by
  unfold block
  split
  · exact ⟨_, symbolsOfText_append opening closing⟩
  · simp only [symbolsOfText_append, List.append_assoc]
    exact ⟨_, rfl⟩

namespace Reader

/-! ## White space -/

theorem symbolsOfText_newLine (level : Nat) :
    symbolsOfText (newLine level) = some '\n' :: List.replicate (2 * level) (some ' ') := by
  have hspaces := symbolsOfText_ofList (List.replicate (2 * level) ' ')
  rw [List.map_replicate] at hspaces
  rw [newLine, symbolsOfText_append, hspaces]
  rfl

theorem skipSpace_newLine (level : Nat) (cs : List Symbol) :
    skipSpace (symbolsOfText (newLine level) ++ cs) = skipSpace cs := by
  rw [symbolsOfText_newLine]
  unfold skipSpace
  rw [List.dropWhile_append_of_pos]
  intro c hc
  rcases List.mem_cons.1 hc with rfl | hc
  · rfl
  · rw [List.eq_of_mem_replicate hc]
    rfl

theorem value_newLine (fuel depth level : Nat) (cs : List Symbol) :
    value fuel depth (symbolsOfText (newLine level) ++ cs) = value fuel depth cs := by
  cases fuel with
  | zero => rw [value, value]
  | succ fuel => rw [value, skipSpace_newLine, value]

theorem nextItem_newLine (fuel depth level : Nat) (done : List Tree) (cs : List Symbol) :
    nextItem fuel depth done (symbolsOfText (newLine level) ++ cs) = nextItem fuel depth done cs := by
  cases fuel with
  | zero => rw [nextItem, nextItem]
  | succ fuel => rw [nextItem, value_newLine, nextItem]

theorem nextMember_newLine (fuel depth level : Nat) (done : List (Option String × Tree)) (cs : List Symbol) :
    nextMember fuel depth done (symbolsOfText (newLine level) ++ cs) = nextMember fuel depth done cs := by
  cases fuel with
  | zero => rw [nextMember, nextMember]
  | succ fuel => rw [nextMember, skipSpace_newLine, nextMember]

/-! ## Containers -/

/-- Plain values that start at a level are read inside so many containers. -/
def Reads (n depth level : Nat) : Prop :=
  ∀ v, Plain n v → ∀ fuel rest, 3 * (symbolsOfText (prettyAt level v)).length + 1 ≤ fuel → Ends rest →
    value fuel depth (symbolsOfText (prettyAt level v) ++ rest) = (Tree.written v, rest)

theorem written_ne_fault (v : Json) (f : Fault) : Tree.written v ≠ .fault f := by
  cases v with
  | number n => cases n <;> simp [Tree.written]
  | _ => simp [Tree.written]

variable {n depth level : Nat}

theorem ends_newLine (level : Nat) (cs : List Symbol) : Ends (symbolsOfText (newLine level) ++ cs) :=
  ⟨_, .inr (by rw [symbolsOfText_newLine]; rfl)⟩

theorem skipSpace_cons {s : Symbol} (h : isSpace s = false) (cs : List Symbol) : skipSpace (s :: cs) = s :: cs := by
  rw [skipSpace, List.dropWhile_cons_of_neg (by simp [h])]

/-- An item is read, and what follows it decides how its list goes on. -/
theorem nextItem_eq {v : Json} {fuel : Nat} {done : List Tree} {cs rest : List Symbol}
    (h : value fuel depth cs = (Tree.written v, rest)) :
    nextItem (fuel + 1) depth done cs =
      match skipSpace rest with
      | [] => ((Tree.written v :: done).reverse, .broken (.always .truncated), [])
      | some ',' :: rest => nextItem fuel depth (Tree.written v :: done) rest
      | some ']' :: rest => ((Tree.written v :: done).reverse, .closed, rest)
      | _ => ((Tree.written v :: done).reverse, .broken (.always .malformed), []) := by
  rw [nextItem, h]
  split
  · next f _ heq => exact absurd (Prod.mk.inj heq).1 (written_ne_fault v f)
  · next heq =>
    obtain ⟨rfl, rfl⟩ := Prod.mk.inj heq
    rfl

/-- Items are read up to the closing bracket. -/
theorem nextItem_items (h : Reads n depth level) (outer : Nat) (vs : List Json) :
    ∀ (v : Json) (done : List Tree) (fuel : Nat) (rest : List Symbol), (∀ w ∈ v :: vs, Plain n w) →
      3 * (partsText level (prettyAt level v) (vs.map (prettyAt level))).length + 2 ≤ fuel →
      nextItem fuel depth done (partsText level (prettyAt level v) (vs.map (prettyAt level)) ++
          (symbolsOfText (newLine outer) ++ some ']' :: rest)) =
        (done.reverse ++ (v :: vs).map Tree.written, .closed, rest) := by
  induction vs with
  | nil =>
    intro v done fuel rest hplain hfuel
    simp only [partsText, List.map_nil, List.flatMap_nil, List.append_nil] at hfuel ⊢
    obtain ⟨fuel, rfl⟩ : ∃ f, fuel = f + 1 := ⟨fuel - 1, by omega⟩
    rw [nextItem_eq (h v (hplain v (by simp)) fuel _ (by omega) (ends_newLine outer _)), skipSpace_newLine]
    simp [skipSpace_cons (show isSpace (some ']') = false from rfl)]
  | cons w vs ih =>
    intro v done fuel rest hplain hfuel
    have hsplit : partsText level (prettyAt level v) ((w :: vs).map (prettyAt level)) =
        symbolsOfText (prettyAt level v) ++ some ',' :: (symbolsOfText (newLine level) ++
          partsText level (prettyAt level w) (vs.map (prettyAt level))) := by
      simp [partsText]
    rw [hsplit] at hfuel ⊢
    simp only [List.length_append, List.length_cons] at hfuel
    obtain ⟨fuel, rfl⟩ : ∃ f, fuel = f + 1 := ⟨fuel - 1, by omega⟩
    simp only [List.append_assoc, List.cons_append]
    rw [nextItem_eq (h v (hplain v (by simp)) fuel _ (by omega) ⟨_, .inl rfl⟩),
      skipSpace_cons (show isSpace (some ',') = false from rfl)]
    change nextItem fuel depth (Tree.written v :: done) _ = _
    rw [nextItem_newLine, ih w _ fuel rest (fun x hx => hplain x (by simp [hx])) (by omega)]
    simp

theorem symbolsOfText_field (level : Nat) (f : String × Json) (cs : List Symbol) :
    symbolsOfText (prettyField level f) ++ cs =
      some '"' :: ((f.1.toList.flatMap escapeChar).map some ++
        some '"' :: some ':' :: some ' ' :: (symbolsOfText (prettyAt level f.2) ++ cs)) := by
  simp only [prettyField, quoted, symbolsOfText_append, symbolsOfText_ofList, List.append_assoc]
  rfl

theorem value_space (fuel depth : Nat) (cs : List Symbol) :
    value fuel depth (some ' ' :: cs) = value fuel depth cs := by
  cases fuel with
  | zero => rw [value, value]
  | succ fuel => rw [value, skipSpace, List.dropWhile_cons_of_pos (by rfl), value, skipSpace]

/-- A member is read, and what follows it decides how its list goes on. -/
theorem nextMember_eq {f : String × Json} {fuel : Nat} {done : List (Option String × Tree)}
    {cs rest : List Symbol}
    (h : value fuel depth (symbolsOfText (prettyAt level f.2) ++ cs) = (Tree.written f.2, rest)) :
    nextMember (fuel + 1) depth done (symbolsOfText (prettyField level f) ++ cs) =
      match skipSpace rest with
      | [] => (((some f.1, Tree.written f.2) :: done).reverse, .broken (.always .truncated), [])
      | some ',' :: rest => nextMember fuel depth ((some f.1, Tree.written f.2) :: done) rest
      | some '}' :: rest => (((some f.1, Tree.written f.2) :: done).reverse, .closed, rest)
      | _ => (((some f.1, Tree.written f.2) :: done).reverse, .broken (.always .malformed), []) := by
  rw [symbolsOfText_field, nextMember, skipSpace_cons rfl]
  simp only [string_quoted, skipSpace_cons (show isSpace (some ':') = false from rfl), value_space, h]
  split
  · next fault _ heq => exact absurd (Prod.mk.inj heq).1 (written_ne_fault f.2 fault)
  · next heq =>
    obtain ⟨rfl, rfl⟩ := Prod.mk.inj heq
    rfl

theorem length_field (level : Nat) (f : String × Json) :
    (symbolsOfText (prettyAt level f.2)).length ≤ (symbolsOfText (prettyField level f)).length := by
  simp only [prettyField, symbolsOfText_append, List.length_append]
  omega

/-- Members are read up to the closing brace. -/
theorem nextMember_members (h : Reads n depth level) (outer : Nat) (fs : List (String × Json)) :
    ∀ (f : String × Json) (done : List (Option String × Tree)) (fuel : Nat) (rest : List Symbol),
      (∀ g ∈ f :: fs, Plain n g.2) →
      3 * (partsText level (prettyField level f) (fs.map (prettyField level))).length + 2 ≤ fuel →
      nextMember fuel depth done (partsText level (prettyField level f) (fs.map (prettyField level)) ++
          (symbolsOfText (newLine outer) ++ some '}' :: rest)) =
        (done.reverse ++ (f :: fs).map fun g => (some g.1, Tree.written g.2), .closed, rest) := by
  induction fs with
  | nil =>
    intro f done fuel rest hplain hfuel
    have hlength := length_field level f
    simp only [partsText, List.map_nil, List.flatMap_nil, List.append_nil] at hfuel ⊢
    obtain ⟨fuel, rfl⟩ : ∃ k, fuel = k + 1 := ⟨fuel - 1, by omega⟩
    rw [nextMember_eq (h f.2 (hplain f (by simp)) fuel _ (by omega) (ends_newLine outer _)), skipSpace_newLine]
    simp [skipSpace_cons (show isSpace (some '}') = false from rfl)]
  | cons g fs ih =>
    intro f done fuel rest hplain hfuel
    have hlength := length_field level f
    have hsplit : partsText level (prettyField level f) ((g :: fs).map (prettyField level)) =
        symbolsOfText (prettyField level f) ++ some ',' :: (symbolsOfText (newLine level) ++
          partsText level (prettyField level g) (fs.map (prettyField level))) := by
      simp [partsText]
    rw [hsplit] at hfuel ⊢
    simp only [List.length_append, List.length_cons] at hfuel
    obtain ⟨fuel, rfl⟩ : ∃ k, fuel = k + 1 := ⟨fuel - 1, by omega⟩
    simp only [List.append_assoc, List.cons_append]
    rw [nextMember_eq (h f.2 (hplain f (by simp)) fuel _ (by omega) ⟨_, .inl rfl⟩),
      skipSpace_cons (show isSpace (some ',') = false from rfl)]
    change nextMember fuel depth ((some f.1, Tree.written f.2) :: done) _ = _
    rw [nextMember_newLine, ih g _ fuel rest (fun x hx => hplain x (by simp [hx])) (by omega)]
    simp

/-! ## All values -/

theorem isDigit_ne {c : Char} (h : c.isDigit = true) {d : Char} (hd : d.isDigit = false) : c ≠ d := by
  rintro rfl
  rw [h] at hd
  cases hd

theorem isSpace_digit {c : Char} (hc : c.isDigit = true) : isSpace (some c) = false := by
  simp [isSpace, isDigit_ne hc (d := ' ') rfl, isDigit_ne hc (d := '\n') rfl, isDigit_ne hc (d := '\t') rfl,
    isDigit_ne hc (d := '\r') rfl]

/-- The digits of a number begin with a digit. -/
theorem exists_toDigits_eq_cons (m : Nat) : ∃ c cs, Nat.toDigits 10 m = c :: cs ∧ c.isDigit = true := by
  obtain ⟨c, cs, hdigits⟩ := List.exists_cons_of_ne_nil (Nat.toDigits_ne_nil (n := m) (b := 10))
  exact ⟨c, cs, hdigits, Nat.isDigit_of_mem_toDigits (by omega) (by omega) (hdigits ▸ List.mem_cons_self)⟩

/-- A digit begins a number and nothing else. -/
theorem value_digits {m fuel : Nat} {rest : List Symbol} (h : Ends rest) :
    value (fuel + 1) depth ((Nat.toDigits 10 m).map some ++ rest) = (.number (integer m), rest) := by
  have hnumber := number_digits false m h
  obtain ⟨c, cs, hdigits, hc⟩ := exists_toDigits_eq_cons m
  rw [hdigits, List.map_cons, List.cons_append] at hnumber
  rw [hdigits, List.map_cons, List.cons_append, value, skipSpace_cons (isSpace_digit hc)]
  have hother {d : Char} {as bs : List Symbol} (hd : d.isDigit = false) : some c :: as ≠ some d :: bs :=
    fun heq => isDigit_ne hc hd (Option.some.inj (List.cons.inj heq).1)
  split
  case h_9 first more _ _ _ _ _ _ _ heq =>
    obtain ⟨rfl, rfl⟩ := List.cons.inj heq
    have hdigit : (digit? (some c)).isSome = true := by simp [digit?, hc]
    rw [if_pos hdigit, hnumber]
    rfl
  case h_1 heq => cases heq
  all_goals next heq => exact absurd heq (hother rfl)

/-- Quoted texts are read as values. -/
theorem value_quoted (s : String) (fuel : Nat) (rest : List Symbol) :
    value (fuel + 1) depth (symbolsOfText (quoted s) ++ rest) = (.string (some s), rest) := by
  have htext : symbolsOfText (quoted s) ++ rest =
      some '"' :: ((s.toList.flatMap escapeChar).map some ++ some '"' :: rest) := by
    simp only [quoted, symbolsOfText_append, symbolsOfText_ofList, List.append_assoc]
    rfl
  rw [htext, value, skipSpace_cons rfl]
  simp only [string_quoted]

theorem symbolsOfText_repr (m : Nat) : symbolsOfText (toString m) = (Nat.toDigits 10 m).map some := by
  rw [Nat.toString_eq_repr, symbolsOfText, Nat.toList_repr]

theorem value_integer (m : Int) (fuel : Nat) {rest : List Symbol} (h : Ends rest) :
    value (fuel + 1) depth (symbolsOfText (numberText (.integer m)) ++ rest) = (.number (integer m), rest) := by
  cases m with
  | ofNat m =>
    change value (fuel + 1) depth (symbolsOfText (toString m) ++ rest) = _
    rw [symbolsOfText_repr]
    exact value_digits h
  | negSucc m =>
    have htext : symbolsOfText (numberText (.integer (.negSucc m))) ++ rest =
        some '-' :: ((Nat.toDigits 10 (m + 1)).map some ++ rest) := by
      change symbolsOfText ("-" ++ toString (m + 1)) ++ rest = _
      rw [symbolsOfText_append, symbolsOfText_repr]
      rfl
    rw [htext, value, skipSpace_cons rfl]
    simp only [number_digits true (m + 1) h]
    rw [integer, decide_eq_true (Int.negSucc_lt_zero m)]
    rfl

/-- Values without parts are read at any depth. -/
theorem value_scalar {v : Json} (hv : Plain 0 v) (fuel : Nat) {rest : List Symbol} (h : Ends rest) :
    value (fuel + 1) depth (symbolsOfText (prettyAt level v) ++ rest) = (Tree.written v, rest) := by
  cases v with
  | null =>
    rw [prettyAt, value]
    rfl
  | bool b =>
    cases b
    all_goals
      rw [prettyAt, value]
      rfl
  | number n =>
    cases n with
    | integer m =>
      rw [prettyAt]
      exact value_integer m fuel h
    | double bits => exact hv.elim
  | string s =>
    rw [prettyAt]
    exact value_quoted s fuel rest
  | array items => exact hv.elim
  | object fields => exact hv.elim

/-- The text begins with a symbol that is neither white space nor a closing bracket. -/
def Opens (cs : List Symbol) : Prop :=
  ∃ c rest, cs = some c :: rest ∧ isSpace (some c) = false ∧ c ≠ ']'

theorem Opens.append {cs : List Symbol} (h : Opens cs) (more : List Symbol) : Opens (cs ++ more) := by
  obtain ⟨c, rest, rfl, hspace, hne⟩ := h
  exact ⟨c, rest ++ more, rfl, hspace, hne⟩

theorem opens_digits (m : Nat) : Opens ((Nat.toDigits 10 m).map some) := by
  obtain ⟨c, cs, hdigits, hc⟩ := exists_toDigits_eq_cons m
  rw [hdigits]
  exact ⟨c, cs.map some, rfl, isSpace_digit hc, isDigit_ne hc rfl⟩

theorem opens_prettyAt {v : Json} (hv : Plain n v) : Opens (symbolsOfText (prettyAt level v)) := by
  cases v with
  | null =>
    rw [prettyAt]
    exact ⟨'n', _, rfl, rfl, by decide⟩
  | bool b =>
    rw [prettyAt]
    cases b
    · exact ⟨'f', _, rfl, rfl, by decide⟩
    · exact ⟨'t', _, rfl, rfl, by decide⟩
  | number k =>
    rw [prettyAt]
    cases k with
    | integer m =>
      cases m with
      | ofNat m =>
        change Opens (symbolsOfText (toString m))
        rw [symbolsOfText_repr]
        exact opens_digits m
      | negSucc m =>
        change Opens (symbolsOfText ("-" ++ toString (m + 1)))
        rw [symbolsOfText_append]
        exact ⟨'-', _, rfl, rfl, by decide⟩
    | double bits => cases n <;> exact hv.elim
  | string s =>
    rw [prettyAt, quoted, symbolsOfText_append, symbolsOfText_append]
    exact ⟨'"', _, rfl, rfl, by decide⟩
  | array items =>
    rw [prettyAt]
    obtain ⟨cs, hcs⟩ := symbolsOfText_block_append "[" "]" level (prettyItems (level + 1) items)
    exact ⟨'[', cs, hcs, rfl, by decide⟩
  | object fields =>
    rw [prettyAt]
    obtain ⟨cs, hcs⟩ := symbolsOfText_block_append "\x7b" "\x7d" level (prettyFields (level + 1) fields)
    exact ⟨'{', cs, hcs, rfl, by decide⟩

theorem firstItem_items (h : Reads n depth level) (outer : Nat) {v : Json} {vs : List Json} {fuel : Nat}
    (rest : List Symbol) (hplain : ∀ w ∈ v :: vs, Plain n w)
    (hfuel : 3 * (partsText level (prettyAt level v) (vs.map (prettyAt level))).length + 2 ≤ fuel) :
    firstItem (fuel + 1) depth (symbolsOfText (newLine level) ++
        (partsText level (prettyAt level v) (vs.map (prettyAt level)) ++
          (symbolsOfText (newLine outer) ++ some ']' :: rest))) =
      ((v :: vs).map Tree.written, .closed, rest) := by
  have hread := nextItem_items h outer vs v [] fuel rest hplain hfuel
  have hopens : Opens (partsText level (prettyAt level v) (vs.map (prettyAt level)) ++
      (symbolsOfText (newLine outer) ++ some ']' :: rest)) :=
    ((opens_prettyAt (hplain v (by simp))).append _).append _
  obtain ⟨c, cs, hcs, hspace, hne⟩ := hopens
  rw [hcs] at hread ⊢
  rw [firstItem, skipSpace_newLine, skipSpace_cons hspace]
  split
  · next heq => cases heq
  · next heq => exact absurd (Option.some.inj (List.cons.inj heq).1) hne
  · rw [hread]
    rfl

theorem firstMember_members (h : Reads n depth level) (outer : Nat) {f : String × Json} {fs : List (String × Json)}
    {fuel : Nat} (rest : List Symbol) (hplain : ∀ g ∈ f :: fs, Plain n g.2)
    (hfuel : 3 * (partsText level (prettyField level f) (fs.map (prettyField level))).length + 2 ≤ fuel) :
    firstMember (fuel + 1) depth (symbolsOfText (newLine level) ++
        (partsText level (prettyField level f) (fs.map (prettyField level)) ++
          (symbolsOfText (newLine outer) ++ some '}' :: rest))) =
      ((f :: fs).map fun g => (some g.1, Tree.written g.2), .closed, rest) := by
  have hread := nextMember_members h outer fs f [] fuel rest hplain hfuel
  have hopens : ∃ cs, partsText level (prettyField level f) (fs.map (prettyField level)) ++
      (symbolsOfText (newLine outer) ++ some '}' :: rest) = some '"' :: cs := by
    rw [partsText, List.append_assoc, symbolsOfText_field]
    exact ⟨_, rfl⟩
  obtain ⟨cs, hcs⟩ := hopens
  rw [hcs] at hread ⊢
  rw [firstMember, skipSpace_newLine, skipSpace_cons rfl]
  exact hread

/-- A list is read where its items are, one container further inside. -/
theorem value_array (hinner : Reads n (depth + 1) (level + 1)) (hdepth : depth < depthLimit) {items : List Json}
    (hplain : ∀ v ∈ items, Plain n v) {fuel : Nat} (rest : List Symbol)
    (hfuel : 3 * (symbolsOfText (prettyAt level (.array items))).length ≤ fuel) :
    value (fuel + 1) depth (symbolsOfText (prettyAt level (.array items)) ++ rest) =
      (Tree.written (.array items), rest) := by
  rw [prettyAt, prettyItems_eq] at hfuel ⊢
  rw [Tree.written, Tree.writtenItems_eq]
  have hbracket : (symbolsOfText "[").length = 1 := rfl
  cases items with
  | nil =>
    simp only [List.map_nil, block, List.isEmpty_nil, if_true, symbolsOfText_append, List.length_append] at hfuel ⊢
    obtain ⟨fuel, rfl⟩ : ∃ k, fuel = k + 1 := ⟨fuel - 1, by omega⟩
    change value (fuel + 1 + 1) depth (some '[' :: some ']' :: rest) = _
    rw [value, skipSpace_cons rfl]
    simp only [firstItem, skipSpace_cons (show isSpace (some ']') = false from rfl), if_neg (Nat.not_le.2 hdepth)]
  | cons w ws =>
    rw [List.map_cons, symbolsOfText_block] at hfuel ⊢
    simp only [List.length_append] at hfuel
    obtain ⟨fuel, rfl⟩ : ∃ k, fuel = k + 1 := ⟨fuel - 1, by omega⟩
    have hitems := firstItem_items hinner level rest hplain (show _ ≤ fuel by omega)
    simp only [List.append_assoc]
    change value (fuel + 1 + 1) depth (some '[' :: (symbolsOfText (newLine (level + 1)) ++
      (partsText (level + 1) (prettyAt (level + 1) w) (ws.map (prettyAt (level + 1))) ++
        (symbolsOfText (newLine level) ++ some ']' :: rest)))) = _
    rw [value, skipSpace_cons rfl]
    simp only [hitems, if_neg (Nat.not_le.2 hdepth)]

/-- An object is read where its values are, one container further inside. -/
theorem value_object (hinner : Reads n (depth + 1) (level + 1)) (hdepth : depth < depthLimit)
    {fields : List (String × Json)} (hplain : ∀ f ∈ fields, Plain n f.2) {fuel : Nat} (rest : List Symbol)
    (hfuel : 3 * (symbolsOfText (prettyAt level (.object fields))).length ≤ fuel) :
    value (fuel + 1) depth (symbolsOfText (prettyAt level (.object fields)) ++ rest) =
      (Tree.written (.object fields), rest) := by
  rw [prettyAt, prettyFields_eq] at hfuel ⊢
  rw [Tree.written, Tree.writtenFields_eq]
  have hbrace : (symbolsOfText "\x7b").length = 1 := rfl
  cases fields with
  | nil =>
    simp only [List.map_nil, block, List.isEmpty_nil, if_true, symbolsOfText_append, List.length_append] at hfuel ⊢
    obtain ⟨fuel, rfl⟩ : ∃ k, fuel = k + 1 := ⟨fuel - 1, by omega⟩
    change value (fuel + 1 + 1) depth (some '{' :: some '}' :: rest) = _
    rw [value, skipSpace_cons rfl]
    simp only [firstMember, skipSpace_cons (show isSpace (some '}') = false from rfl), if_neg (Nat.not_le.2 hdepth)]
  | cons f fs =>
    rw [List.map_cons, symbolsOfText_block] at hfuel ⊢
    simp only [List.length_append] at hfuel
    obtain ⟨fuel, rfl⟩ : ∃ k, fuel = k + 1 := ⟨fuel - 1, by omega⟩
    have hmembers := firstMember_members hinner level rest hplain (show _ ≤ fuel by omega)
    simp only [List.append_assoc]
    change value (fuel + 1 + 1) depth (some '{' :: (symbolsOfText (newLine (level + 1)) ++
      (partsText (level + 1) (prettyField (level + 1) f) (fs.map (prettyField (level + 1))) ++
        (symbolsOfText (newLine level) ++ some '}' :: rest)))) = _
    rw [value, skipSpace_cons rfl]
    simp only [hmembers, if_neg (Nat.not_le.2 hdepth)]

theorem reads_prettyAt (n : Nat) : ∀ depth level, depth + n ≤ depthLimit → Reads n depth level := by
  induction n with
  | zero =>
    intro depth level _ v hv fuel rest hfuel hrest
    obtain ⟨fuel, rfl⟩ : ∃ k, fuel = k + 1 := ⟨fuel - 1, by omega⟩
    exact value_scalar hv fuel hrest
  | succ n ih =>
    intro depth level hdepth v hv fuel rest hfuel hrest
    obtain ⟨fuel, rfl⟩ : ∃ k, fuel = k + 1 := ⟨fuel - 1, by omega⟩
    have hinner := ih (depth + 1) (level + 1) (by omega)
    cases v with
    | null => exact value_scalar (v := .null) trivial fuel hrest
    | bool b => exact value_scalar (v := .bool b) trivial fuel hrest
    | string s => exact value_scalar (v := .string s) trivial fuel hrest
    | number k =>
      cases k with
      | integer m => exact value_scalar (v := .number (.integer m)) trivial fuel hrest
      | double bits => exact hv.elim
    | array items => exact value_array hinner (by omega) hv rest (by omega)
    | object fields => exact value_object hinner (by omega) hv rest (by omega)

end Reader

namespace Tree

mutual

/-- The tree of a value can be skipped. -/
theorem skip_written : (v : Json) → (written v).skip = .ok ()
  | .null | .bool _ | .number (.integer _) | .number (.double _) | .string _ => rfl
  | .array items => by
    rw [written, skip, skipItems_written items]
    rfl
  | .object fields => by
    rw [written, skip, skipMembers_written fields]
    rfl

theorem skipItems_written : (vs : List Json) → skipItems (writtenItems vs) = .ok ()
  | [] => rfl
  | v :: vs => by
    rw [writtenItems, skipItems, skip_written v]
    exact skipItems_written vs

theorem skipMembers_written : (fields : List (String × Json)) → skipMembers (writtenFields fields) = .ok ()
  | [] => rfl
  | (k, v) :: rest => by
    rw [writtenFields, skipMembers, skip_written v]
    exact skipMembers_written rest

end

end Tree

/-- The text of a plain value is read as its tree. -/
theorem parse_pretty {α : Type} {n : Nat} (hn : n ≤ Reader.depthLimit) {v : Json} (hv : Plain n v)
    (read : Tree → Reading α) : parse read v.pretty = read (Tree.written v) := by
  have hend : Reader.Ends (symbolsOfText "\n") := ⟨[], .inr rfl⟩
  have htree : Tree.ofSymbols (symbolsOfText v.pretty) = (Tree.written v, symbolsOfText "\n") := by
    unfold Tree.ofSymbols
    rw [pretty, symbolsOfText_append]
    apply Reader.reads_prettyAt n 0 0 (by omega) v hv _ _ _ hend
    simp only [List.length_append]
    omega
  unfold parse parseSymbols
  rw [htree]
  dsimp only
  cases read (Tree.written v) <;> rfl

theorem parseBytes_pretty {α : Type} {n : Nat} (hn : n ≤ Reader.depthLimit) {v : Json} (hv : Plain n v)
    (read : Tree → Reading α) : parseBytes read v.pretty.toUTF8 = read (Tree.written v) := by
  have hsymbols : Text.symbols v.pretty.toUTF8 = symbolsOfText v.pretty := by
    unfold Text.symbols
    rw [show String.fromUTF8? v.pretty.toUTF8 = some v.pretty from dif_pos v.pretty.isValidUTF8]
  rw [parseBytes, hsymbols]
  exact parse_pretty hn hv read

end StoryPress.Json
