/-!
# String literals of the script

A literal stands between double quotes. Backslashes, quotes, newlines and tabs are escaped with a backslash;
an opening bracket or brace, which would start an interpolation or a text tag, is doubled; carriage returns
are left out.

* `decode_encode`: a literal reads back as the text without its carriage returns.
-/

namespace StoryPress.Quoted

/-- The characters that stand for one character between the quotes. -/
def encodeChar (c : Char) : List Char :=
  if c = '\\' then ['\\', '\\']
  else if c = '"' then ['\\', '"']
  else if c = '\n' then ['\\', 'n']
  else if c = '\r' then []
  else if c = '\t' then ['\\', 't']
  else if c = '[' then ['[', '[']
  else if c = '{' then ['{', '{']
  else [c]

/-- What stands between the quotes of a literal. -/
def encode (cs : List Char) : List Char := cs.flatMap encodeChar

/-- Reads what stands after the opening quote up to the closing one; gives the text and what follows. -/
def decode : List Char → Option (List Char × List Char)
  | [] => none
  | '"' :: rest => some ([], rest)
  | '\\' :: '\\' :: rest => (decode rest).map fun (t, r) => ('\\' :: t, r)
  | '\\' :: '"' :: rest => (decode rest).map fun (t, r) => ('"' :: t, r)
  | '\\' :: 'n' :: rest => (decode rest).map fun (t, r) => ('\n' :: t, r)
  | '\\' :: 't' :: rest => (decode rest).map fun (t, r) => ('\t' :: t, r)
  | '[' :: '[' :: rest => (decode rest).map fun (t, r) => ('[' :: t, r)
  | '{' :: '{' :: rest => (decode rest).map fun (t, r) => ('{' :: t, r)
  | c :: rest =>
    if c = '\\' || c = '[' || c = '{' || c = '\n' || c = '\r' || c = '\t' then none
    else (decode rest).map fun (t, r) => (c :: t, r)

/-- The literal of a text. -/
def quoteChars (cs : List Char) : List Char := '"' :: (encode cs ++ ['"'])

def quote (text : String) : String := String.ofList (quoteChars text.toList)

theorem decode_encode (cs rest : List Char) :
    decode (encode cs ++ '"' :: rest) = some (cs.filter (· != '\r'), rest) := by
  induction cs with
  | nil => simp [encode, decode]
  | cons c cs ih =>
    have step : encode (c :: cs) = encodeChar c ++ encode cs := rfl
    rw [step, List.append_assoc]
    by_cases h1 : c = '\\'
    · subst h1; simp [encodeChar, decode, ih]
    by_cases h2 : c = '"'
    · subst h2; simp [encodeChar, decode, ih]
    by_cases h3 : c = '\n'
    · subst h3; simp [encodeChar, decode, ih]
    by_cases h4 : c = '\r'
    · subst h4; simp [encodeChar, ih]
    by_cases h5 : c = '\t'
    · subst h5; simp [encodeChar, decode, ih]
    by_cases h6 : c = '['
    · subst h6; simp [encodeChar, decode, ih]
    by_cases h7 : c = '{'
    · subst h7; simp [encodeChar, decode, ih]
    have hd : decode (c :: (encode cs ++ '"' :: rest)) =
        (decode (encode cs ++ '"' :: rest)).map fun (t, r) => (c :: t, r) := by
      rw [decode.eq_def]
      split <;> simp_all
    simp [encodeChar, h1, h2, h3, h4, h5, h6, h7, hd, ih]

end StoryPress.Quoted
