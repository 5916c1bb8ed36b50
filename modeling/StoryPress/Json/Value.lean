/-!
# JSON values

An object is a list of fields in the order in which they are written. `Json.normalize` gives the value
itself: keys in byte order, the last of several fields with one key.
-/

namespace StoryPress

/-- A JSON number is a 64-bit integer, or else a double given by its bits. -/
inductive Number where
  | integer (n : Int)
  | double (bits : UInt64)
deriving DecidableEq, Inhabited

inductive Json where
  | null
  | bool (b : Bool)
  | number (n : Number)
  | string (s : String)
  | array (items : List Json)
  | object (fields : List (String × Json))
deriving Inhabited

namespace Json

mutual

protected def decEq : (a b : Json) → Decidable (a = b)
  | null, null => isTrue rfl
  | bool a, bool b => if h : a = b then isTrue (by rw [h]) else isFalse (by simp [h])
  | number a, number b => if h : a = b then isTrue (by rw [h]) else isFalse (by simp [h])
  | string a, string b => if h : a = b then isTrue (by rw [h]) else isFalse (by simp [h])
  | array a, array b =>
    match Json.decItems a b with
    | isTrue h => isTrue (by rw [h])
    | isFalse h => isFalse (by simp [h])
  | object a, object b =>
    match Json.decFields a b with
    | isTrue h => isTrue (by rw [h])
    | isFalse h => isFalse (by simp [h])
  | null, bool _ | null, number _ | null, string _ | null, array _ | null, object _
  | bool _, null | bool _, number _ | bool _, string _ | bool _, array _ | bool _, object _
  | number _, null | number _, bool _ | number _, string _ | number _, array _ | number _, object _
  | string _, null | string _, bool _ | string _, number _ | string _, array _ | string _, object _
  | array _, null | array _, bool _ | array _, number _ | array _, string _ | array _, object _
  | object _, null | object _, bool _ | object _, number _ | object _, string _ | object _, array _ =>
    isFalse (by simp)

protected def decItems : (a b : List Json) → Decidable (a = b)
  | [], [] => isTrue rfl
  | [], _ :: _ => isFalse (by simp)
  | _ :: _, [] => isFalse (by simp)
  | a :: as, b :: bs =>
    match Json.decEq a b, Json.decItems as bs with
    | isTrue h, isTrue hs => isTrue (by rw [h, hs])
    | isFalse h, _ => isFalse (by simp [h])
    | _, isFalse h => isFalse (by simp [h])

protected def decFields : (a b : List (String × Json)) → Decidable (a = b)
  | [], [] => isTrue rfl
  | [], _ :: _ => isFalse (by simp)
  | _ :: _, [] => isFalse (by simp)
  | (k, a) :: as, (l, b) :: bs =>
    if hk : k = l then
      match Json.decEq a b, Json.decFields as bs with
      | isTrue h, isTrue hs => isTrue (by rw [hk, h, hs])
      | isFalse h, _ => isFalse (by simp [h])
      | _, isFalse h => isFalse (by simp [h])
    else isFalse (by simp [hk])

end

instance : DecidableEq Json := Json.decEq

/-- Puts a field at its place among fields in key order, over an earlier one with the same key. -/
def insertField (key : String) (value : Json) : List (String × Json) → List (String × Json)
  | [] => [(key, value)]
  | (k, v) :: rest =>
    if key = k then (key, value) :: rest
    else if key < k then (key, value) :: (k, v) :: rest
    else (k, v) :: insertField key value rest

/-- Fields in key order, the last one of each key. -/
def sortFields (fields : List (String × Json)) : List (String × Json) :=
  fields.foldl (fun sorted (k, v) => insertField k v sorted) []

mutual

/-- The value that a written value stands for. -/
def normalize : Json → Json
  | array items => array (normalizeItems items)
  | object fields => object (sortFields (normalizeFields fields))
  | other => other

def normalizeItems : List Json → List Json
  | [] => []
  | v :: vs => normalize v :: normalizeItems vs

def normalizeFields : List (String × Json) → List (String × Json)
  | [] => []
  | (k, v) :: rest => (k, normalize v) :: normalizeFields rest

end

def asString? : Json → Option String
  | string s => some s
  | _ => none

def asArray? : Json → Option (List Json)
  | array items => some items
  | _ => none

def asObject? : Json → Option (List (String × Json))
  | object fields => some fields
  | _ => none

/-- The field of an object in normal form; nothing for any other value. -/
def field? (v : Json) (key : String) : Option Json :=
  v.asObject?.bind fun fields => fields.lookup key

/-- The name of a value's kind. -/
def kindName : Json → String
  | null => "null"
  | bool _ => "bool"
  | number _ => "number"
  | string _ => "string"
  | array _ => "array"
  | object _ => "object"

def ofNat (n : Nat) : Json := number (.integer n)

def ofStrings (ss : List String) : Json := array (ss.map string)

/-- The text, or null. -/
def ofText? : Option String → Json
  | some s => string s
  | none => null

end Json

end StoryPress
