import StoryPress.Asset.Catalog
import StoryPress.Script.Quoted

/-!
# Statements of a script

A script is a list of lines, each a statement at a depth of indentation. Authored text occurs in statements
only as the content of literals and comments.
-/

namespace StoryPress

inductive Statement where
  | label (name : String)
  | jump (label : String)
  | call (label : String)
  | finish
  | pass
  | menu
  /-- A line of text, with who says it. -/
  | say (speaker : Option String) (text : String)
  /-- The caption of an option in a menu. -/
  | option (text : String)
  | scene (token : AssetToken)
  | show_ (token : AssetToken)
  /-- Declares the picture with an alias. -/
  | image (name : String) (path : String)
  | comment (text : String)
deriving DecidableEq, Inhabited

/-- A statement and its depth. -/
structure Line where
  depth : Nat
  statement : Statement
deriving DecidableEq, Inhabited

/-- The name of a picture that has no file. -/
def missingTag : String := "missing_asset"

/-- The tag of a reference without a file: its slug, without the extension of a picture. -/
def rawTag (reference : String) : String :=
  let reference := Text.trim reference
  let stem :=
    match Text.splitLast? '.' reference with
    | some (stem, ext) => if isImageExtension ext then stem else reference
    | none => reference
  let tag := Naming.slug stem
  if tag.isEmpty then missingTag else tag

/-- What is written for a picture. -/
def AssetToken.tag : AssetToken → String
  | alias_ name => name
  | raw reference => rawTag reference

namespace Statement

/-- The text of a comment stays on its line. -/
def commentText (text : String) : String :=
  Text.mapChars (fun c => if c = '\r' || c = '\n' then ' ' else c) text

def text : Statement → String
  | label name => "label " ++ name ++ ":"
  | jump target => "jump " ++ target
  | call target => "call " ++ target
  | finish => "return"
  | pass => "pass"
  | menu => "menu:"
  | say (some speaker) text => Quoted.quote speaker ++ " " ++ Quoted.quote text
  | say none text => Quoted.quote text
  | option text => Quoted.quote text ++ ":"
  | scene token => "scene " ++ token.tag
  | show_ token => "show " ++ token.tag
  | image name path => "image " ++ name ++ " = " ++ Quoted.quote path
  | comment text => "# " ++ commentText text

/-- The alias that a statement uses. -/
def alias? : Statement → Option String
  | scene (.alias_ name) | show_ (.alias_ name) => some name
  | _ => none

end Statement

/-- Four spaces for each level. -/
def Line.text (l : Line) : String := String.ofList (List.replicate (4 * l.depth) ' ') ++ l.statement.text

/-- Lines in order, each with its newline. -/
def printLines (lines : List Line) : String := String.join (lines.map fun l => l.text ++ "\n")

end StoryPress
