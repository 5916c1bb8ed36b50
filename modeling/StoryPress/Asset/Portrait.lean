import StoryPress.Naming.Slug
import StoryPress.Text.Pieces

/-!
# Characters and expressions

A portrait shows a character with an expression. A reference or a file name says which: `alice:happy`,
`alice/happy`, `alice_happy`, `Alice Happy`, or a bare `alice` with the neutral expression.
-/

namespace StoryPress

/-- A character and an expression, both as slugs. -/
structure PortraitKey where
  character : String
  expression : String
deriving DecidableEq, Inhabited

namespace PortraitKey

/-- The expression of a character without another one. -/
def neutral : String := "neutral"

/-- The key in a slug: the character up to the first underscore, then the expression. -/
def ofSlug (slug : String) : PortraitKey :=
  match Text.splitFirst? '_' slug with
  | some (character, expression) => ⟨character, expression⟩
  | none => ⟨slug, neutral⟩

/-- A reference without the extension in its last segment. -/
def withoutExtension (reference : String) : String :=
  match Text.splitLast? '.' reference with
  | some (stem, ext) => if ext.toList.contains '/' || stem.isEmpty then reference else stem
  | none => reference

/-- The key that a reference asks for, from its last two segments. -/
def ofReference (reference : String) : Option PortraitKey :=
  let segments := (Text.pieces '/' (withoutExtension reference)).filter fun s => !s.isEmpty
  let tail :=
    match segments.reverse with
    | [] => none
    | [only] => some only
    | last :: before :: _ => some (before ++ "_" ++ last)
  tail.bind fun tail =>
    let slug := Naming.slug (Text.mapChars (fun c => if c = ':' then '_' else c) tail)
    if slug.isEmpty then none else some (ofSlug slug)

/-- The key of a file below a directory of characters: the directory of the file names the character where
there is one. -/
def ofSegments (segments : List String) : PortraitKey :=
  let file := segments.getLast?.getD ""
  let stem := ((Text.splitLast? '.' file).map (·.1)).getD file
  match segments.reverse with
  | _ :: dir :: _ :: _ => ⟨Naming.slug dir, Naming.slug stem⟩
  | _ => ofSlug (Naming.slug stem)

end PortraitKey

end StoryPress
