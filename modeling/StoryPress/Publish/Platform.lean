import StoryPress.Failure
import StoryPress.Text.Case

/-!
# Platforms and channels

A target is published for platforms. Each platform of a target has a channel, whose kind depends on the
storefront that the target's name stands for; a name that stands for none is a direct download.
-/

namespace StoryPress

inductive Platform where
  | windows
  | linux
  | mac
  | android
  | web
deriving DecidableEq, Inhabited

namespace Platform

def name : Platform → String
  | windows => "windows"
  | linux => "linux"
  | mac => "mac"
  | android => "android"
  | web => "web"

def all : List Platform := [windows, linux, mac, android, web]

/-- Other words for a platform. -/
def synonyms : List (String × Platform) := [("win", windows), ("macos", mac), ("osx", mac), ("html5", web)]

/-- The platform for a word in any letter case, or the word if there is none. -/
def parse (text : String) : Except String Platform :=
  let word := Text.lowerAscii (Text.trim text)
  match (all.find? (·.name == word)).orElse fun _ => synonyms.lookup word with
  | some p => .ok p
  | none => .error word

/-- Reads the platforms of a target in order, each once. -/
def parseNames (target : String) (done : List Platform) : List String → Except Failure (List Platform)
  | [] => .ok done
  | n :: rest =>
    match parse n with
    | .ok p => parseNames target (if done.contains p then done else done ++ [p]) rest
    | .error word =>
      .error (.packaging ("target '" ++ target ++ "': unsupported platform '" ++ word ++ "' (supported: " ++
        Text.joinWith ", " (all.map name) ++ ")"))

/-- The platforms of a target; there must be one. -/
def parseAll (target : String) (names : List String) : Except Failure (List Platform) :=
  if names.isEmpty then .error (.packaging ("target '" ++ target ++ "' has an empty platform list"))
  else parseNames target [] names

end Platform

inductive Storefront where
  | itch
  | steam
  | direct
deriving DecidableEq, Inhabited

namespace Storefront

def name : Storefront → String
  | itch => "itch"
  | steam => "steam"
  | direct => "direct"

/-- The storefront that a target is named for. -/
def ofTarget (target : String) : Storefront :=
  let word := Text.lowerAscii (Text.trim target)
  if ["itch", "itch.io", "itchio"].contains word then itch
  else if word = "steam" then steam
  else direct

/-- The channel of a platform. -/
def channelJson (s : Storefront) (slug archive : String) (p : Platform) : Json :=
  match s with
  | itch => .object [("kind", .string "butler"), ("platform", .string p.name), ("channel", .string p.name),
      ("target", .string (slug ++ ":" ++ p.name))]
  | steam => .object [("kind", .string "depot"), ("platform", .string p.name),
      ("depot", .string (slug ++ "-" ++ p.name))]
  | direct => .object [("kind", .string "direct"), ("platform", .string p.name), ("file", .string archive)]

/-- The file with the channels of a target. -/
def channelsJson (target slug archive : String) (platforms : List Platform) : Json :=
  let s := ofTarget target
  .object [("target", .string target), ("storefront", .string s.name),
    ("channels", .array (platforms.map (s.channelJson slug archive)))]

end Storefront

end StoryPress
