import StoryPress.Text.Blank
import StoryPress.Text.Case

/-!
# Route modes

Where there are several routes, a mode says how they are offered: as a menu in one script, as a script of
its own for each, as both, or not at all.
-/

namespace StoryPress

inductive RouteMode where
  | disabled
  | master
  | forks
  | both
  | auto
deriving DecidableEq, Inhabited

namespace RouteMode

def name : RouteMode → String
  | disabled => "disabled"
  | master => "master"
  | forks => "forks"
  | both => "both"
  | auto => "auto"

def all : List RouteMode := [disabled, master, forks, both, auto]

/-- Whether several routes get a menu. -/
def wantsMenu : RouteMode → Bool
  | master | both | auto => true
  | disabled | forks => false

/-- Whether several routes get a script of their own each. -/
def wantsForks : RouteMode → Bool
  | forks | both | auto => true
  | disabled | master => false

/-- Other words for a mode. -/
def synonyms : List (String × RouteMode) :=
  [("off", disabled), ("none", disabled), ("menu", master), ("fork", forks)]

def ofName? (word : String) : Option RouteMode := all.find? (·.name == word)

/-- The mode for a word in any letter case, or why there is none. -/
def parse (text : String) : Except String RouteMode :=
  let word := Text.lowerAscii (Text.trim text)
  match (ofName? word).orElse fun _ => synonyms.lookup word with
  | some mode => .ok mode
  | none =>
    .error ("unknown route mode '" ++ word ++ "' (expected disabled, master, forks, both or auto)")

end RouteMode

end StoryPress
