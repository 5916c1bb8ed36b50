import StoryPress.Route.LabelBook
import StoryPress.Route.Mode
import StoryPress.Viewpoint.Collect

/-!
# Route plans

The placed scenes are grouped into one route for each viewpoint that some placement carries. A placement
carries the viewpoints that it names itself, or those of its scene where it names none.
-/

namespace StoryPress

/-- A placed scene with its label and viewpoints. -/
structure PlacedScene where
  sceneId : String
  label : String
  /-- The viewpoints of the scene. -/
  own : ViewpointCatalog
  /-- The viewpoints of the placement. -/
  placed : ViewpointCatalog
deriving DecidableEq, Inhabited

/-- Whether the route of a viewpoint plays the placement. -/
def PlacedScene.carries (p : PlacedScene) (id : String) : Bool :=
  if p.placed.isEmpty then p.own.contains id else p.placed.contains id

structure Route where
  viewpoint : String
  display : String
  slug : String
  entry : String
  labels : List String
  sceneIds : List String
deriving DecidableEq, Inhabited

def Route.toJson (r : Route) : Json :=
  .object [("pov_id", .string r.viewpoint), ("display_name", .string r.display), ("slug", .string r.slug),
    ("entry_label", .string r.entry), ("scene_labels", Json.ofStrings r.labels),
    ("scene_ids", Json.ofStrings r.sceneIds)]

structure RoutePlan where
  catalog : ViewpointCatalog
  routes : List Route
  mode : RouteMode
  menu : Bool
  forks : Bool
  /-- The viewpoint of the default route. -/
  preferred : Option String
deriving DecidableEq, Inhabited

namespace RoutePlan

/-- Whether there is more than one route. -/
def isMulti (p : RoutePlan) : Bool := 2 ≤ p.routes.length

def route? (p : RoutePlan) (id : String) : Option Route := p.routes.find? (·.viewpoint == id)

/-- The viewpoints of a sequence: those of all scenes, then those of all placements, then names from the
world. -/
def catalogOf (sequence : List PlacedScene) (world : Option World) : ViewpointCatalog :=
  let c := sequence.foldl (fun c p => c.extend p.own) {}
  let c := sequence.foldl (fun c p => c.extend p.placed) c
  world.toList.foldl ViewpointCatalog.nameFrom c

/-- The slug of a route among the slugs that are taken. -/
def slugFor (taken : List String) (id : String) : String :=
  let slug := Naming.slug id
  Naming.fresh taken (if slug.isEmpty then "pov" else slug)

/-- One route for each viewpoint that is carried. -/
def routesOf (sequence : List PlacedScene) :
    List Viewpoint → List String → LabelBook → List Route × LabelBook
  | [], _, book => ([], book)
  | v :: vs, slugs, book =>
    match sequence.filter (·.carries v.id) with
    | [] => routesOf sequence vs slugs book
    | members =>
      let slug := slugFor slugs v.id
      let (entry, book) := book.allocate ("pov_" ++ slug) "pov_"
      let (routes, book) := routesOf sequence vs (slug :: slugs) book
      (⟨v.id, v.display, slug, entry, members.map (·.label), members.map (·.sceneId)⟩ :: routes, book)

/-- Plans the routes of a sequence. -/
def ofSequence (sequence : List PlacedScene) (book : LabelBook) (mode : RouteMode) (switchMenu : Bool)
    (world : Option World) : RoutePlan :=
  let catalog := catalogOf sequence world
  let (routes, _) := routesOf sequence catalog.entries [] book
  let several : Bool := 2 ≤ routes.length
  let wanted := (world.bind (·.defaultViewpoint)).filter fun id => routes.any (·.viewpoint == id)
  { catalog := catalog
    routes := routes
    mode := mode
    menu := several && switchMenu && mode.wantsMenu
    forks := several && mode.wantsForks
    preferred := wanted.orElse fun _ => routes.head?.map (·.viewpoint) }

end RoutePlan

end StoryPress
