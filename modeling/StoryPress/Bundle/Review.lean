import StoryPress.Json.Record

/-!
# Reviews of an export

A gate and a rating are asked before anything is written, and either can refuse. A scanner is shown the
finished bundle and can only report findings.
-/

namespace StoryPress

open Json (Tree Field Record)

structure GateDecision where
  allow : Bool := false
  requiresAck : Bool := false
  warnings : List String := []
deriving DecidableEq, Inhabited

namespace GateDecision

/-- The decision of a gate that lets everything pass. -/
def allowed : GateDecision := ⟨true, false, []⟩

def record : Record GateDecision where
  start := {}
  fields := [
    (Field.of "allow" Tree.flag fun v d => { d with allow := v }).needed,
    (Field.of "requires_ack" Tree.flag fun v d => { d with requiresAck := v }).needed,
    Field.of "warnings" (Tree.list Tree.text) fun v d => { d with warnings := v }]

def toJson (d : GateDecision) : Json :=
  .object [("allow", .bool d.allow), ("requires_ack", .bool d.requiresAck),
    ("warnings", Json.ofStrings d.warnings)]

end GateDecision

structure RatingDecision where
  allowed : Bool := false
  rating : String := ""
  ackStatus : String := ""
deriving DecidableEq, Inhabited

namespace RatingDecision

def record : Record RatingDecision where
  start := {}
  fields := [
    (Field.of "allowed" Tree.flag fun v d => { d with allowed := v }).needed,
    (Field.of "rating" Tree.text fun v d => { d with rating := v }).needed,
    (Field.of "ack_status" Tree.text fun v d => { d with ackStatus := v }).needed]

def toJson (d : RatingDecision) : Json :=
  .object [("allowed", .bool d.allowed), ("rating", .string d.rating), ("ack_status", .string d.ackStatus)]

end RatingDecision

/-- What the rating is asked. -/
structure RatingRequest where
  subject : String
  content : String
  mode : String
  acknowledged : Bool
  action : String
  ackToken : Option String
deriving DecidableEq, Inhabited

def RatingRequest.toJson (r : RatingRequest) : Json :=
  .object [("subject", .string r.subject), ("content", .string r.content), ("mode", .string r.mode),
    ("acknowledged", .bool r.acknowledged), ("action", .string r.action),
    ("ack_token", Json.ofText? r.ackToken)]

/-- What the scanner reports. -/
structure Finding where
  code : String := ""
  message : String := ""
  sceneId : Option String := none
deriving DecidableEq, Inhabited

namespace Finding

def record : Record Finding where
  start := {}
  fields := [
    (Field.of "code" Tree.text fun v f => { f with code := v }).needed,
    (Field.of "message" Tree.text fun v f => { f with message := v }).needed,
    Field.of "scene_id" (Tree.optional Tree.text) fun v f => { f with sceneId := v }]

def toJson (f : Finding) : Json :=
  .object ([("code", .string f.code), ("message", .string f.message)] ++
    f.sceneId.toList.map fun id => ("scene_id", .string id))

end Finding

/-- The answers of the three reviewers, each a function of what it is asked. -/
structure Reviewers (β : Type) where
  gate : String → GateDecision := fun _ => .allowed
  rating : RatingRequest → RatingDecision :=
    fun r => ⟨true, "unrated", if r.acknowledged then "acknowledged" else "not_required"⟩
  scan : β → List Finding := fun _ => []

/-- A point of an export at which a reviewer is asked. -/
structure Hook where
  name : String
  stage : String
  blocking : Bool
  description : String
deriving DecidableEq, Inhabited

namespace Hook

def toJson (h : Hook) : Json :=
  .object [("name", .string h.name), ("stage", .string h.stage), ("blocking", .bool h.blocking),
    ("description", .string h.description)]

/-- The hooks in the order in which they are reached. -/
def all : List Hook := [
  ⟨"gate.evaluate", "pre-render", true, "Policy gate; allow=false aborts the export"⟩,
  ⟨"rating.evaluate", "pre-render", true, "Content rating; allowed=false aborts the export"⟩,
  ⟨"advisory.scan", "post-render", false,
    "Advisory scan of the written bundle; findings are logged only"⟩]

/-- The list of hooks as a file. -/
def catalog : Json := .array (all.map toJson)

end Hook

end StoryPress
