import StoryPress.Main
import StoryPress.Proofs.Routes
import StoryPress.Proofs.Containment
import StoryPress.Proofs.Jumps
import StoryPress.Proofs.Operations
import StoryPress.Proofs.SinkSteps
import StoryPress.Proofs.Catalogued
import StoryPress.Proofs.BundlePaths
import StoryPress.Proofs.Artifacts
import StoryPress.Proofs.Written
import StoryPress.Proofs.Kept
import StoryPress.Proofs.Compared
import StoryPress.Proofs.Predicted
import StoryPress.Proofs.ControlFlow
import StoryPress.Proofs.AuthoredText
import StoryPress.Proofs.Spellings
import StoryPress.Proofs.Beside
import StoryPress.Proofs.Unmoved
import StoryPress.Proofs.Idle
import StoryPress.Proofs.Remembered
import StoryPress.Proofs.Rerun
import StoryPress.Proofs.RoutePlans
import StoryPress.Proofs.Registrations
import StoryPress.Proofs.Declared
import StoryPress.Proofs.Archives
import StoryPress.Proofs.Shipped
import StoryPress.Proofs.Refusals
import StoryPress.Proofs.DryCommands
import StoryPress.Proofs.JsonText
import StoryPress.Proofs.RecordedForks
import StoryPress.Proofs.PackagedForks
import StoryPress.Proofs.LateRefusals
import StoryPress.Proofs.Confined
import StoryPress.Proofs.Swept
import StoryPress.Proofs.Replaced
import StoryPress.Proofs.Reread
import StoryPress.Proofs.Contents
import StoryPress.Proofs.Licences
import StoryPress.Proofs.Covered
import StoryPress.Proofs.Viewpoints
import StoryPress.Proofs.Scans
import StoryPress.Proofs.Portraits
import StoryPress.Proofs.Stamps
import StoryPress.Proofs.WorldNames
import StoryPress.Proofs.ModularScripts
import StoryPress.Proofs.DeadEnds
import StoryPress.Proofs.MissingPictures
import StoryPress.Proofs.Allocations
import StoryPress.Proofs.Records
import StoryPress.Proofs.Tags
import StoryPress.Proofs.Reencoded
import StoryPress.Proofs.ForkManifests
import StoryPress.Proofs.Literals
import StoryPress.Proofs.RatedText
import StoryPress.Proofs.NormalSlugs
