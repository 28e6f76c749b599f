import Refit.Build.Check
import Refit.Chat.Client
import Refit.Main
import Refit.Json.Reader
import Refit.ProjectRoot
import Refit.Promotion.Gate
import Refit.Repair.Loop
import Refit.Settings.Load
import Refit.Sources
import Refit.Terminal.Style
import Refit.Workspace
import Refit.Proofs.Tree.Spot
import Refit.Proofs.Repair.Rounds
import Refit.Proofs.Repair.Splice
import Refit.Proofs.Repair.Protocol
import Refit.Proofs.Path.Names
import Refit.Proofs.Tree.Straight
import Refit.Proofs.Step
import Refit.Proofs.Tree.Change
import Refit.Proofs.Workspace.Sandbox
import Refit.Proofs.Sources.Found
import Refit.Proofs.Run.Course
import Refit.Proofs.Run.Isolation
import Refit.Proofs.Tree.Shape
import Refit.Proofs.Workspace.Copied
import Refit.Proofs.Repair.Disk
import Refit.Proofs.Run.Mirror
import Refit.Proofs.Promotion.Contract
import Refit.Proofs.Tree.Trail
import Refit.Proofs.Workspace.Reach
import Refit.Proofs.Tree.Listing
import Refit.Proofs.Workspace.Walked
import Refit.Proofs.Workspace.Exact
import Refit.Proofs.Workspace.Plain
import Refit.Proofs.ProjectRoot.Ancestors
import Refit.Proofs.ProjectRoot.Above
import Refit.Proofs.Run.RulesOnly
import Refit.Proofs.Run.Told
import Refit.Proofs.Run.Reworked
import Refit.Proofs.Diff.Cover
import Refit.Proofs.Diff.Slide
import Refit.Proofs.Diff.Hunks
import Refit.Proofs.Diff.Patch
import Refit.Proofs.Diff.Reading
import Refit.Proofs.Diff.Shown
import Refit.Proofs.Diff.Faithful
import Refit.Proofs.Repair.Told
import Refit.Proofs.Run.Loop
import Refit.Proofs.Run.Reports
import Refit.Proofs.Run.Account
import Refit.Proofs.Tree.Directory
import Refit.Proofs.Workspace.Removal
import Refit.Proofs.Run.Lifecycle
import Refit.Proofs.Repair.Passed
import Refit.Proofs.Run.Unverified
import Refit.Proofs.Unlogged
import Refit.Proofs.Repair.Unlogged
import Refit.Proofs.Run.Unlogged
import Refit.Proofs.Workspace.Unseen
import Refit.Proofs.Run.Secluded
import Refit.Proofs.Run.Stale
import Refit.Proofs.Run.OnFile
import Refit.Proofs.Run.Inside
import Refit.Proofs.Run.Counterpart
import Refit.Proofs.Decimal.Grammar
import Refit.Proofs.Settings.File
import Refit.Proofs.Settings.Merge
import Refit.Proofs.Chat.Retries
import Refit.Proofs.Text.Place
import Refit.Proofs.Text.Blank
import Refit.Proofs.Chat.Fence
import Refit.Proofs.Source.Extent
import Refit.Proofs.Source.Literal
import Refit.Proofs.Chat.Reply
import Refit.Proofs.Chat.Proposal
import Refit.Proofs.Sources.Listed
import Refit.Proofs.Sources.Collected
import Refit.Proofs.Text.Lines
import Refit.Proofs.Build.Excerpt
import Refit.Proofs.Chat.Wrapped
import Refit.Proofs.Settings.Blank
import Refit.Proofs.Text.Replaced
import Refit.Proofs.Source.Reapplied
import Refit.Proofs.Run.Reapplied
import Refit.Proofs.Terminal.Colours
import Refit.Proofs.Abreast
import Refit.Proofs.Tree.Veil
import Refit.Proofs.Chat.Keyless
import Refit.Proofs.Repair.Abreast
import Refit.Proofs.Twins
import Refit.Proofs.Build.Discreet
import Refit.Proofs.Workspace.Originals
import Refit.Proofs.Workspace.Twins
import Refit.Proofs.Sources.Veiled
import Refit.Proofs.Run.Abreast
import Refit.Proofs.Run.Rekeyed
import Refit.Proofs.Text.Bytes
import Refit.Proofs.Draft.Placement
import Refit.Proofs.Tree.Fillers
import Refit.Proofs.ProjectRoot.Nearest
import Refit.Proofs.Path.Written
import Refit.Proofs.Workspace.Rerooted
