import ScopedCss.Session
import ScopedCss.Table.Json
import ScopedCss.Proofs.Selector.Requests
import ScopedCss.Proofs.Store.Growth
import ScopedCss.Proofs.Step.Basic
import ScopedCss.Proofs.Step.Directive
import ScopedCss.Proofs.Step.Walk
import ScopedCss.Proofs.Step.Document
import ScopedCss.Proofs.Store.Recovery
import ScopedCss.Proofs.Run.Atomicity
import ScopedCss.Proofs.Document.Names
import ScopedCss.Proofs.Path.Canonical
import ScopedCss.Proofs.Run.Agreement
import ScopedCss.Proofs.Step.Changes
import ScopedCss.Proofs.Step.Simulation
import ScopedCss.Proofs.Run.Order
import ScopedCss.Proofs.Document.References
import ScopedCss.Proofs.Document.Frame
import ScopedCss.Proofs.Run.Ledger
import ScopedCss.Proofs.Run.Snapshot
import ScopedCss.Proofs.Step.Replay
import ScopedCss.Proofs.Document.Idempotence
import ScopedCss.Proofs.Run.Policy
import ScopedCss.Proofs.Run.OwnNames
import ScopedCss.Proofs.Run.SelfReference
import ScopedCss.Proofs.Run.Forward
import ScopedCss.Proofs.Document.InPlace
import ScopedCss.Proofs.Document.Visits
import ScopedCss.Proofs.Run.Spelling
import ScopedCss.Proofs.Stylesheet.Items
import ScopedCss.Proofs.Stylesheet.Token
import ScopedCss.Proofs.Stylesheet.Closed
import ScopedCss.Proofs.Stylesheet.Head
import ScopedCss.Proofs.Stylesheet.RoundTrip
import ScopedCss.Proofs.Selector.Markers
import ScopedCss.Proofs.Selector.Standing
import ScopedCss.Proofs.Selector.Renaming
import ScopedCss.Proofs.Selector.Arguments
import ScopedCss.Proofs.Selector.PseudoClass
import ScopedCss.Proofs.Selector.Comments
import ScopedCss.Proofs.Selector.Beside
import ScopedCss.Proofs.Stylesheet.Separator
import ScopedCss.Proofs.Stylesheet.Skipping
import ScopedCss.Proofs.Stylesheet.Comments
import ScopedCss.Proofs.Run.Comments
import ScopedCss.Proofs.Use.Grammar
import ScopedCss.Proofs.Stylesheet.Joining
import ScopedCss.Proofs.Selector.Attribute
import ScopedCss.Proofs.Selector.Keyframes
import ScopedCss.Proofs.Document.Keyframes
import ScopedCss.Proofs.Import.Values
import ScopedCss.Proofs.Use.Rendering
import ScopedCss.Proofs.Run.DistinctNames
import ScopedCss.Proofs.Name.CommonPrefix
import ScopedCss.Proofs.Path.Directory
import ScopedCss.Proofs.Table.CamelCase
import ScopedCss.Proofs.Document.ClassNames
