import Steward.Config.Document
import Steward.Core.Machine
import Steward.Fleet.Boot
import Steward.Proofs.Cell.Coherence
import Steward.Proofs.Cell.Exclusion
import Steward.Proofs.Cell.Reopening
import Steward.Proofs.Cell.Reports
import Steward.Proofs.Cell.Stream
import Steward.Proofs.Config.Layering
import Steward.Proofs.Config.Saving
import Steward.Proofs.Fleet.Addressing
import Steward.Proofs.Fleet.Admission
import Steward.Proofs.Fleet.Following
import Steward.Proofs.Fleet.Health
import Steward.Proofs.Fleet.Latecomer
import Steward.Proofs.Fleet.Newcomers
import Steward.Proofs.Fleet.Readiness
import Steward.Proofs.Fleet.Rejection
import Steward.Proofs.Fleet.Remote
import Steward.Proofs.Fleet.Shutdown
import Steward.Proofs.Link.Propagation
import Steward.Proofs.Link.Turns
import Steward.Proofs.Machine
import Steward.Proofs.Mini.Ledger
import Steward.Proofs.Mini.Population
import Steward.Proofs.Registry.Addition
import Steward.Proofs.Registry.Cycles
import Steward.Proofs.Registry.Earliest
import Steward.Proofs.Registry.Inquiry
import Steward.Proofs.Registry.Pruning
import Steward.Proofs.Rotation.Disarming
import Steward.Proofs.Rotation.Freshness
import Steward.Proofs.Rotation.Range
import Steward.Proofs.Rotation.Single
import Steward.Proofs.Rotation.Ticks
import Steward.Proofs.Throng.Basic
import Steward.Proofs.Throng.Line
import Steward.Proofs.Throng.Regime
import Steward.Proofs.Waiting.Acyclic
import Steward.Proofs.Waiting.Bounds
import Steward.Proofs.Waiting.Errands
import Steward.Proofs.Waiting.Estate
import Steward.Proofs.Waiting.Operations
import Steward.Proofs.Waiting.Rehearsal
import Steward.Proofs.Wire.Messages
import Steward.Proofs.Wire.Presentation
import Steward.Rehearsal.Record
import Steward.Rehearsal.Sheet
import Steward.Wire.Credential
import Steward.Workers
