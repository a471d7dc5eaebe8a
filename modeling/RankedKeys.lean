import RankedKeys.Json.Names
import RankedKeys.Engine.Script
import RankedKeys.Engine.Basic
import RankedKeys.Keygen.MessageJson
import RankedKeys.Main
import RankedKeys.Proofs.Engine.Events
import RankedKeys.Proofs.Keygen.Agreement
import RankedKeys.Proofs.Keygen.Soundness
import RankedKeys.Proofs.Recovery.Tampering
import RankedKeys.Proofs.Engine.Ending
import RankedKeys.Proofs.Engine.Timing
import RankedKeys.Proofs.Engine.Completion
import RankedKeys.Proofs.Engine.Script
import RankedKeys.Proofs.Keygen.Refresh
import RankedKeys.Proofs.Birkhoff.Relisting
import RankedKeys.Proofs.Curve.P256
import RankedKeys.Proofs.Recovery.Relisting
import RankedKeys.Proofs.Engine.Record
import RankedKeys.Proofs.Engine.Trail
import RankedKeys.Proofs.Keygen.Origin
import RankedKeys.Proofs.Keygen.Dealt
import RankedKeys.Proofs.Keygen.Isolation
import RankedKeys.Proofs.Keygen.Rest
import RankedKeys.Proofs.Keygen.Recorded
import RankedKeys.Proofs.Engine.Conservation
import RankedKeys.Proofs.Engine.Shutdown
import RankedKeys.Proofs.Engine.Ascent
import RankedKeys.Proofs.Keygen.PublicPart
import RankedKeys.Proofs.Recovery.Saved
import RankedKeys.Proofs.Birkhoff.Reconstruction
import RankedKeys.Proofs.Keygen.MessageJson
import RankedKeys.Proofs.Birkhoff.Admission
import RankedKeys.Proofs.Birkhoff.Interpolation
import RankedKeys.Proofs.Birkhoff.Lagrange
import RankedKeys.Proofs.Keygen.Verification
import RankedKeys.Proofs.Engine.Calls
import RankedKeys.Proofs.Engine.BrokenOff
import RankedKeys.Proofs.Engine.Visits
import RankedKeys.Proofs.Engine.Quorum
import RankedKeys.Proofs.Engine.Cancellation
import RankedKeys.Proofs.Keygen.Guards
import RankedKeys.Proofs.Keygen.SelfCheck
import RankedKeys.Proofs.Keygen.SessionId
import RankedKeys.Proofs.Keygen.Secrecy
import RankedKeys.Proofs.Engine.Ledger
import RankedKeys.Proofs.Keygen.FailedStart
import RankedKeys.Proofs.Network
import RankedKeys.Proofs.Text.Numeral
import RankedKeys.Proofs.Curve.Decimal
import RankedKeys.Proofs.Recovery.Spelling
import RankedKeys.Proofs.Birkhoff.Differentiation
import RankedKeys.Proofs.Birkhoff.ReducedForm
import RankedKeys.Proofs.Recovery.Pairing
