import KernelCall.Main
import KernelCall.Proofs.Call.Passes
import KernelCall.Files.Tree
import KernelCall.Proofs.Call.Bound
import KernelCall.Proofs.Variable.Rank
import KernelCall.Proofs.Call.Outcome
import KernelCall.Proofs.Call.Errors
import KernelCall.Proofs.Call.GridRank
import KernelCall.Proofs.Call.Built
import KernelCall.Proofs.Call.Accessors
import KernelCall.Proofs.Call.Reading
import KernelCall.Proofs.Call.Seats
import KernelCall.Proofs.Marshall.Alike
import KernelCall.Proofs.Call.Twins
import KernelCall.Proofs.Call.SameCode
import KernelCall.Proofs.Call.Trampoline
import KernelCall.Proofs.Call.SignatureKey
import KernelCall.Proofs.Call.Dimensions
import KernelCall.Proofs.Call.Storable
import KernelCall.Proofs.Call.Mode
import KernelCall.Proofs.Call.Place
import KernelCall.Proofs.Call.Run
import KernelCall.Proofs.Call.Pins
import KernelCall.Proofs.Call.Strict
import KernelCall.Proofs.Layout
import KernelCall.Proofs.Call.Fitting
import KernelCall.Proofs.Call.Ways
import KernelCall.Proofs.Call.Payload
import KernelCall.Proofs.Call.Typing
import KernelCall.Proofs.Code.Scope
import KernelCall.Proofs.Call.Selection
import KernelCall.Proofs.Call.GivenRank
import KernelCall.Proofs.Call.Rebind
import KernelCall.Proofs.Call.Repeat
import KernelCall.Proofs.Call.Capacity
import KernelCall.Proofs.Call.Forbid
import KernelCall.Proofs.Call.Clash
import KernelCall.Proofs.Variable.Overriding
import KernelCall.Proofs.Call.Overriding
import KernelCall.Proofs.Halting
import KernelCall.Proofs.Call.Leafwise
import KernelCall.Proofs.Call.Forwarding
import KernelCall.Proofs.Text.Lines
import KernelCall.Proofs.Code.Shift
import KernelCall.Proofs.Call.Shift
import KernelCall.Proofs.Call.Signatures
import KernelCall.Proofs.Call.Paths
import KernelCall.Proofs.KernelType.Reduction
import KernelCall.Proofs.Marshall.Resolution
import KernelCall.Proofs.KernelType.Brackets
import KernelCall.Proofs.Call.Complete
import KernelCall.Proofs.Call.Mirror
import KernelCall.Proofs.Call.Registration
import KernelCall.Proofs.CallFile.Resources
import KernelCall.Proofs.Report.Description
import KernelCall.Proofs.Marshall.HostType
import KernelCall.Proofs.Call.Exchange
