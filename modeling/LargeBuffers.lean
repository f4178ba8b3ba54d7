import LargeBuffers.Script
import LargeBuffers.Store.Placement
import LargeBuffers.Proofs.ReleasedOnce
import LargeBuffers.Proofs.FinalRelease
import LargeBuffers.Proofs.Lifetime
import LargeBuffers.Proofs.Isolation
import LargeBuffers.Proofs.Books
import LargeBuffers.Proofs.Holdings
import LargeBuffers.Proofs.Gauge
import LargeBuffers.Proofs.Pressure
import LargeBuffers.Proofs.Leaks
import LargeBuffers.Proofs.Confluence
import LargeBuffers.Proofs.Prune
import LargeBuffers.Proofs.Refusal
import LargeBuffers.Proofs.Locality
import LargeBuffers.Proofs.Footprint
import LargeBuffers.Proofs.Bounds
import LargeBuffers.Proofs.Coherence
import LargeBuffers.Proofs.Slicing
import LargeBuffers.Proofs.Cast
import LargeBuffers.Proofs.Exclusive
import LargeBuffers.Proofs.Copies
import LargeBuffers.Proofs.Lines
import LargeBuffers.Proofs.Resolution
import LargeBuffers.Proofs.Unreferenced
import LargeBuffers.Proofs.Unreferenced.Step
import LargeBuffers.Proofs.LastHandle
import LargeBuffers.Proofs.Disposal
import LargeBuffers.Proofs.Relay
import LargeBuffers.Proofs.Allocation
import LargeBuffers.Proofs.Narrowing
import LargeBuffers.Proofs.CastSlice
import LargeBuffers.Proofs.Sites
import LargeBuffers.Proofs.Identity
import LargeBuffers.Proofs.Guards
import LargeBuffers.Proofs.Refund
import LargeBuffers.Proofs.Singleton
import LargeBuffers.Proofs.Pins
import LargeBuffers.Proofs.Repayment
