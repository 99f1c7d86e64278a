import DynUtils.Lib.Memory
import DynUtils.Lib.Machine
import DynUtils.TagCoherence
import DynUtils.StorageKind
import DynUtils.LedgerExact
import DynUtils.Transparency
import DynUtils.Matching
import DynUtils.Pinning
import DynUtils.Syn.Visit
import DynUtils.Macros.DynObject
import DynUtils.Macros.FnPointers
import DynUtils.Macros.DynTrait
import DynUtils.Macros.DynTraitSpec
import DynUtils.Macros.Filtering
import DynUtils.Macros.Binders
import DynUtils.Macros.Captures
import DynUtils.Unwinding
import DynUtils.TypedCell
import DynUtils.Polling
import DynUtils.Macros.Conditional
import DynUtils.Macros.Instance
import DynUtils.Macros.Receivers
import DynUtils.Macros.Acceptance
import DynUtils.Macros.Ties
import DynUtils.Macros.Forwarding
import DynUtils.Macros.Elision
import DynUtils.Awaiting
import DynUtils.Macros.SyncPath
import DynUtils.Fitting
import DynUtils.Macros.Naming
import DynUtils.Macros.Closed
import DynUtils.Macros.Helpers
import DynUtils.Macros.Stacked
import DynUtils.Isolation
import DynUtils.Panics
import DynUtils.Reentrancy
import DynUtils.Allocation
import DynUtils.Macros.Dispatch
import DynUtils.Macros.Pipeline
import DynUtils.Macros.WrittenOut
import DynUtils.AutoTraits
