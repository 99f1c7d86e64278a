import DynUtils.Lib.Machine
import DynUtils.Object

/-! `MaybeSync`, over any future and any world that the future runs in. -/
namespace DynUtils

/-- How a poll ends. -/
inductive Polled (O : Type)
  | pending
  | ready (res : O)
  | panics
deriving DecidableEq

inductive MaybeSync (F O : Type)
  | sync (res : O)
  | async (fut : F)
  | syncPolled
deriving DecidableEq

namespace MaybeSync
variable {F O W : Type}

/-- `take_sync`, whose contract asks for the variant `Sync`. -/
def takeSync (self : MaybeSync F O) : Except Fault (O × MaybeSync F O) :=
  match self with
  | sync res => .ok (res, syncPolled)
  | async _ | syncPolled => .error .unreachable

/-- `poll`: `pollFut` is the poll of the future in place, and `replace` is what
`mem::replace` does to the world. -/
def poll (pollFut : F → W → Except Fault (Polled O × F × W)) (replace : W → W)
    (self : MaybeSync F O) (w : W) : Except Fault (Polled O × MaybeSync F O × W) :=
  match self with
  | sync _ => do
    let (res, self) ← self.takeSync
    return (.ready res, self, replace w)
  | async fut => do
    let (res, fut, w) ← pollFut fut w
    return (res, async fut, w)
  | syncPolled => .ok (.panics, syncPolled, w)

end MaybeSync

end DynUtils
