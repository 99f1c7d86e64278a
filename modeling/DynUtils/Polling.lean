import DynUtils.MaybeSync

/-! Whole lives of a `MaybeSync`: any number of polls, and a drop. -/
namespace DynUtils.MaybeSync

open Machine

variable {F O W C : Type}

/-- One poll under the waker `cx`, of a future that polls by `fut`. -/
def step (fut : C → F → W → Polled O × F × W) (replace : W → W) (s : MaybeSync F O × W) (cx : C) :
    Except Fault (Polled O × (MaybeSync F O × W)) := do
  let (res, self, w) ← s.1.poll (fun f w => .ok (fut cx f w)) replace s.2
  return (res, (self, w))

/-- What the drop glue of the enum destroys. -/
def dropped : MaybeSync F O → List (O ⊕ F)
  | sync res => [.inl res]
  | async fut => [.inr fut]
  | syncPolled => []

/-- What the polls have given to the caller. -/
def handed (outs : List (Polled O)) : List (O ⊕ F) :=
  outs.filterMap fun
    | .ready res => some (.inl res)
    | .pending | .panics => none

/-- A poll of the future itself. -/
def direct (fut : C → F → W → Polled O × F × W) (s : F × W) (cx : C) : Polled O × (F × W) :=
  fut cx s.1 s.2

/-- The polls of a value that is there already. -/
def onceReady (res : O) : List C → List (Polled O)
  | [] => []
  | _ :: cxs => .ready res :: cxs.map fun _ => .panics

variable {fut : C → F → W → Polled O × F × W} {replace : W → W}

theorem step_async (f : F) (w : W) (cx : C) : step fut replace (async f, w) cx =
    .ok ((direct fut (f, w) cx).1, (async (direct fut (f, w) cx).2.1, (direct fut (f, w) cx).2.2)) :=
  rfl

/-- Polling a `MaybeSync::Async` is polling its future, which is never taken out. -/
theorem run_async (f : F) (w : W) (cxs : List C) : run (step fut replace) (async f, w) cxs =
    .ok ((iterate (direct fut) (f, w) cxs).1,
      (async (iterate (direct fut) (f, w) cxs).2.1, (iterate (direct fut) (f, w) cxs).2.2)) := by
  induction cxs generalizing f w with
  | nil => rfl
  | cons cx cxs ih => simp only [run, step_async, ih, iterate]

/-- Once it has been polled, only panics are left. -/
theorem run_syncPolled (w : W) (cxs : List C) : run (step fut replace) (syncPolled, w) cxs =
    .ok (cxs.map fun _ => .panics, (syncPolled, w)) := by
  induction cxs with
  | nil => rfl
  | cons cx cxs ih =>
    have hs : step fut replace (syncPolled, w) cx = .ok (.panics, (syncPolled, w)) := rfl
    simp only [run, hs, ih, List.map_cons]

theorem run_sync (res : O) (w : W) (cx : C) (cxs : List C) :
    run (step fut replace) (sync res, w) (cx :: cxs) =
      .ok (onceReady res (cx :: cxs), (syncPolled, replace w)) := by
  have hs : step fut replace (sync res, w) cx = .ok (.ready res, (syncPolled, replace w)) := rfl
  simp only [run, hs, run_syncPolled, onceReady]

theorem handed_panics (cxs : List C) :
    (handed (cxs.map fun _ => .panics) : List (O ⊕ F)) = [] := by
  simp [handed]

/-- However often it is polled before it is dropped, no run ends in a fault. A value that
is there is given to the first poll, if there is one, and destroyed by the drop otherwise;
a future is polled as it is, and destroyed by the drop. -/
theorem run_law (fut : C → F → W → Polled O × F × W) (replace : W → W) (w : W) (cxs : List C) :
    (∀ res : O, ∃ self w', run (step fut replace) (sync res, w) cxs =
        .ok (onceReady res cxs, (self, w')) ∧
      w' = (if cxs.isEmpty then w else replace w) ∧
      handed (onceReady res cxs) ++ self.dropped = [.inl res]) ∧
    ∀ f : F, ∃ outs f' w', run (step fut replace) (async f, w) cxs = .ok (outs, (async f', w')) ∧
      (outs, (f', w')) = iterate (direct fut) (f, w) cxs ∧
      (async f' : MaybeSync F O).dropped = [.inr f'] := by
  refine ⟨?_, fun f => ⟨_, _, _, run_async f w cxs, rfl, rfl⟩⟩
  intro res
  cases cxs with
  | nil => exact ⟨sync res, w, rfl, rfl, rfl⟩
  | cons cx cxs =>
    refine ⟨syncPolled, replace w, run_sync res w cx cxs, rfl, ?_⟩
    have hp := handed_panics (O := O) (F := F) cxs
    simp only [onceReady, handed, List.filterMap_cons, dropped, List.append_nil]
    exact congrArg _ hp

/-- A value that is polled twice. -/
example : run (step (fun (_ : Unit) (f : Unit) (w : ℕ) => (.pending, f, w)) (· + 1))
    ((sync true : MaybeSync Unit Bool), 0) [(), ()] =
      .ok ([.ready true, .panics], (syncPolled, 1)) := rfl

end DynUtils.MaybeSync
