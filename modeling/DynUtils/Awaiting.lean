import DynUtils.Polling
import DynUtils.Syn.Binding
import DynUtils.Transparency

/-! Async functions: the futures that they give, and such a future in a `MaybeSync`, where
either its result is there already or it is behind a `DynObject`. -/
namespace DynUtils.Awaiting

open Machine Syn

/-- Where a function body gives control back. -/
inductive Turn (F O U : Type)
  | awaits (frame : F) (u : U)
  | returns (res : O) (u : U)
  | unwinds (u : U)

/-- `::core::unimplemented!()` -/
def unimplemented : Expr := .mac (.ofIdents true ["core", "unimplemented"])

/-- What the functions of the program do, `C` being the contexts of polls, `U` the world
around and `O` the results. -/
structure Lang (C U O : Type) where
  Frame : Type
  /-- The frame of a call. Nothing has run yet. -/
  enter : List FnArg → Block → List Val → Frame
  /-- A body has a context while it is polled, which shows in an `await` only. -/
  resume : Frame → Option C → U → Turn Frame O U
  unimplemented_unwinds : ∀ inputs stmts args cx u,
    ∃ u', resume (enter inputs ⟨stmts, unimplemented⟩ args) cx u = .unwinds u'
  /-- Futures that are not those of async functions. -/
  Custom : Type
  pollCustom : C → Custom → U → Polled O × Custom × U
  /-- A call of a function that is not async and gives a future, unless it unwinds. -/
  make : List FnArg → Block → List Val → U → Option (Custom × U)

variable {C U O : Type} {L : Lang C U O}

inductive Fut (L : Lang C U O)
  | running (frame : L.Frame)
  | finished
  | custom (fut : L.Custom)

namespace Fut

/-- The poll of a future in its place. That of an async function panics once it is over. -/
def poll (cx : C) : Fut L → U → Polled O × Fut L × U
  | running frame, u =>
    match L.resume frame (some cx) u with
    | .awaits frame u => (.pending, running frame, u)
    | .returns res u => (.ready res, finished, u)
    | .unwinds u => (.panics, finished, u)
  | finished, u => (.panics, finished, u)
  | custom fut, u =>
    let (res, fut, u) := L.pollCustom cx fut u
    (res, custom fut, u)

end Fut

/-- A body without `await` runs through at once, whoever polls it. -/
def AwaitFree (frame : L.Frame) : Prop :=
  ∀ cx u, L.resume frame cx u = L.resume frame none u ∧
    ∀ frame' u', L.resume frame none u ≠ .awaits frame' u'

/-- The first poll does what a plain call does. -/
theorem poll_running {frame : L.Frame} {u u' : U} {res : O} (h : AwaitFree frame)
    (hr : L.resume frame none u = .returns res u') (cx : C) :
    (Fut.running frame : Fut L).poll cx u = (.ready res, .finished, u') := by
  simp only [Fut.poll, (h (some cx) u).1, hr]

/-- A type whose values are futures, as they are laid out in memory. -/
structure FutureType (L : Lang C U O) where
  T : RustType
  IsA : Fut L → Prop
  encode : Fut L → Value T
  decode : Value T → Fut L
  decode_encode : ∀ f, IsA f → decode (encode f) = f
  isA_poll : ∀ cx f u, IsA f → IsA (f.poll cx u).2.1

/-- The trait object of `Future`, whose method takes a `Pin<&mut Self>`. -/
def dynFuture : DynTrait := .trait fun name => if name = "poll" then some .pinned else none

namespace FutureType
variable (R : FutureType L)

/-- `Future::poll` on the bytes of a value. -/
def methods : Transparency.Methods (C × U) (Polled O × U) := fun _ (cx, u) T v =>
  if h : T = R.T then
    let (res, f, u) := (R.decode (h ▸ v)).poll cx u
    ((res, u), h ▸ R.encode f)
  else ((.panics, u), v)

variable {R}

theorem directly_encode {f : Fut L} (hf : R.IsA f) (cx : C) (u : U) :
    Transparency.directly R.methods R.T (R.encode f) ("poll", (cx, u)) =
      (((f.poll cx u).1, (f.poll cx u).2.2), R.encode (f.poll cx u).2.1) := by
  simp only [Transparency.directly, methods, R.decode_encode f hf, dite_true]

end FutureType

variable [FieldOffsets] {k : StorageKind}

/-- An object that is constructed for a future. -/
def object (k : StorageKind) (R : FutureType L) (here answer : Addr) (w : World) (fut : Fut L) :
    Except Fault (Transparency.State k) := do
  let (obj, w) ← DynObject.new dynFuture (R.encode fut) here answer w
  return ⟨obj, here, false, w⟩

theorem holds_object {R : FutureType L} {here answer : Addr} {w : World} {fut : Fut L}
    {s : Transparency.State k} (h : object k R here answer w fut = .ok s) :
    Transparency.Holds dynFuture s (R.encode fut) := by
  obtain ⟨p, hn, h⟩ := bind_ok.mp h
  obtain rfl := pure_ok.mp h
  exact Transparency.holds_started (.new hn)

/-- What happens to a `MaybeSync` once it is there. -/
inductive Input (C U : Type)
  | poll (cx : C)
  /-- The rest of the program acts on the world. -/
  | env (act : U → U)
  /-- What happens to the memory that the object is in, other than calls. -/
  | memory (op : Transparency.Op (C × U)) (noCall : op.asCall = none)

/-- A poll of the object in a `MaybeSync::Async`. -/
def pollObject (R : FutureType L) (cx : C) (s : Transparency.State k) (u : U) :
    Except Fault (Polled O × Transparency.State k × U) := do
  let (r, s) ← Transparency.step R.methods s (.call "poll" (cx, u))
  match r with
  | some (res, u) => return (res, s, u)
  | none => .error .notAvailable

/-- What a poll comes to is given with the world that it leaves. -/
def step (R : FutureType L) (s : MaybeSync (Transparency.State k) O × U) :
    Input C U → Except Fault (Option (Polled O × U) × (MaybeSync (Transparency.State k) O × U))
  | .poll cx => do
    let (res, m, u) ← s.1.poll (pollObject R cx) id s.2
    return (some (res, u), (m, u))
  | .env act => .ok (none, (s.1, act s.2))
  | .memory op _ =>
    match s.1 with
    | .async obj => do
      let (_, obj) ← Transparency.step R.methods obj op
      return (none, (.async obj, s.2))
    | .sync _ | .syncPolled => .ok (none, s)

/-- The same, of the future itself. -/
def direct (s : Fut L × U) : Input C U → Option (Polled O × U) × (Fut L × U)
  | .poll cx =>
    let (res, f, u) := s.1.poll cx s.2
    (some (res, u), (f, u))
  | .env act => (none, (s.1, act s.2))
  | .memory _ _ => (none, s)

/-- The body of the future does not notice what is done before it is polled. -/
def Unnoticed (f : Fut L) (act : U → U) : Prop :=
  ∀ cx u, f.poll cx (act u) = ((f.poll cx u).1, (f.poll cx u).2.1, act (f.poll cx u).2.2)

/-- The memory of the object is its own, and nobody comes between a call that has run the
body and the poll that gives its result. -/
def Allowed (R : FutureType L) (f : Fut L) (s : MaybeSync (Transparency.State k) O × U)
    (input : Input C U) : Prop :=
  match s.1, input with
  | .sync _, .env act => Unnoticed f act
  | .async obj, .memory op _ => Transparency.Allowed dynFuture R.T obj op
  | _, _ => True

/-- What the `MaybeSync` of a future is, at any time of its life. -/
inductive Agrees (R : FutureType L) (f : Fut L) :
    MaybeSync (Transparency.State k) O × U → Fut L × U → Prop
  | sync {res : O} {u u' : U} : (∀ cx, f.poll cx u = (.ready res, .finished, u')) →
      Agrees R f (.sync res, u') (f, u)
  | async {obj : Transparency.State k} {f' : Fut L} {u : U} : R.IsA f' →
      Transparency.Holds dynFuture obj (R.encode f') → Agrees R f (.async obj, u) (f', u)
  | syncPolled {u : U} : Agrees R f (.syncPolled, u) (.finished, u)

variable {R : FutureType L} {f : Fut L}

theorem holds_step {obj : Transparency.State k} {f' : Fut L} {op : Transparency.Op (C × U)}
    (h : Transparency.Holds dynFuture obj (R.encode f'))
    (hok : Transparency.Allowed dynFuture R.T obj op) :
    ∃ obj', Transparency.step R.methods obj op =
        .ok ((Transparency.direct R.methods R.T (R.encode f') op).1, obj') ∧
      Transparency.Holds dynFuture obj'
        (Transparency.direct R.methods R.T (R.encode f') op).2 :=
  Transparency.step_simulates h hok

/-- A poll of the object is a poll of the future in it. -/
theorem pollObject_holds {obj : Transparency.State k} {f' : Fut L} (hf : R.IsA f')
    (h : Transparency.Holds dynFuture obj (R.encode f')) (cx : C) (u : U) :
    ∃ obj', pollObject R cx obj u = .ok ((f'.poll cx u).1, obj', (f'.poll cx u).2.2) ∧
      Transparency.Holds dynFuture obj' (R.encode (f'.poll cx u).2.1) := by
  have hok : Transparency.Allowed dynFuture R.T obj (.call "poll" (cx, u)) := rfl
  obtain ⟨obj', hs, hh⟩ := holds_step h hok
  have hd := FutureType.directly_encode hf cx u
  simp only [Transparency.direct, Transparency.Op.asCall, hd] at hs hh
  refine ⟨obj', ?_, hh⟩
  simp only [pollObject, hs]
  rfl

/-- Anything else leaves the future as it is. -/
theorem memory_holds {obj : Transparency.State k} {f' : Fut L} {op : Transparency.Op (C × U)}
    (hn : op.asCall = none) (h : Transparency.Holds dynFuture obj (R.encode f'))
    (hok : Transparency.Allowed dynFuture R.T obj op) :
    ∃ r obj', Transparency.step R.methods obj op = .ok (r, obj') ∧
      Transparency.Holds dynFuture obj' (R.encode f') := by
  obtain ⟨obj', hs, hh⟩ := holds_step h hok
  simp only [Transparency.direct, hn] at hs hh
  exact ⟨_, obj', hs, hh⟩

theorem step_agrees (s : MaybeSync (Transparency.State k) O × U) (t : Fut L × U)
    (input : Input C U) (h : Agrees R f s t) (hok : Allowed R f s input) :
    ∃ s', step R s input = .ok ((direct t input).1, s') ∧ Agrees R f s' (direct t input).2 := by
  cases h with
  | sync hp =>
    cases input with
    | poll cx =>
      simp only [direct, hp cx]
      exact ⟨_, rfl, .syncPolled⟩
    | env act =>
      refine ⟨_, rfl, .sync ?_⟩
      intro cx
      have hact : Unnoticed f act := hok
      simp only [hact cx, hp cx]
    | memory op hn => exact ⟨_, rfl, .sync hp⟩
  | async hf hh =>
    cases input with
    | poll cx =>
      obtain ⟨obj', hs, hh'⟩ := pollObject_holds hf hh cx _
      refine ⟨_, ?_, .async (R.isA_poll cx _ _ hf) hh'⟩
      simp only [step, MaybeSync.poll, hs]
      rfl
    | env act => exact ⟨_, rfl, .async hf hh⟩
    | memory op hn =>
      obtain ⟨r, obj', hs, hh'⟩ := memory_holds hn hh hok
      refine ⟨_, ?_, .async hf hh'⟩
      simp only [step, hs]
      rfl
  | syncPolled => cases input <;> exact ⟨_, rfl, .syncPolled⟩

/-- It may always be polled. -/
theorem along_polls (s : MaybeSync (Transparency.State k) O × U) (cxs : List C) :
    Along (step R) (Allowed R f) s (cxs.map .poll) := by
  apply along_of_forall
  intro input hi s
  obtain ⟨cx, -, rfl⟩ := List.mem_map.mp hi
  obtain ⟨m, u⟩ := s
  cases m <;> trivial

/-- Poll by poll, the `MaybeSync` and the future come to the same. -/
theorem run_agrees {s : MaybeSync (Transparency.State k) O × U} {t : Fut L × U}
    {inputs : List (Input C U)} (h : Agrees R f s t)
    (hok : Along (step R) (Allowed R f) s inputs) :
    ∃ s', run (step R) s inputs = .ok ((iterate direct t inputs).1, s') ∧
      Agrees R f s' (iterate direct t inputs).2 :=
  run_simulates step_agrees h hok

end DynUtils.Awaiting
