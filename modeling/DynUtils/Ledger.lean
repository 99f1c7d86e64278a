import DynUtils.Life
import DynUtils.StorageKind
import Mathlib.Logic.Function.Basic

/-! Ownership of values and heap blocks over whole runs with any number of objects. -/
namespace DynUtils

open FlatMemory Machine LawfulStorage

/-- A variable, or `Option` slot, with the object in it. `id` numbers the values
in the order of their construction and `ty` is the type of the one stored here;
neither is known to the program. -/
structure Held where
  kind : StorageKind
  dyn : DynTrait
  obj : DynObject kind.Carrier
  addr : Addr
  id : ℕ
  ty : RustType

structure Ledger where
  mem : Memory Cell
  vars : ℕ → Option Held
  next : ℕ
  /-- Every event, under the value that it is about. -/
  log : List (ℕ × Event)

namespace Ledger

inductive Op
  | new (x : ℕ) (k : StorageKind) (D : DynTrait) (T : RustType) (v : Value T) (here answer : Addr)
  /-- `DynObject::from_box(Box::new(v))` -/
  | fromBox (x : ℕ) (k : StorageKind) (D : DynTrait) (T : RustType) (v : Value T)
    (here answer : Addr)
  | move (x : ℕ) (dst : Addr)
  | call (x : ℕ) (name : String) (body : (T : RustType) → Value T → Outcome × Value T)
  /-- The reference is used to run `body`: a `&T` may have interior mutability. -/
  | downcastRef (x : ℕ) (U : RustType) (body : Value U → Value U)
  | downcastMut (x : ℕ) (U : RustType) (body : Value U → Value U)
  /-- `here` is where the parameter `self` lies. -/
  | downcast (x : ℕ) (U : RustType) (here : Addr)
  /-- Storage and trait are those of the slot: of its object when there is one. -/
  | insert (pinned : Bool) (x : ℕ) (k : StorageKind) (D : DynTrait) (T : RustType) (v : Value T)
    (here tmp answer : Addr)
  | drop (x : ℕ)

def empty : Ledger := ⟨⟨fun _ => none, []⟩, fun _ => none, 0, []⟩

def world (s : Ledger) : World := ⟨s.mem, []⟩

/-- The events about the value `i`, in order. -/
def history (s : Ledger) (i : ℕ) : List Event :=
  (s.log.filter (·.1 = i)).map (·.2)

/-- Takes over what an operation did to the world, and the new content of `x`. -/
def commit (s : Ledger) (x : ℕ) (content : Option Held) (about : Event → ℕ) (w : World) :
    Ledger where
  mem := w.mem
  vars := Function.update s.vars x content
  next := s.next
  log := s.log ++ w.trace.map fun e => (about e, e)

/-- As `commit`, for an operation that constructs a value. -/
def enroll (s : Ledger) (x : ℕ) (h : Held) (about : Event → ℕ) (w : World) : Ledger :=
  { s.commit x (some h) about w with next := s.next + 1 }

/-- Of the events of an `insert` over `old`, those that are about the old value. -/
def aboutInsert (old new : ℕ) : Event → ℕ
  | .dealloc _ | .destructor _ _ | .lapsed _ => old
  | _ => new

variable [FieldOffsets]

def insertAt {k : StorageKind} (pinned : Bool) (D : DynTrait) (this : Option (DynObject k.Carrier))
    {T : RustType} (v : Value T) (here tmp answer : Addr) (w : World) :
    Except Fault (Option Addr × DynObject k.Carrier × World) :=
  if pinned then DynObject.insertPinned D this v here tmp answer .returns w
  else DynObject.insert D this v here tmp answer .returns w

/-- Runs `body` through the reference that a downcast has given, if any. -/
def useRef {U : RustType} (body : Value U → Value U) (w : World) : Option Addr → World
  | none => w
  | some p => (w.record (.accessed U p)).write p (body (w.read U p))

/-- One operation of the program. The output tells how a called method ended. -/
def step (s : Ledger) : Op → Except Fault (Outcome × Ledger)
  | .new x k D T v here answer =>
    match s.vars x with
    | some _ => .error .notAvailable
    | none => do
      let (o, w) ← DynObject.new D v here answer s.world
      return (.returns, s.enroll x ⟨k, D, o, here, s.next, T⟩ (fun _ => s.next) w)
  | .fromBox x k D T v here answer =>
    match s.vars x with
    | some _ => .error .notAvailable
    | none => do
      let (b, w) ← StdBox.new v answer s.world
      let (o, w) ← k.fromBox D b here w
      return (.returns, s.enroll x ⟨k, D, o, here, s.next, T⟩ (fun _ => s.next) w)
  | .move x dst =>
    match s.vars x with
    | none => .error .notAvailable
    | some h =>
      let w := s.world.moveBytes h.addr dst (DynObject.size h.kind.Carrier)
      .ok (.returns, s.commit x (some { h with addr := dst }) (fun _ => h.id) w)
  | .call x name body =>
    match s.vars x with
    | none => .error .notAvailable
    | some h => do
      let (ends, w) ← h.obj.call h.addr name body s.world
      return (ends, s.commit x (some h) (fun _ => h.id) w)
  | .downcastRef x U body =>
    match s.vars x with
    | none => .error .notAvailable
    | some h => do
      let p ← h.obj.downcastRef h.addr U
      return (.returns, s.commit x (some h) (fun _ => h.id) (useRef body s.world p))
  | .downcastMut x U body =>
    match s.vars x with
    | none => .error .notAvailable
    | some h => do
      let p ← h.obj.downcastMut h.addr U
      return (.returns, s.commit x (some h) (fun _ => h.id) (useRef body s.world p))
  | .downcast x U here =>
    match s.vars x with
    | none => .error .notAvailable
    | some h => do
      let w := s.world.moveBytes h.addr here (DynObject.size h.kind.Carrier)
      let (res, w) ← h.obj.downcast here U w
      match res with
      | .inl _ => return (.returns, s.commit x none (fun _ => h.id) w)
      | .inr o => return (.returns, s.commit x (some { h with obj := o, addr := here })
          (fun _ => h.id) w)
  | .insert pinned x k D T v here tmp answer =>
    match s.vars x with
    | none => do
      let (_, o, w) ← insertAt (k := k) pinned D none v here tmp answer s.world
      return (.returns, s.enroll x ⟨k, D, o, DynObject.someAt k.Carrier here, s.next, T⟩
        (fun _ => s.next) w)
    | some h =>
      if h.addr = DynObject.someAt h.kind.Carrier here then do
        let (_, o, w) ← insertAt pinned h.dyn (some h.obj) v here tmp answer s.world
        return (.returns, s.enroll x { h with obj := o, id := s.next, ty := T }
          (aboutInsert h.id s.next) w)
      else .error .notAvailable
  | .drop x =>
    match s.vars x with
    | none => .error .notAvailable
    | some h => do
      let (outcome, w) ← h.obj.drop h.addr .returns s.world
      return (outcome, s.commit x none (fun _ => h.id) w)

end Ledger

end DynUtils
