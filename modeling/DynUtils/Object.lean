import DynUtils.Storage

/-! `DynObject`: construction, access, replacement, destruction and downcast. -/
namespace DynUtils

open FlatMemory

abbrev TypeId := RustType

/-- `TypeId::of::<T>()`; distinct types have distinct ids. -/
def TypeId.of (T : RustType) : TypeId := T

/-- Which storage accessor a vtable entry applies to its first argument. -/
inductive VtableReceiver
  | ref
  | mut
  | pinned
deriving DecidableEq

/-- The closure `|__self, ..| T::name(__self.as_..(), ..)` behind an `unsafe fn()`. -/
structure ErasedFn where
  ty : RustType
  name : String
  receiver : VtableReceiver
deriving DecidableEq

/-- The fields of the several `__Vtable`s, those a trait's own one lacks being
`none`. A `drop_in_place::<T>` is told by its `T`. -/
structure Vtable where
  dropInPlace : Option RustType
  layout : Layout
  typeId : Option TypeId
  methods : String → Option ErasedFn

/-- A `dyn Trait` that `DynObject` supports. -/
inductive DynTrait
  | any
  | trait (receivers : String → Option VtableReceiver)

namespace DynTrait

/-- `Vtable::<T>::DROP_IN_PLACE_FN`. -/
def dropInPlaceFn (T : RustType) : Option RustType := if T.needsDrop then some T else none

/-- The accessor that a method's vtable entry applies, if the trait has the method. -/
def receiver (D : DynTrait) (name : String) : Option VtableReceiver :=
  match D with
  | any => none
  | trait receivers => receivers name

/-- `<dyn Trait as Vtable<T>>::vtable()`. -/
def vtable (D : DynTrait) (T : RustType) : Vtable where
  dropInPlace := dropInPlaceFn T
  layout := T.layout
  typeId := match D with
    | any => some (TypeId.of T)
    | trait _ => none
  methods name := (D.receiver name).map (⟨T, name, ·⟩)

@[simp] theorem vtable_dropInPlace (D : DynTrait) (T : RustType) :
    (D.vtable T).dropInPlace = dropInPlaceFn T := rfl
@[simp] theorem vtable_layout (D : DynTrait) (T : RustType) : (D.vtable T).layout = T.layout := rfl

theorem vtable_typeId {D : DynTrait} {T U : RustType} (h : (D.vtable T).typeId = some U) :
    U = T := by
  cases D <;> simp_all [vtable, TypeId.of]

end DynTrait

/-- How a call of user code ends. -/
inductive Outcome
  | returns
  | unwinds
deriving DecidableEq

structure DynObject (S : Type) where
  storage : S
  vtable : Vtable

namespace DynObject
variable [FieldOffsets] {S : Type} {T : RustType}

section
variable [Storage S]

/-- Address of the field `storage` of an object at `here`. -/
def storageAt (S : Type) [Storage S] (here : Addr) : Addr :=
  here + FieldOffsets.storage (Storage.layout S)

/-- The bytes of an object that matter: those up to the end of its storage. -/
def size (S : Type) [Storage S] : ℕ :=
  FieldOffsets.storage (Storage.layout S) + (Storage.layout S).size

def new (D : DynTrait) (object : Value T) (here answer : Addr) (w : World) :
    Except Fault (DynObject S × World) := do
  let (storage, w) ← Storage.new object (storageAt S here) answer w
  return (⟨storage, D.vtable T⟩, w)

/-- Applies a vtable entry's accessor to the object's storage: `as_ref`, `as_mut`
or `as_pinned_mut` of `T`, on `storage`, `storage_mut` or `storage_pinned_mut`. -/
def project (self : DynObject S) (here : Addr) (T : RustType) :
    VtableReceiver → Except Fault Addr
  | .ref => Storage.asRef T self.storage (storageAt S here)
  | .mut => Storage.asMut T self.storage (storageAt S here)
  | .pinned => Storage.asPinnedMut T self.storage (storageAt S here)

/-- A trait method of the object: the vtable entry finds the `T` it was made for
and runs `T::name` on it, which gives a result and may leave any new value there. -/
def call {R : Type} (self : DynObject S) (here : Addr) (name : String)
    (body : (T : RustType) → Value T → R × Value T) (w : World) : Except Fault (R × World) :=
  match self.vtable.methods name with
  | none => .error .notAvailable
  | some f => do
    let p ← self.project here f.ty f.receiver
    let (result, object) := body f.ty (w.read f.ty p)
    return (result, (w.record (.accessed f.ty p)).write p object)

/-- `Drop for DynObject`. A destructor that unwinds leaves the function there. -/
def drop (self : DynObject S) (here : Addr) (destructor : Outcome) (w : World) :
    Except Fault (Outcome × World) :=
  let p := Storage.ptrMut self.storage (storageAt S here)
  match self.vtable.dropInPlace with
  | some T =>
    let w := w.record (.destructor T p)
    match destructor with
    | .unwinds => .ok (.unwinds, w)
    | .returns => do
      let w ← Storage.dropInPlace self.storage self.vtable.layout w
      return (.returns, w)
  | none => do
    let w ← Storage.dropInPlace self.storage self.vtable.layout (w.record (.lapsed p))
    return (.returns, w)

/-- Address of the payload of an `Option<DynObject>` at `here`. -/
def someAt (S : Type) [Storage S] (here : Addr) : Addr :=
  here + FieldOffsets.some (Storage.layout S)

/-- What an assignment to a slot `Option<DynObject>` at `here` drops first. -/
def dropSlot (this : Option (DynObject S)) (here : Addr) (destructor : Outcome) (w : World) :
    Except Fault (Outcome × World) :=
  match this with
  | none => .ok (.returns, w)
  | some old => old.drop (someAt S here) destructor w

/-- `insert`: the new object is built at `tmp`, then `Option::insert` drops what
the slot at `here` holds and moves the new object in, also when that unwinds. The
reference is that of `as_mut::<T>`; there is none on the unwinding path. -/
def insert (D : DynTrait) (this : Option (DynObject S)) (object : Value T)
    (here tmp answer : Addr) (destructor : Outcome) (w : World) :
    Except Fault (Option Addr × DynObject S × World) := do
  let (value, w) ← new D object tmp answer w
  let (outcome, w) ← dropSlot this here destructor w
  let w := w.moveBytes tmp (someAt S here) (size S)
  match outcome with
  | .unwinds => .ok (none, value, w)
  | .returns => do
    let p ← Storage.asMut T value.storage (storageAt S (someAt S here))
    return (some p, value, w.record (.accessed T p))

end

/-- `insert_pinned` is `insert` under a pin. -/
def insertPinned [Storage S] (D : DynTrait) (this : Option (DynObject S)) (object : Value T)
    (here tmp answer : Addr) (destructor : Outcome) (w : World) :
    Except Fault (Option Addr × DynObject S × World) :=
  insert D this object here tmp answer destructor w

def fromBox [FromBox S] (D : DynTrait) (boxed : StdBox T) (here : Addr) (w : World) :
    Except Fault (DynObject S × World) := do
  let (storage, w) ← FromBox.fromBox boxed (storageAt S here) w
  return (⟨storage, D.vtable T⟩, w)

/-! `any_impl!` -/

variable [Storage S]

def is (self : DynObject S) (T : RustType) : Bool := self.vtable.typeId = some (TypeId.of T)

def downcastRef (self : DynObject S) (here : Addr) (T : RustType) :
    Except Fault (Option Addr) :=
  if self.is T then do
    let p ← Storage.asRef T self.storage (storageAt S here)
    return some p
  else .ok none

def downcastMut (self : DynObject S) (here : Addr) (T : RustType) :
    Except Fault (Option Addr) :=
  if self.is T then do
    let p ← Storage.asMut T self.storage (storageAt S here)
    return some p
  else .ok none

/-- `downcast`: the value read out, or the object given back. -/
def downcast (self : DynObject S) (here : Addr) (T : RustType) (w : World) :
    Except Fault ((Value T ⊕ DynObject S) × World) :=
  if self.is T then do
    -- `self` is in a `ManuallyDrop` from here on: `Drop` does not run
    let p := Storage.ptrMut self.storage (storageAt S here)
    let obj := w.read T p
    let w ← Storage.dropInPlace self.storage T.layout (w.record (.movedOut T p))
    return (.inl obj, w)
  else .ok (.inr self, w)

end DynObject

end DynUtils
