import DynUtils.Lib.Memory
import Mathlib.Algebra.Group.Nat.Defs

/-! The storages behind `DynObject`, as functions on an address-based memory. -/
namespace DynUtils

open FlatMemory

abbrev Addr := ℕ

/-- A byte of memory; `none` is an uninitialized one. -/
abbrev Cell := Option UInt8

/-- A concrete type, as far as the crate can ask about it. Types of one layout
are told apart by `name`, so equality of `RustType` is equality of `TypeId`s. -/
structure RustType where
  name : ℕ
  layout : Layout
  needsDrop : Bool
  align_pow : ∃ k, layout.align = 2 ^ k
  align_dvd_size : layout.align ∣ layout.size
deriving DecidableEq

namespace RustType

abbrev size (T : RustType) : ℕ := T.layout.size
abbrev align (T : RustType) : ℕ := T.layout.align

theorem align_pos (T : RustType) : 0 < T.align := by
  obtain ⟨k, hk⟩ := T.align_pow
  exact Nat.lt_of_lt_of_eq (Nat.two_pow_pos k) hk.symm

/-- `[u8; n]` -/
def bytes (n : ℕ) : RustType := ⟨0, ⟨n, 1⟩, false, ⟨0, rfl⟩, Nat.one_dvd n⟩

/-- A struct of size and alignment `2 ^ k` that implements `Drop`. -/
def droppable (name k : ℕ) : RustType :=
  ⟨name, ⟨2 ^ k, 2 ^ k⟩, true, ⟨k, rfl⟩, Nat.dvd_refl (2 ^ k)⟩

end RustType

/-- A value is its object representation. -/
abbrev Value (T : RustType) := Fin T.size → Cell

/-- What the crate does that the ownership of values and blocks depends on. -/
inductive Event
  | alloc (b : Block)
  | dealloc (b : Block)
  | stored (T : RustType) (p : Addr)
  | destructor (T : RustType) (p : Addr)
  /-- A value without drop glue ends its life: nothing runs. -/
  | lapsed (p : Addr)
  | movedOut (T : RustType) (p : Addr)
  /-- `*boxed` moves the value out of a box and frees the box. -/
  | unboxed (T : RustType) (p : Addr)
  | accessed (T : RustType) (p : Addr)
  | copied (src dst n : ℕ)
deriving DecidableEq

inductive Fault
  /-- The environment's answer is none that an allocator gives. -/
  | notFresh
  /-- The constant assertion of `Raw::new` fails: the program does not build. -/
  | doesNotFit
  /-- The operation cannot be written in this state. -/
  | notAvailable
  /-- `unreachable_unchecked` is reached. -/
  | unreachable
  /-- The pair of pointer and layout is no live block. -/
  | badDealloc
deriving DecidableEq

/-- Faults that are undefined behavior of a program that does build. -/
def Fault.Undefined (e : Fault) : Prop := e = .unreachable ∨ e = .badDealloc

instance (e : Fault) : Decidable e.Undefined := by unfold Fault.Undefined; infer_instance

structure World where
  mem : Memory Cell
  trace : List Event

namespace World

def empty : World := ⟨⟨fun _ => none, []⟩, []⟩

def record (w : World) (e : Event) : World := { w with trace := w.trace ++ [e] }

/-- The allocator answers a request for layout `l` with `p`. -/
def alloc (w : World) (p : Addr) (l : Layout) : Except Fault World :=
  if w.mem.Fresh p l then .ok ⟨w.mem.alloc ⟨p, l⟩, w.trace ++ [.alloc ⟨p, l⟩]⟩
  else .error .notFresh

def dealloc (w : World) (p : Addr) (l : Layout) : Except Fault World :=
  if ⟨p, l⟩ ∈ w.mem.blocks then .ok ⟨w.mem.dealloc ⟨p, l⟩, w.trace ++ [.dealloc ⟨p, l⟩]⟩
  else .error .badDealloc

def read (w : World) (T : RustType) (p : Addr) : Value T := w.mem.load p T.size

def write {T : RustType} (w : World) (p : Addr) (v : Value T) : World :=
  { w with mem := w.mem.store p v }

/-- A constructor puts the value it was given where it will be kept. -/
def put {T : RustType} (w : World) (p : Addr) (v : Value T) : World :=
  (w.write p v).record (.stored T p)

/-- A move of `n` bytes, as the language does for every value that changes place. -/
def moveBytes (w : World) (src dst n : ℕ) : World :=
  ⟨w.mem.copy src dst n, w.trace ++ [.copied src dst n]⟩

end World

/-! The standard box. -/

structure StdBox (T : RustType) where
  ptr : Addr

namespace StdBox
variable {T : RustType}

/-- A zero-sized value is not allocated: the pointer dangles at the alignment. -/
def new (data : Value T) (answer : Addr) (w : World) : Except Fault (StdBox T × World) :=
  if T.size = 0 then .ok (⟨T.align⟩, w.put T.align data)
  else do
    let w ← w.alloc answer T.layout
    return (⟨answer⟩, w.put answer data)

def intoRaw (b : StdBox T) : Addr := b.ptr

/-- The expression `*b` in a move context. -/
def intoInner (b : StdBox T) (w : World) : Except Fault (Value T × World) :=
  let data := w.read T b.ptr
  let w := w.record (.unboxed T b.ptr)
  if T.size = 0 then .ok (data, w)
  else do
    let w ← w.dealloc b.ptr T.layout
    return (data, w)

end StdBox

/-- Offsets that the language leaves to the compiler, each a multiple of the
alignment of what is placed there. -/
class FieldOffsets where
  /-- Payload of `RawOrBoxInner::Raw<SIZE, ALIGN>`. -/
  raw (SIZE ALIGN : ℕ) : ℕ
  raw_dvd (SIZE ALIGN : ℕ) : ALIGN ∣ raw SIZE ALIGN
  /-- Field `storage` of a `DynObject` whose storage has this layout. -/
  storage : Layout → ℕ
  storage_dvd (l : Layout) : l.align ∣ storage l
  /-- Payload of an `Option<DynObject>` whose storage has this layout. -/
  some : Layout → ℕ
  /-- Payload of `MaybeSync::Async` of a `DynObject` whose storage has this layout. -/
  async : Layout → ℕ

/-- A compiler that puts a tag, where there is no niche for it, before the payload. -/
abbrev FieldOffsets.tagFirst : FieldOffsets where
  raw _ ALIGN := ALIGN
  raw_dvd _ ALIGN := Nat.dvd_refl ALIGN
  storage _ := 0
  storage_dvd l := Nat.dvd_zero l.align
  some _ := 0
  async l := l.align

/-- A storage value is what its own fields hold, apart from in-place data: that
lies in memory at the address `here` of the storage. A reference `&T` is its
address, `answer` is what the allocator answers if it is asked. -/
class Storage (S : Type) where
  /-- The bytes up to the end of the last field, and the alignment. The padding after a variant
  of an enum is not counted. -/
  layout : Layout
  new {T : RustType} (data : Value T) (here answer : Addr) (w : World) :
    Except Fault (S × World)
  ptr (self : S) (here : Addr) : Addr
  ptrMut (self : S) (here : Addr) : Addr
  asRef (T : RustType) (self : S) (here : Addr) : Except Fault Addr := .ok (ptr self here)
  asMut (T : RustType) (self : S) (here : Addr) : Except Fault Addr := .ok (ptrMut self here)
  asPinnedMut (T : RustType) (self : S) (here : Addr) : Except Fault Addr := asMut T self here
  dropInPlace (self : S) (layout : Layout) (w : World) : Except Fault World

class FromBox (S : Type) extends Storage S where
  fromBox {T : RustType} (boxed : StdBox T) (here : Addr) (w : World) : Except Fault (S × World)

/-! `Raw`: the bytes of `data`, the first field of a `repr(C)` struct, are those
of memory from the address of the storage on. -/

structure Raw (SIZE ALIGN : ℕ) where
deriving DecidableEq

namespace Raw
variable {SIZE ALIGN : ℕ} {T : RustType}

def canStore (SIZE ALIGN : ℕ) (T : RustType) : Bool := T.size ≤ SIZE ∧ T.align ≤ ALIGN

/-- `SIZE` bytes, padded to the alignment of the zero-sized `_align`. -/
def layout (SIZE ALIGN : ℕ) : Layout := ⟨(SIZE + ALIGN - 1) / ALIGN * ALIGN, ALIGN⟩

def newUnchecked (data : Value T) (here : Addr) (w : World) : Raw SIZE ALIGN × World :=
  (⟨⟩, w.put here data)

def new (data : Value T) (here : Addr) (w : World) : Except Fault (Raw SIZE ALIGN × World) :=
  if canStore SIZE ALIGN T then .ok (newUnchecked data here w) else .error .doesNotFit

instance : Storage (Raw SIZE ALIGN) where
  layout := layout SIZE ALIGN
  new data here _ w := Raw.new data here w
  ptr _ here := here
  ptrMut _ here := here
  dropInPlace _ _ w := .ok w

end Raw

/-! `Box`: a type-erased pointer. -/

structure Box where
  ptr : Addr
deriving DecidableEq

namespace Box
variable {T : RustType}

def fromBox (data : StdBox T) : Box := ⟨data.intoRaw⟩

def new (data : Value T) (answer : Addr) (w : World) : Except Fault (Box × World) := do
  let (b, w) ← StdBox.new data answer w
  return (fromBox b, w)

def dropInPlace (self : Box) (layout : Layout) (w : World) : Except Fault World :=
  if layout.size ≠ 0 then w.dealloc self.ptr layout else .ok w

instance : FromBox Box where
  layout := ⟨8, 8⟩
  new data _ answer w := Box.new data answer w
  ptr self _ := self.ptr
  ptrMut self _ := self.ptr
  dropInPlace := dropInPlace
  fromBox boxed _ w := .ok (Box.fromBox boxed, w)

end Box

/-! `RawOrBox`: `alloc` is the crate feature of that name, without which the
variant `Box` does not exist. -/

inductive RawOrBoxInner (alloc : Bool) (SIZE ALIGN : ℕ)
  | raw (s : Raw SIZE ALIGN)
  | box (feature : alloc = true) (s : Box)
deriving DecidableEq

structure RawOrBox (alloc : Bool) (SIZE ALIGN : ℕ) where
  inner : RawOrBoxInner alloc SIZE ALIGN
deriving DecidableEq

namespace RawOrBox
variable [FieldOffsets] {alloc : Bool} {SIZE ALIGN : ℕ} {T : RustType}

/-- Address of the payload of the variant `Raw`. -/
def payload (SIZE ALIGN : ℕ) (here : Addr) : Addr := here + FieldOffsets.raw SIZE ALIGN

def newRaw (data : Value T) (here : Addr) (w : World) :
    Except Fault (RawOrBox alloc SIZE ALIGN × World) := do
  let (s, w) ← Raw.new data (payload SIZE ALIGN here) w
  return (⟨.raw s⟩, w)

def new (data : Value T) (here answer : Addr) (w : World) :
    Except Fault (RawOrBox alloc SIZE ALIGN × World) :=
  if feature : alloc = true then
    if Raw.canStore SIZE ALIGN T then
      let (s, w) := Raw.newUnchecked data (payload SIZE ALIGN here) w
      .ok (⟨.raw s⟩, w)
    else do
      let (s, w) ← Box.new data answer w
      return (⟨.box feature s⟩, w)
  else do
    let (s, w) ← Raw.new data (payload SIZE ALIGN here) w
    return (⟨.raw s⟩, w)

def ptr (self : RawOrBox alloc SIZE ALIGN) (here : Addr) : Addr :=
  match self.inner with
  | .raw s => Storage.ptr s (payload SIZE ALIGN here)
  | .box _ s => Storage.ptr s here

def ptrMut (self : RawOrBox alloc SIZE ALIGN) (here : Addr) : Addr :=
  match self.inner with
  | .raw s => Storage.ptrMut s (payload SIZE ALIGN here)
  | .box _ s => Storage.ptrMut s here

def asRef (T : RustType) (self : RawOrBox alloc SIZE ALIGN) (here : Addr) : Except Fault Addr :=
  match self.inner with
  | .raw s =>
    if Raw.canStore SIZE ALIGN T then Storage.asRef T s (payload SIZE ALIGN here)
    else .error .unreachable
  | .box _ s =>
    if !Raw.canStore SIZE ALIGN T then Storage.asRef T s here else .error .unreachable

def asMut (T : RustType) (self : RawOrBox alloc SIZE ALIGN) (here : Addr) : Except Fault Addr :=
  match self.inner with
  | .raw s =>
    if Raw.canStore SIZE ALIGN T then Storage.asMut T s (payload SIZE ALIGN here)
    else .error .unreachable
  | .box _ s =>
    if !Raw.canStore SIZE ALIGN T then Storage.asMut T s here else .error .unreachable

def dropInPlace (self : RawOrBox alloc SIZE ALIGN) (layout : Layout) (w : World) :
    Except Fault World :=
  match self.inner with
  | .raw s => Storage.dropInPlace s layout w
  | .box _ s => Storage.dropInPlace s layout w

instance : Storage (RawOrBox alloc SIZE ALIGN) where
  layout :=
    ⟨FieldOffsets.raw SIZE ALIGN + max (Raw.layout SIZE ALIGN).size 8, max ALIGN 8⟩
  new := new
  ptr := ptr
  ptrMut := ptrMut
  asRef := asRef
  asMut := asMut
  dropInPlace := dropInPlace

def fromBox (data : StdBox T) (here : Addr) (w : World) :
    Except Fault (RawOrBox true SIZE ALIGN × World) :=
  if Raw.canStore SIZE ALIGN T then do
    let (data, w) ← data.intoInner w
    -- `Self::new` asks the allocator only for what `Raw` cannot store
    new data here 0 w
  else .ok (⟨.box rfl (Box.fromBox data)⟩, w)

instance : FromBox (RawOrBox true SIZE ALIGN) where
  fromBox := fromBox

end RawOrBox

end DynUtils
