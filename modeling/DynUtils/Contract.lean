import DynUtils.Lib.Machine
import DynUtils.Object

/-! The safety contract of `Storage`, and that the three storages meet it. -/
namespace DynUtils

open FlatMemory

open Machine (bind_ok bind_error pure_ok pure_ne_error)

namespace World
variable {w w' : World} {p : Addr} {l : Layout}

/-- The heap after a block, if any, has been handed out. -/
def acquire (w : World) : Option Block → World
  | none => w
  | some b => ⟨w.mem.alloc b, w.trace ++ [.alloc b]⟩

/-- Gives a block back, if there is one. -/
def release (w : World) : Option Block → Except Fault World
  | none => .ok w
  | some b => w.dealloc b.addr b.layout

/-- The world after `release` has succeeded. -/
def released (w : World) : Option Block → World
  | none => w
  | some b => ⟨w.mem.dealloc b, w.trace ++ [.dealloc b]⟩

theorem alloc_ok : w.alloc p l = .ok w' ↔ w.mem.Fresh p l ∧ w' = w.acquire (some ⟨p, l⟩) := by
  unfold alloc acquire
  split <;> simp_all [eq_comm]

theorem alloc_error {e : Fault} (h : w.alloc p l = .error e) : e = .notFresh := by
  unfold alloc at h
  split at h <;> simp_all

/-- A release succeeds when the block is live, and faults otherwise. -/
theorem release_ok {b : Option Block} :
    w.release b = .ok w' ↔ (∀ c ∈ b, c ∈ w.mem.blocks) ∧ w' = w.released b := by
  cases b with
  | none => simp [release, released, eq_comm]
  | some b =>
    simp only [release, released, dealloc]
    split <;> simp_all [eq_comm]

theorem release_of_live {b : Option Block} (h : ∀ c ∈ b, c ∈ w.mem.blocks) :
    w.release b = .ok (w.released b) := release_ok.mpr ⟨h, rfl⟩

@[simp] theorem mem_record (e : Event) : (w.record e).mem = w.mem := rfl
@[simp] theorem trace_record (e : Event) : (w.record e).trace = w.trace ++ [e] := rfl
@[simp] theorem mem_moveBytes (src dst n : ℕ) :
    (w.moveBytes src dst n).mem = w.mem.copy src dst n := rfl
@[simp] theorem trace_moveBytes (src dst n : ℕ) :
    (w.moveBytes src dst n).trace = w.trace ++ [.copied src dst n] := rfl

@[simp] theorem trace_put {T : RustType} (v : Value T) :
    (w.put p v).trace = w.trace ++ [.stored T p] := rfl
@[simp] theorem mem_put {T : RustType} (v : Value T) :
    (w.put p v).mem = w.mem.store p v := rfl

theorem read_put {T : RustType} (v : Value T) : (w.put p v).read T p = v :=
  Memory.load_store_self v

theorem read_write {T : RustType} (v : Value T) : (w.write p v).read T p = v :=
  Memory.load_store_self v

theorem trace_acquire (b : Option Block) :
    (w.acquire b).trace = w.trace ++ b.toList.map .alloc := by
  cases b <;> simp [acquire]

theorem blocks_acquire (b : Option Block) :
    (w.acquire b).mem.blocks = b.toList ++ w.mem.blocks := by
  cases b <;> simp [acquire]

theorem trace_released (b : Option Block) :
    (w.released b).trace = w.trace ++ b.toList.map .dealloc := by
  cases b <;> simp [released]

@[simp] theorem load_released (b : Option Block) (n : ℕ) :
    (w.released b).mem.load p n = w.mem.load p n := by
  cases b <;> simp [released]

@[simp] theorem load_acquire (b : Option Block) {n : ℕ} :
    (w.acquire b).mem.load p n = w.mem.load p n := by
  cases b <;> rfl

/-- A release takes blocks away only. -/
theorem mem_of_released {b : Block} {own : Option Block} (h : b ∈ (w.released own).mem.blocks) :
    b ∈ w.mem.blocks := by
  cases own with
  | none => exact h
  | some c => exact List.mem_of_mem_erase h

theorem wf_acquire {b : Option Block} (h : w.mem.Wf)
    (hb : ∀ c ∈ b, w.mem.Fresh c.addr c.layout ∧ c.layout.size ≠ 0) : (w.acquire b).mem.Wf := by
  cases b with
  | none => exact h
  | some b => exact Memory.wf_alloc h (hb b rfl).1 (hb b rfl).2

theorem wf_released {b : Option Block} (h : w.mem.Wf) : (w.released b).mem.Wf := by
  cases b with
  | none => exact h
  | some b => exact Memory.wf_dealloc h

end World

/-- The block behind a pointer to a boxed `T`: none for a zero-sized value. -/
def boxBlock (T : RustType) (p : Addr) : Option Block :=
  if T.size = 0 then none else some ⟨p, T.layout⟩

theorem boxBlock_layout {T : RustType} {p : Addr} {b : Block} (h : b ∈ boxBlock T p) :
    b = ⟨p, T.layout⟩ ∧ T.size ≠ 0 := by
  unfold boxBlock at h
  split at h <;> simp_all

/-- The contract of `unsafe trait Storage`: what `new` stores is what the
accessors point to, and `drop_in_place` gives back what `new` has taken. -/
class LawfulStorage (S : Type) [Storage S] where
  /-- "Storage must have been constructed with `T`." -/
  Constructed : RustType → S → Prop
  /-- The heap pointer of a storage that does not hold its value in place. -/
  boxed : S → Option Addr
  /-- Offset of the in-place bytes. -/
  inPlace : ℕ
  ptr_eq (s : S) (here : Addr) : Storage.ptr s here = (boxed s).getD (here + inPlace)
  ptrMut_eq (s : S) (here : Addr) : Storage.ptrMut s here = Storage.ptr s here
  asRef_eq {T : RustType} {s : S} (h : Constructed T s) (here : Addr) :
    Storage.asRef T s here = .ok (Storage.ptr s here)
  asMut_eq {T : RustType} {s : S} (h : Constructed T s) (here : Addr) :
    Storage.asMut T s here = .ok (Storage.ptr s here)
  asPinnedMut_eq {T : RustType} {s : S} (h : Constructed T s) (here : Addr) :
    Storage.asPinnedMut T s here = .ok (Storage.ptr s here)
  fits {T : RustType} {s : S} (h : Constructed T s) (hb : boxed s = none) :
    inPlace + T.size ≤ (Storage.layout S).size
  new_ok {T : RustType} {data : Value T} {here answer : Addr} {w w' : World} {s : S}
    (h : Storage.new data here answer w = .ok (s, w')) :
    Constructed T s ∧
      (∀ b ∈ (boxed s).bind (boxBlock T), b.addr = answer ∧ w.mem.Fresh b.addr b.layout) ∧
      w' = (w.acquire ((boxed s).bind (boxBlock T))).put (Storage.ptr s here) data
  new_error {T : RustType} {data : Value T} {here answer : Addr} {w : World} {e : Fault}
    (h : Storage.new (S := S) data here answer w = .error e) : ¬ e.Undefined
  dropInPlace_eq {T : RustType} {s : S} (h : Constructed T s) (w : World) :
    Storage.dropInPlace s T.layout w = w.release ((boxed s).bind (boxBlock T))

namespace LawfulStorage
variable {S : Type} [Storage S] [LawfulStorage S] {T : RustType} {s : S}

/-- The heap block that a storage constructed with `T` owns. -/
def ownedBlock (T : RustType) (s : S) : Option Block := (boxed s).bind (boxBlock T)

theorem ownedBlock_layout {b : Block} (h : b ∈ ownedBlock T s) :
    b.layout = T.layout ∧ T.size ≠ 0 ∧ boxed s = some b.addr := by
  obtain ⟨p, hp, hb⟩ := Option.bind_eq_some_iff.mp h
  obtain ⟨rfl, hn⟩ := boxBlock_layout hb
  exact ⟨rfl, hn, hp⟩

theorem ownedBlock_size {b : Block} (h : b ∈ ownedBlock T s) : b.layout.size ≠ 0 := by
  obtain ⟨hl, hn, -⟩ := ownedBlock_layout h
  rwa [hl]

theorem ownedBlock_of_boxed {p : Addr} (hp : boxed s = some p) (hn : T.size ≠ 0) :
    ownedBlock T s = some ⟨p, T.layout⟩ := by
  simp [ownedBlock, hp, boxBlock, hn]

/-- A value is found unchanged at the new address of its storage after the bytes
around the storage have moved, wherever it is kept. -/
theorem load_ptr_moveBytes (h : Constructed T s) (w : World) {src dst off n : ℕ}
    (hn : off + (Storage.layout S).size ≤ n)
    (hapart : ∀ b ∈ ownedBlock T s, b.Apart dst n) :
    (w.moveBytes src dst n).read T (Storage.ptr s (dst + off)) =
      w.read T (Storage.ptr s (src + off)) := by
  simp only [World.read, World.mem_moveBytes, ptr_eq]
  cases hb : boxed s with
  | none =>
    have hf := fits h hb
    simp only [Option.getD_none, Nat.add_assoc]
    exact Memory.load_copy_inside (by omega)
  | some p =>
    simp only [Option.getD_some]
    by_cases hz : T.size = 0
    · funext i
      exact absurd i.isLt (by omega)
    · exact Memory.load_copy_apart (apart_comm (hapart _ (ownedBlock_of_boxed hb hz)))

end LawfulStorage

open LawfulStorage

/-- `from_box` keeps the box, or moves the value into place and frees the box. -/
class LawfulFromBox (S : Type) [FromBox S] [LawfulStorage S] where
  fromBox_ok {T : RustType} {b : StdBox T} {here : Addr} {w w' : World} {s : S}
    (h : FromBox.fromBox b here w = .ok (s, w')) : Constructed T s ∧
      (boxed s = some b.ptr ∧ w' = w ∨
        boxed s = none ∧ ∃ w₁, (w.record (.unboxed T b.ptr)).release (boxBlock T b.ptr) = .ok w₁ ∧
          w' = w₁.put (Storage.ptr s here) (w.read T b.ptr))
  fromBox_isOk {T : RustType} {b : StdBox T} {here : Addr} {w : World}
    (h : ∀ c ∈ boxBlock T b.ptr, c ∈ w.mem.blocks) :
    ∃ s w', FromBox.fromBox (S := S) b here w = .ok (s, w')

end DynUtils
