import Mathlib.Data.List.Pairwise
import Mathlib.Tactic.Common

/-! A flat address space of cells, with a heap of live blocks allocated in it. -/
namespace FlatMemory

/-- Size and alignment of a place, or of the block allocated for it. -/
structure Layout where
  size : ℕ
  align : ℕ
deriving DecidableEq

/-- A live allocation. -/
structure Block where
  addr : ℕ
  layout : Layout
deriving DecidableEq

structure Memory (α : Type) where
  cells : ℕ → α
  blocks : List Block

/-- The ranges `[p, p + n)` and `[q, q + m)` share no address. -/
def Apart (p n q m : ℕ) : Prop := n = 0 ∨ m = 0 ∨ p + n ≤ q ∨ q + m ≤ p

instance (p n q m : ℕ) : Decidable (Apart p n q m) := by unfold Apart; infer_instance

/-- The range of a block is apart from `[p, p + n)`. -/
def Block.Apart (b : Block) (p n : ℕ) : Prop := FlatMemory.Apart b.addr b.layout.size p n

instance (b : Block) (p n : ℕ) : Decidable (b.Apart p n) := by unfold Block.Apart; infer_instance

theorem apart_comm {p n q m : ℕ} (h : Apart p n q m) : Apart q m p n := by
  unfold Apart at *
  omega

/-- A range inside another one inherits its separation. -/
theorem Apart.mono {p n q m p' n' : ℕ} (h : Apart p n q m) (hp : p ≤ p')
    (hn : p' + n' ≤ p + n) : Apart p' n' q m := by
  unfold Apart at *
  omega

/-- Distinct non-empty ranges that are apart start at distinct addresses. -/
theorem Apart.ne {p n q m : ℕ} (h : Apart p n q m) (hn : n ≠ 0) (hm : m ≠ 0) : p ≠ q := by
  unfold Apart at h
  omega

namespace Memory
variable {α : Type} {m : Memory α} {p q n k : ℕ}

def load (m : Memory α) (p n : ℕ) : Fin n → α := fun i => m.cells (p + i)

def store (m : Memory α) (p : ℕ) (v : Fin n → α) : Memory α :=
  { m with
    cells := fun a => if h : p ≤ a ∧ a < p + n then v ⟨a - p, by omega⟩ else m.cells a }

/-- Copies `n` cells; the two ranges may overlap, as in `memmove`. -/
def copy (m : Memory α) (src dst n : ℕ) : Memory α := m.store dst (m.load src n)

/-- What an allocator promises of the address it answers with. -/
def Fresh (m : Memory α) (p : ℕ) (l : Layout) : Prop :=
  l.align ∣ p ∧ ∀ b ∈ m.blocks, b.Apart p l.size

instance (m : Memory α) (p : ℕ) (l : Layout) : Decidable (m.Fresh p l) := by
  unfold Fresh; infer_instance

def alloc (m : Memory α) (b : Block) : Memory α := { m with blocks := b :: m.blocks }

def dealloc (m : Memory α) (b : Block) : Memory α := { m with blocks := m.blocks.erase b }

@[simp] theorem blocks_store (v : Fin n → α) : (m.store p v).blocks = m.blocks := rfl
@[simp] theorem blocks_copy : (m.copy p q n).blocks = m.blocks := rfl
@[simp] theorem load_dealloc (b : Block) : (m.dealloc b).load p n = m.load p n := rfl
@[simp] theorem blocks_alloc (b : Block) : (m.alloc b).blocks = b :: m.blocks := rfl
@[simp] theorem blocks_dealloc (b : Block) : (m.dealloc b).blocks = m.blocks.erase b := rfl

@[simp] theorem load_store_self (v : Fin n → α) : (m.store p v).load p n = v := by
  funext i
  have hi : p ≤ p + (i : ℕ) ∧ p + (i : ℕ) < p + n := by omega
  simp [load, store, hi]

/-- Storing what is there changes nothing. -/
theorem store_load_self (m : Memory α) (p n : ℕ) : m.store p (m.load p n) = m := by
  have hcells : (m.store p (m.load p n)).cells = m.cells := by
    funext a
    simp only [store, load]
    split
    · congr 1
      omega
    · rfl
  obtain ⟨cells, blocks⟩ := m
  simpa [store] using hcells

/-- A store leaves every range apart from its own as it was. -/
theorem load_store_apart (v : Fin n → α) (h : Apart p n q k) :
    (m.store p v).load q k = m.load q k := by
  funext i
  have hi : ¬ (p ≤ q + (i : ℕ) ∧ q + (i : ℕ) < p + n) := by
    unfold Apart at h
    omega
  simp [load, store, hi]

/-- A range inside the copied one is found at the same offset of the destination. -/
theorem load_copy_inside {src dst off : ℕ} (h : off + k ≤ n) :
    (m.copy src dst n).load (dst + off) k = m.load (src + off) k := by
  funext i
  have hi : dst ≤ dst + off + (i : ℕ) ∧ dst + off + (i : ℕ) < dst + n := by omega
  simp only [copy, load, store, hi, and_self, ↓reduceDIte]
  congr 1
  omega

theorem load_copy_apart {src dst : ℕ} (h : Apart dst n q k) :
    (m.copy src dst n).load q k = m.load q k := load_store_apart _ h

/-- The live blocks are non-empty and pairwise apart. -/
structure Wf (m : Memory α) : Prop where
  pairwise : m.blocks.Pairwise fun b c => b.Apart c.addr c.layout.size
  nonempty : ∀ b ∈ m.blocks, b.layout.size ≠ 0

theorem wf_alloc {b : Block} (h : m.Wf) (hb : m.Fresh b.addr b.layout)
    (hn : b.layout.size ≠ 0) : (m.alloc b).Wf := by
  constructor
  · refine List.Pairwise.cons ?_ h.pairwise
    intro c hc
    exact apart_comm (hb.2 c hc)
  · intro c hc
    rcases List.mem_cons.mp hc with rfl | hc
    · exact hn
    · exact h.nonempty c hc

theorem wf_dealloc {b : Block} (h : m.Wf) : (m.dealloc b).Wf :=
  ⟨h.pairwise.sublist List.erase_sublist, fun c hc => h.nonempty c (List.mem_of_mem_erase hc)⟩

theorem wf_of_blocks_eq {m' : Memory α} (h : m.Wf) (he : m'.blocks = m.blocks) : m'.Wf :=
  ⟨by rw [he]; exact h.pairwise, by rw [he]; exact h.nonempty⟩

theorem Wf.nodup (h : m.Wf) : m.blocks.Nodup := by
  refine List.Pairwise.imp_of_mem ?_ h.pairwise
  intro b c hb hc hbc he
  subst he
  exact hbc.ne (h.nonempty b hb) (h.nonempty b hb) rfl

theorem Wf.apart_of_ne (h : m.Wf) {b c : Block} (hb : b ∈ m.blocks) (hc : c ∈ m.blocks)
    (hne : b ≠ c) : b.Apart c.addr c.layout.size := by
  have : Std.Symm fun b c : Block => b.Apart c.addr c.layout.size := ⟨fun _ _ h => apart_comm h⟩
  exact h.pairwise.forall hb hc hne

theorem mem_dealloc (h : m.Wf) {b c : Block} :
    c ∈ (m.dealloc b).blocks ↔ c ≠ b ∧ c ∈ m.blocks := h.nodup.mem_erase_iff

/-- An address answered by the allocator is none of the live blocks'. -/
theorem Fresh.not_mem {l : Layout} (h : m.Fresh p l) (hw : m.Wf) (hl : l.size ≠ 0)
    {b : Block} (hb : b ∈ m.blocks) : b.addr ≠ p :=
  (h.2 b hb).ne (hw.nonempty b hb) hl

end Memory

end FlatMemory
