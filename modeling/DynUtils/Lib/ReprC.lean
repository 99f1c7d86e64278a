import DynUtils.Lib.Memory
import Mathlib.Algebra.Group.Nat.Defs

/-! The layout of a `repr(C)` struct: the fields in their order, each at the next offset that
is aligned for it, and padding after the last one. -/
namespace ReprC

open FlatMemory

def paddingNeededFor (offset align : ℕ) : ℕ :=
  if offset % align > 0 then align - offset % align else 0

/-- The next offset that is a multiple of the alignment. -/
def alignUp (offset align : ℕ) : ℕ := offset + paddingNeededFor offset align

/-- The offsets of fields that follow what ends at `offset`. -/
def offsetsFrom : ℕ → List Layout → List ℕ
  | _, [] => []
  | offset, f :: fs => alignUp offset f.align :: offsetsFrom (alignUp offset f.align + f.size) fs

/-- Where the last of these fields ends. -/
def endFrom : ℕ → List Layout → ℕ
  | offset, [] => offset
  | offset, f :: fs => endFrom (alignUp offset f.align + f.size) fs

def offsets (fields : List Layout) : List ℕ := offsetsFrom 0 fields

/-- The alignment of a struct is the largest one of its fields. -/
def align : List Layout → ℕ
  | [] => 1
  | f :: fs => max f.align (align fs)

def layout (fields : List Layout) : Layout :=
  ⟨alignUp (endFrom 0 fields) (align fields), align fields⟩

variable {offset a : ℕ} {f : Layout} {fields : List Layout}

theorem le_alignUp (offset a : ℕ) : offset ≤ alignUp offset a := Nat.le_add_right _ _

theorem dvd_alignUp (ha : 0 < a) : a ∣ alignUp offset a := by
  have hlt := Nat.mod_lt offset ha
  have hdiv := Nat.div_add_mod offset a
  unfold alignUp paddingNeededFor
  split
  · refine ⟨offset / a + 1, ?_⟩
    rw [Nat.mul_add, Nat.mul_one]
    omega
  · rw [Nat.add_zero]
    exact Nat.dvd_of_mod_eq_zero (by omega)

theorem alignUp_of_dvd (h : a ∣ offset) : alignUp offset a = offset := by
  simp [alignUp, paddingNeededFor, Nat.mod_eq_zero_of_dvd h]

/-- The usual way to round up. -/
theorem alignUp_eq (ha : 0 < a) : alignUp offset a = (offset + a - 1) / a * a := by
  obtain ⟨q, hq⟩ : a ∣ alignUp offset a := dvd_alignUp ha
  have hlt : alignUp offset a < offset + a := by
    have := Nat.mod_lt offset ha
    unfold alignUp paddingNeededFor
    split <;> omega
  have hle := le_alignUp offset a
  have hdiv : (offset + a - 1) / a = q := by
    rw [Nat.div_eq_iff ha]
    rw [hq] at hlt hle
    constructor <;> rw [Nat.mul_comm] <;> omega
  rw [hq, hdiv, Nat.mul_comm]

theorem le_endFrom (offset : ℕ) (fields : List Layout) : offset ≤ endFrom offset fields := by
  induction fields generalizing offset with
  | nil => exact Nat.le_refl _
  | cons f fs ih =>
    have hle := le_alignUp offset f.align
    have := ih (alignUp offset f.align + f.size)
    simp only [endFrom]
    omega

/-- Each field lies, aligned, between what is before the fields and where the last one ends. -/
theorem mem_offsetsFrom (h : ∀ f ∈ fields, 0 < f.align) {o : ℕ}
    (hf : (f, o) ∈ fields.zip (offsetsFrom offset fields)) :
    f.align ∣ o ∧ offset ≤ o ∧ o + f.size ≤ endFrom offset fields := by
  induction fields generalizing offset with
  | nil => cases hf
  | cons g gs ih =>
    obtain ⟨hg, hgs⟩ := List.forall_mem_cons.mp h
    simp only [offsetsFrom, List.zip_cons_cons, List.mem_cons] at hf
    rcases hf with hf | hf
    · obtain ⟨rfl, rfl⟩ := Prod.mk.inj hf
      exact ⟨dvd_alignUp hg, le_alignUp _ _, le_endFrom _ _⟩
    · obtain ⟨hdvd, hle, hend⟩ := ih hgs hf
      have := le_alignUp offset g.align
      exact ⟨hdvd, by omega, hend⟩

/-- The larger one of two powers of two is a multiple of both. -/
theorem dvd_max {m n : ℕ} (hm : ∃ i, m = 2 ^ i) (hn : ∃ j, n = 2 ^ j) :
    m ∣ max m n ∧ n ∣ max m n := by
  obtain ⟨i, rfl⟩ := hm
  obtain ⟨j, rfl⟩ := hn
  rcases Nat.le_total i j with h | h
  · have hle : 2 ^ i ≤ 2 ^ j := Nat.pow_le_pow_right Nat.two_pos h
    rw [Nat.max_eq_right hle]
    exact ⟨Nat.pow_dvd_pow 2 h, Nat.dvd_refl _⟩
  · have hle : 2 ^ j ≤ 2 ^ i := Nat.pow_le_pow_right Nat.two_pos h
    rw [Nat.max_eq_left hle]
    exact ⟨Nat.dvd_refl _, Nat.pow_dvd_pow 2 h⟩

theorem align_pow (h : ∀ f ∈ fields, ∃ i, f.align = 2 ^ i) : ∃ k, align fields = 2 ^ k := by
  induction fields with
  | nil => exact ⟨0, rfl⟩
  | cons f fs ih =>
    obtain ⟨hf, hfs⟩ := List.forall_mem_cons.mp h
    rw [align]
    rcases Nat.le_total f.align (align fs) with hle | hle
    · rw [Nat.max_eq_right hle]
      exact ih hfs
    · rw [Nat.max_eq_left hle]
      exact hf

/-- A place that is aligned for the struct is aligned for its fields. -/
theorem align_dvd (h : ∀ f ∈ fields, ∃ i, f.align = 2 ^ i) :
    ∀ f ∈ fields, f.align ∣ align fields := by
  induction fields with
  | nil => simp
  | cons f fs ih =>
    obtain ⟨hf, hfs⟩ := List.forall_mem_cons.mp h
    obtain ⟨hl, hr⟩ := dvd_max hf (align_pow hfs)
    exact List.forall_mem_cons.mpr ⟨hl, fun g hg => Nat.dvd_trans (ih hfs g hg) hr⟩

/-- A field of a struct at an aligned address is aligned and inside of it. -/
theorem field_fits (h : ∀ f ∈ fields, ∃ i, f.align = 2 ^ i) {o addr : ℕ}
    (ha : (layout fields).align ∣ addr) (hf : (f, o) ∈ fields.zip (offsets fields)) :
    f.align ∣ addr + o ∧ o + f.size ≤ (layout fields).size := by
  have hpos : ∀ f ∈ fields, 0 < f.align := by
    intro f hm
    obtain ⟨i, hi⟩ := h f hm
    exact hi ▸ Nat.two_pow_pos i
  obtain ⟨hdvd, -, hend⟩ := mem_offsetsFrom hpos hf
  have hmem : f ∈ fields := (List.of_mem_zip hf).1
  exact ⟨Nat.dvd_add (Nat.dvd_trans (align_dvd h f hmem) ha) hdvd,
    Nat.le_trans hend (le_alignUp _ _)⟩

end ReprC
