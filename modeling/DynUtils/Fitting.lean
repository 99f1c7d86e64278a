import DynUtils.Lawful
import DynUtils.Lib.ReprC

/-! What is written in place lies in the field `data` of a `Raw`, aligned for its type. -/
namespace DynUtils.Fitting

open FlatMemory Machine

/-- `data`, `_align`, `_not_send_sync` and `_pinned`. -/
def fields (SIZE ALIGN : ℕ) : List Layout := [⟨SIZE, 1⟩, ⟨0, ALIGN⟩, ⟨0, 1⟩, ⟨0, 1⟩]

/-- Address of the field `data` of the `Raw` at `raw`. -/
def data (SIZE ALIGN : ℕ) (raw : Addr) : Addr := raw + (ReprC.offsets (fields SIZE ALIGN)).headD 0

/-- A `T` at `p` is aligned, and inside the field `data` of the `Raw` at `raw`. The bytes of
that field move with the `Raw`. -/
structure Fits (SIZE ALIGN : ℕ) (T : RustType) (raw p : Addr) : Prop where
  aligned : T.align ∣ p
  start : data SIZE ALIGN raw ≤ p
  finish : p + T.size ≤ data SIZE ALIGN raw + SIZE
  moves : data SIZE ALIGN raw + SIZE ≤ raw + (ReprC.layout (fields SIZE ALIGN)).size

/-- A call that puts a `T` into a `Raw`, and what it gives: the address of the `Raw` and the
pointers to what it stores, for each address of the storage. -/
inductive Writes [FieldOffsets] (SIZE ALIGN : ℕ) (T : RustType) (here : Addr) (w w' : World) :
    (raw ptr ptrMut : Addr → Addr) → Prop
  | raw {v : Value T} {s : Raw SIZE ALIGN} : Raw.new v here w = .ok (s, w') →
      Writes SIZE ALIGN T here w w' id (Storage.ptr s) (Storage.ptrMut s)
  | newRaw {v : Value T} {alloc : Bool} {s : RawOrBox alloc SIZE ALIGN} :
      RawOrBox.newRaw v here w = .ok (s, w') →
      Writes SIZE ALIGN T here w w' (RawOrBox.payload SIZE ALIGN) (Storage.ptr s) (Storage.ptrMut s)
  | new {v : Value T} {alloc : Bool} {answer : Addr} {s : RawOrBox alloc SIZE ALIGN} :
      RawOrBox.new v here answer w = .ok (s, w') → s.isRaw = true →
      Writes SIZE ALIGN T here w w' (RawOrBox.payload SIZE ALIGN) (Storage.ptr s) (Storage.ptrMut s)
  | fromBox {b : StdBox T} {s : RawOrBox true SIZE ALIGN} :
      RawOrBox.fromBox b here w = .ok (s, w') → s.isRaw = true →
      Writes SIZE ALIGN T here w w' (RawOrBox.payload SIZE ALIGN) (Storage.ptr s) (Storage.ptrMut s)

variable {SIZE ALIGN : ℕ} {T : RustType} {here : Addr} {w w' : World}

theorem fields_pow (h : ∃ k, ALIGN = 2 ^ k) : ∀ f ∈ fields SIZE ALIGN, ∃ i, f.align = 2 ^ i := by
  simpa [fields] using ⟨⟨0, rfl⟩, h, 0, rfl⟩

/-- `data` is the first field, and its alignment is 1. -/
theorem data_eq (SIZE ALIGN : ℕ) (raw : Addr) : data SIZE ALIGN raw = raw := by
  simp [data, fields, ReprC.offsets, ReprC.offsetsFrom, ReprC.alignUp_of_dvd]

/-- The layout that the compiler computes from the fields. -/
theorem layout_eq (h : 0 < ALIGN) : Raw.layout SIZE ALIGN = ReprC.layout (fields SIZE ALIGN) := by
  have halign : ReprC.align (fields SIZE ALIGN) = ALIGN := by
    simp only [ReprC.align, fields]
    omega
  have hdvd : ALIGN ∣ ReprC.alignUp SIZE ALIGN := ReprC.dvd_alignUp h
  have hend : ReprC.endFrom 0 (fields SIZE ALIGN) = ReprC.alignUp SIZE ALIGN := by
    simp [fields, ReprC.endFrom, ReprC.alignUp_of_dvd]
  rw [ReprC.layout, halign, hend, ReprC.alignUp_of_dvd hdvd, ReprC.alignUp_eq h]
  rfl

/-- The first field lies inside the struct. -/
theorem data_inside (hA : ∃ k, ALIGN = 2 ^ k) {raw : Addr}
    (ha : (ReprC.layout (fields SIZE ALIGN)).align ∣ raw) :
    data SIZE ALIGN raw + SIZE ≤ raw + (ReprC.layout (fields SIZE ALIGN)).size := by
  have hmem : ((⟨SIZE, 1⟩ : Layout), (ReprC.offsets (fields SIZE ALIGN)).headD 0) ∈
      (fields SIZE ALIGN).zip (ReprC.offsets (fields SIZE ALIGN)) := List.mem_cons_self
  obtain ⟨-, hinside⟩ := ReprC.field_fits (fields_pow hA) ha hmem
  rw [data, Nat.add_assoc]
  exact Nat.add_le_add_left hinside raw

/-- Aligned by the field `_align`, what `can_store` lets through fits. -/
theorem fits_of_canStore (hA : ∃ k, ALIGN = 2 ^ k) (h : Raw.canStore SIZE ALIGN T = true)
    {raw : Addr} (ha : (ReprC.layout (fields SIZE ALIGN)).align ∣ raw) :
    Fits SIZE ALIGN T raw raw := by
  obtain ⟨hsize, halign⟩ := Raw.canStore_iff.mp h
  have hT : T.align ∣ ALIGN := by
    have := (ReprC.dvd_max T.align_pow hA).1
    rwa [Nat.max_eq_right halign] at this
  have hstruct : ALIGN ∣ (ReprC.layout (fields SIZE ALIGN)).align :=
    ReprC.align_dvd (fields_pow hA) ⟨0, ALIGN⟩ (by simp [fields])
  refine ⟨Nat.dvd_trans hT (Nat.dvd_trans hstruct ha), ?_, ?_, data_inside hA ha⟩
  · exact Nat.le_of_eq (data_eq SIZE ALIGN raw).symm
  · rw [data_eq]
    exact Nat.add_le_add_left hsize raw

variable [FieldOffsets]

/-- The payload of an enum that is aligned for `Raw` is aligned for it as well. -/
theorem dvd_payload (hA : 0 < ALIGN) {a : Addr}
    (ha : (ReprC.layout (fields SIZE ALIGN)).align ∣ a) :
    (ReprC.layout (fields SIZE ALIGN)).align ∣ RawOrBox.payload SIZE ALIGN a := by
  rw [← layout_eq hA] at ha ⊢
  exact Nat.dvd_add ha (FieldOffsets.raw_dvd SIZE ALIGN)

theorem ptr_of_isRaw {alloc : Bool} {s : RawOrBox alloc SIZE ALIGN} (h : s.isRaw = true) :
    Storage.ptr s = RawOrBox.payload SIZE ALIGN ∧
      Storage.ptrMut s = RawOrBox.payload SIZE ALIGN := by
  obtain ⟨_ | _⟩ := s
  · exact ⟨rfl, rfl⟩
  · cases h

/-- Every call tests `can_store` and writes where the pointers of its storage point. -/
theorem Writes.guarded {raw ptr ptrMut : Addr → Addr}
    (h : Writes SIZE ALIGN T here w w' raw ptr ptrMut) :
    Raw.canStore SIZE ALIGN T = true ∧ ptr = raw ∧ ptrMut = raw ∧
      ∃ (w₀ : World) (v : Value T), w' = w₀.put (raw here) v := by
  cases h with
  | raw h =>
    obtain ⟨hc, rfl⟩ := Raw.new_ok h
    exact ⟨hc, rfl, rfl, _, _, rfl⟩
  | newRaw h =>
    obtain ⟨hc, hb, rfl⟩ := RawOrBox.newRaw_ok h
    rename_i s
    obtain ⟨_ | _⟩ := s
    · exact ⟨hc.symm, rfl, rfl, _, _, rfl⟩
    · cases hb
  | new h hr =>
    obtain ⟨hc, -, rfl⟩ := RawOrBox.new_ok h
    obtain ⟨hp, hm⟩ := ptr_of_isRaw hr
    exact ⟨hc.symm.trans hr, hp, hm, _, _, by rw [← hp]; rfl⟩
  | fromBox h hr =>
    obtain ⟨hc, ⟨hb, -⟩ | ⟨-, w₁, -, rfl⟩⟩ :=
      LawfulFromBox.fromBox_ok (S := RawOrBox true SIZE ALIGN) h
    · rename_i s
      obtain ⟨_ | _⟩ := s
      · cases hb
      · cases hr
    · obtain ⟨hp, hm⟩ := ptr_of_isRaw hr
      exact ⟨(hc : _ = _).symm.trans hr, hp, hm, _, _, by rw [← hp]⟩

theorem Writes.dvd_raw (hA : 0 < ALIGN) {raw ptr ptrMut : Addr → Addr}
    (h : Writes SIZE ALIGN T here w w' raw ptr ptrMut) {a : Addr}
    (ha : (ReprC.layout (fields SIZE ALIGN)).align ∣ a) :
    (ReprC.layout (fields SIZE ALIGN)).align ∣ raw a := by
  cases h with
  | raw => exact ha
  | newRaw => exact dvd_payload hA ha
  | new => exact dvd_payload hA ha
  | fromBox => exact dvd_payload hA ha

/-- However a `T` got into a `Raw`: it passed the test, and wherever the storage is, its pointers
are aligned for `T` and what they point to lies in the field `data`. -/
theorem fits_of_writes (hA : ∃ k, ALIGN = 2 ^ k) {raw ptr ptrMut : Addr → Addr}
    (h : Writes SIZE ALIGN T here w w' raw ptr ptrMut) :
    Raw.canStore SIZE ALIGN T = true ∧ (∃ (w₀ : World) (v : Value T), w' = w₀.put (ptr here) v) ∧
      ∀ a, (ReprC.layout (fields SIZE ALIGN)).align ∣ a →
        Fits SIZE ALIGN T (raw a) (ptr a) ∧ Fits SIZE ALIGN T (raw a) (ptrMut a) := by
  obtain ⟨hc, rfl, rfl, hw⟩ := h.guarded
  have hpos : 0 < ALIGN := by
    obtain ⟨k, rfl⟩ := hA
    exact Nat.two_pow_pos k
  refine ⟨hc, hw, ?_⟩
  intro a ha
  have hfits := fits_of_canStore hA hc (h.dvd_raw hpos ha)
  exact ⟨hfits, hfits⟩

omit [FieldOffsets] in
/-- Eight bytes that are aligned to 8, in a `RawOrBox<12, 8>` that moves. -/
theorem fits_of_writes_droppable :
    letI : FieldOffsets := .tagFirst
    ∃ (s : RawOrBox true 12 8) (w : World), RawOrBox.newRaw (T := .droppable 0 3) (fun _ => some 7)
        64 .empty = .ok (s, w) ∧
      ReprC.layout (fields 12 8) = ⟨16, 8⟩ ∧
      Fits 12 8 (.droppable 0 3) 1032 (Storage.ptr s 1024) := by
  let _ : FieldOffsets := .tagFirst
  obtain ⟨s, w, h⟩ : ∃ (s : RawOrBox true 12 8) (w : World),
      RawOrBox.newRaw (T := .droppable 0 3) (fun _ => some 7) 64 .empty = .ok (s, w) := ⟨_, _, rfl⟩
  obtain ⟨-, -, hfits⟩ := fits_of_writes ⟨3, rfl⟩ (.newRaw h)
  exact ⟨s, w, h, rfl, (hfits 1024 (by decide)).1⟩

end DynUtils.Fitting
