import DynUtils.Lawful

/-! The variant of a `RawOrBox` and the type it was constructed with. -/
namespace DynUtils.RawOrBox

open FlatMemory Machine LawfulStorage

/-- The storage is moved from place to place. -/
def moves (n : ℕ) : World → Addr → List Addr → World × Addr
  | w, here, [] => (w, here)
  | w, here, dst :: rest => moves n (w.moveBytes here dst n) dst rest

theorem moves_blocks (n : ℕ) (w : World) (here : Addr) (as : List Addr) :
    (moves n w here as).1.mem.blocks = w.mem.blocks := by
  induction as generalizing w here with
  | nil => rfl
  | cons a as ih => exact ih _ a

variable [FieldOffsets] {alloc : Bool} {SIZE ALIGN : ℕ} {T : RustType}

/-- `s`, at `here`, is the outcome of constructing a `RawOrBox` that holds `v`.
A box that is handed over holds the value and owns its block. -/
inductive Built (v : Value T) (here : Addr) (w : World) :
    {alloc : Bool} → RawOrBox alloc SIZE ALIGN → World → Prop
  | new {alloc : Bool} {answer : Addr} {s : RawOrBox alloc SIZE ALIGN} {w' : World} :
      RawOrBox.new v here answer w = .ok (s, w') → Built v here w s w'
  | newRaw {alloc : Bool} {s : RawOrBox alloc SIZE ALIGN} {w' : World} :
      RawOrBox.newRaw v here w = .ok (s, w') → Built v here w s w'
  | fromBox {b : StdBox T} {s : RawOrBox true SIZE ALIGN} {w' : World} :
      (∀ c ∈ boxBlock T b.ptr, c ∈ w.mem.blocks) → w.read T b.ptr = v →
      RawOrBox.fromBox b here w = .ok (s, w') → Built v here w s w'

/-- Every construction leaves the value where the accessors look for it, with the
block that the storage owns, if any, alive. -/
theorem built_holds {v : Value T} {here : Addr} {w w' : World} {s : RawOrBox alloc SIZE ALIGN}
    (h : Built v here w s w') :
    Constructed T s ∧ w'.read T (Storage.ptr s here) = v ∧
      ∀ c ∈ ownedBlock T s, c ∈ w'.mem.blocks := by
  cases h with
  | new h =>
    obtain ⟨hc, -, rfl⟩ := LawfulStorage.new_ok (S := RawOrBox alloc SIZE ALIGN) h
    refine ⟨hc, World.read_put v, ?_⟩
    intro c hb
    simp only [World.mem_put, Memory.blocks_store, World.blocks_acquire]
    exact List.mem_append_left _ (Option.mem_toList.mpr hb)
  | newRaw h =>
    obtain ⟨hc, hb, rfl⟩ := newRaw_ok h
    refine ⟨hc, World.read_put v, ?_⟩
    intro c hc
    have hnone : ownedBlock T s = none := by simp [ownedBlock, LawfulStorage.boxed, hb]
    simp [hnone] at hc
  | fromBox hlive hv h =>
    obtain ⟨hc, ⟨hb, rfl⟩ | ⟨hb, w₁, -, rfl⟩⟩ :=
      LawfulFromBox.fromBox_ok (S := RawOrBox true SIZE ALIGN) h
    · refine ⟨hc, ?_, ?_⟩
      · simpa [LawfulStorage.ptr_eq, hb] using hv
      · intro c hm
        exact hlive c (by simpa [ownedBlock, hb] using hm)
    · refine ⟨hc, ?_, ?_⟩
      · rw [World.read_put, hv]
      · intro c hm
        simp [ownedBlock, hb] at hm

theorem moves_read {s : RawOrBox alloc SIZE ALIGN} (hs : Constructed T s) (w : World)
    (here : Addr) (as : List Addr)
    (h : ∀ a ∈ as, ∀ b ∈ ownedBlock T s,
      b.Apart a (Storage.layout (RawOrBox alloc SIZE ALIGN)).size) :
    let m := moves (Storage.layout (RawOrBox alloc SIZE ALIGN)).size w here as
    m.1.read T (Storage.ptr s m.2) = w.read T (Storage.ptr s here) := by
  induction as generalizing w here with
  | nil => rfl
  | cons a as ih =>
    let n := (Storage.layout (RawOrBox alloc SIZE ALIGN)).size
    have hstep : (w.moveBytes here a n).read T (Storage.ptr s (a + 0)) =
        w.read T (Storage.ptr s (here + 0)) :=
      load_ptr_moveBytes hs w (by omega) (h a List.mem_cons_self)
    exact (ih _ a fun b hb => h b (List.mem_cons_of_mem a hb)).trans hstep

/-- What `drop_in_place` with the layout of `T` does to the heap of `w`. -/
def heapAfterDrop (T : RustType) (s : RawOrBox alloc SIZE ALIGN) (here : Addr) (w : World) :
    List Block :=
  if s.isRaw = false ∧ T.size ≠ 0 then w.mem.blocks.erase ⟨Storage.ptr s here, T.layout⟩
  else w.mem.blocks

/-- However a `RawOrBox` was constructed to hold a `T`, and wherever it was moved
since: the tag is the one the accessors test for, all accessors agree on where the
value is, it is the value stored, and `drop_in_place` frees the box of a boxed
value that is not zero-sized, and nothing else. -/
theorem tag_coherent {v : Value T} {here : Addr} {w w' : World} {s : RawOrBox alloc SIZE ALIGN}
    (hbuilt : Built v here w s w') (as : List Addr)
    (hapart : ∀ a ∈ as, ∀ b ∈ ownedBlock T s,
      b.Apart a (Storage.layout (RawOrBox alloc SIZE ALIGN)).size) :
    let m := moves (Storage.layout (RawOrBox alloc SIZE ALIGN)).size w' here as
    (s.isRaw = true ↔ Raw.canStore SIZE ALIGN T = true) ∧
    Storage.asRef T s m.2 = .ok (Storage.ptr s m.2) ∧
    Storage.asMut T s m.2 = .ok (Storage.ptrMut s m.2) ∧
    Storage.asPinnedMut T s m.2 = .ok (Storage.ptrMut s m.2) ∧
    Storage.ptrMut s m.2 = Storage.ptr s m.2 ∧
    m.1.read T (Storage.ptr s m.2) = v ∧
    (s.isRaw = false ∧ T.size ≠ 0 → ⟨Storage.ptr s m.2, T.layout⟩ ∈ m.1.mem.blocks) ∧
    ∃ w'', Storage.dropInPlace s T.layout m.1 = .ok w'' ∧
      w''.mem.blocks = heapAfterDrop T s m.2 m.1 := by
  intro m
  obtain ⟨hc, hv, hlive⟩ := built_holds hbuilt
  have hread := moves_read hc w' here as hapart
  have hblocks : m.1.mem.blocks = w'.mem.blocks := moves_blocks _ w' here as
  have howned : ownedBlock T s =
      if s.isRaw = false ∧ T.size ≠ 0 then some ⟨Storage.ptr s m.2, T.layout⟩ else none := by
    obtain ⟨_ | _⟩ := s
    · simp [ownedBlock, LawfulStorage.boxed, RawOrBox.boxed, isRaw]
    · by_cases hz : T.size = 0 <;>
        simp [ownedBlock, LawfulStorage.boxed, RawOrBox.boxed, isRaw, boxBlock, hz, Storage.ptr,
          RawOrBox.ptr]
  have hdrop : Storage.dropInPlace s T.layout m.1 = m.1.release (ownedBlock T s) :=
    LawfulStorage.dropInPlace_eq hc m.1
  rw [World.release_of_live (fun c hm => hblocks ▸ hlive c hm)] at hdrop
  refine ⟨?_, asRef_eq hc m.2, ?_, ?_, ptrMut_eq s m.2, hread.trans hv, ?_, _, hdrop, ?_⟩
  · rw [show s.isRaw = Raw.canStore SIZE ALIGN T from hc]
  · rw [LawfulStorage.ptrMut_eq]
    exact LawfulStorage.asMut_eq hc m.2
  · rw [LawfulStorage.ptrMut_eq]
    exact LawfulStorage.asPinnedMut_eq hc m.2
  · intro hbox
    rw [hblocks]
    exact hlive _ (by rw [howned, if_pos hbox]; rfl)
  · rw [howned, heapAfterDrop]
    split <;> rfl

/-- The bytes 0 to 63 of the crate's own test. -/
def array64 : Value (.bytes 64) := fun i => some (UInt8.ofNat i.val)

omit [FieldOffsets] in
/-- They do not fit into `RawOrBox<8>`: they are boxed, and stay there while the
storage moves. -/
theorem tag_coherent_array64 :
    ∃ (s : RawOrBox true 8 8) (w : World),
      @RawOrBox.new .tagFirst true 8 8 _ array64 128 4096 .empty = .ok (s, w) ∧
      s.isRaw = Raw.canStore 8 8 (.bytes 64) ∧
      (moves 16 w 128 [256, 512]).1.read (.bytes 64) 4096 = array64 := by
  have h : ∃ w, @RawOrBox.new .tagFirst true 8 8 _ array64 128 4096 .empty =
      .ok (⟨.box rfl ⟨4096⟩⟩, w) := ⟨_, rfl⟩
  obtain ⟨w, h⟩ := h
  obtain ⟨htag, -, -, -, -, hv, -⟩ :=
    @tag_coherent .tagFirst true 8 8 _ _ _ _ _ _ (@Built.new .tagFirst _ _ _ _ _ _ _ _ _ _ h)
      [256, 512] (by decide)
  exact ⟨_, w, h, Bool.eq_iff_iff.mpr htag, hv⟩

end DynUtils.RawOrBox
