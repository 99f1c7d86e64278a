import DynUtils.Contract

/-! `Raw`, `Box` and `RawOrBox` meet the contract of `Storage`. -/
namespace DynUtils

open FlatMemory Machine

theorem World.acquire_boxBlock {T : RustType} {w w' : World} {p : Addr}
    (h : w.alloc p T.layout = .ok w') (hn : T.size ≠ 0) :
    (∀ b ∈ boxBlock T p, b.addr = p ∧ w.mem.Fresh b.addr b.layout) ∧
      w' = w.acquire (boxBlock T p) := by
  obtain ⟨hf, rfl⟩ := World.alloc_ok.mp h
  simp [boxBlock, hn, hf]

namespace StdBox
variable {T : RustType} {data : Value T} {answer : Addr} {w w' : World} {b : StdBox T}

/-- A new box owns a fresh block with the value in it, or dangles. -/
theorem new_ok (h : StdBox.new data answer w = .ok (b, w')) :
    (∀ c ∈ boxBlock T b.ptr, c.addr = answer ∧ w.mem.Fresh c.addr c.layout) ∧
      w' = (w.acquire (boxBlock T b.ptr)).put b.ptr data := by
  unfold StdBox.new at h
  split at h
  · rename_i hz
    obtain ⟨rfl, rfl⟩ := Prod.mk.inj (Except.ok.inj h)
    simp [boxBlock, hz, World.acquire]
  · rename_i hn
    obtain ⟨w₁, ha, hr⟩ := bind_ok.mp h
    obtain ⟨rfl, rfl⟩ := Prod.mk.inj (pure_ok.mp hr)
    obtain ⟨hf, rfl⟩ := World.acquire_boxBlock ha hn
    exact ⟨hf, rfl⟩

theorem new_error {e : Fault} (h : StdBox.new data answer w = .error e) : e = .notFresh := by
  unfold StdBox.new at h
  split at h
  · cases h
  · rcases bind_error.mp h with ha | ⟨_, _, hr⟩
    · exact World.alloc_error ha
    · exact (pure_ne_error hr).elim

/-- An allocator that answers gives a box. -/
theorem new_isOk (data : Value T) (h : w.mem.Fresh answer T.layout) :
    ∃ b w', StdBox.new data answer w = .ok (b, w') := by
  unfold StdBox.new
  split
  · exact ⟨_, _, rfl⟩
  · simp [World.alloc, h, bind, Except.bind, pure, Except.pure]

/-- The box is the same over any heap in which the allocator may give this answer. -/
theorem new_mono {v : World} (hv : w.mem.Fresh answer T.layout → v.mem.Fresh answer T.layout)
    (h : StdBox.new data answer w = .ok (b, w')) : ∃ v', StdBox.new data answer v = .ok (b, v') := by
  unfold StdBox.new at h ⊢
  split at h
  · rename_i hz
    obtain ⟨rfl, -⟩ := Prod.mk.inj (Except.ok.inj h)
    exact ⟨_, if_pos hz⟩
  · rename_i hz
    obtain ⟨w₁, ha, hr⟩ := bind_ok.mp h
    obtain ⟨rfl, -⟩ := Prod.mk.inj (pure_ok.mp hr)
    have ha' := World.alloc_ok.mpr ⟨hv (World.alloc_ok.mp ha).1, rfl⟩
    exact ⟨_, (if_neg hz).trans (bind_ok.mpr ⟨_, ha', rfl⟩)⟩

/-- Moving the value out of a box gives the block of the box back. -/
theorem intoInner_ok {v : Value T} (h : b.intoInner w = .ok (v, w')) :
    v = w.read T b.ptr ∧ (w.record (.unboxed T b.ptr)).release (boxBlock T b.ptr) = .ok w' := by
  unfold StdBox.intoInner at h
  unfold boxBlock
  split at h
  · rename_i hz
    obtain ⟨rfl, rfl⟩ := Prod.mk.inj (Except.ok.inj h)
    simp [hz, World.release]
  · rename_i hn
    obtain ⟨w₁, hd, hr⟩ := bind_ok.mp h
    obtain ⟨rfl, rfl⟩ := Prod.mk.inj (pure_ok.mp hr)
    simpa [hn, World.release] using hd

theorem intoInner_isOk (h : ∀ c ∈ boxBlock T b.ptr, c ∈ w.mem.blocks) :
    ∃ v w', b.intoInner w = .ok (v, w') := by
  unfold StdBox.intoInner
  unfold boxBlock at h
  split
  · exact ⟨_, _, rfl⟩
  · rename_i hn
    have hb : (⟨b.ptr, T.layout⟩ : Block) ∈ w.mem.blocks := h _ (by simp [hn])
    simp [World.dealloc, hb, bind, Except.bind, pure, Except.pure]

end StdBox

namespace Raw
variable {SIZE ALIGN : ℕ} {T : RustType}

theorem canStore_iff : canStore SIZE ALIGN T = true ↔ T.size ≤ SIZE ∧ T.align ≤ ALIGN := by
  simp [canStore]

/-- What fits into `SIZE` bytes fits into the padded struct. -/
theorem size_le_layout (h : canStore SIZE ALIGN T = true) : T.size ≤ (layout SIZE ALIGN).size := by
  obtain ⟨hs, ha⟩ := canStore_iff.mp h
  have hpos : 0 < ALIGN := Nat.lt_of_lt_of_le T.align_pos ha
  have hdiv := Nat.div_add_mod (SIZE + ALIGN - 1) ALIGN
  have hmod := Nat.mod_lt (SIZE + ALIGN - 1) hpos
  have hcomm := Nat.mul_comm ALIGN ((SIZE + ALIGN - 1) / ALIGN)
  simp only [layout]
  omega

theorem new_ok {data : Value T} {here : Addr} {w w' : World} {s : Raw SIZE ALIGN}
    (h : Raw.new data here w = .ok (s, w')) :
    canStore SIZE ALIGN T = true ∧ w' = w.put here data := by
  unfold Raw.new at h
  split at h
  · rename_i hc
    exact ⟨hc, (Prod.mk.inj (Except.ok.inj h)).2.symm⟩
  · cases h

theorem new_error {data : Value T} {here : Addr} {w : World} {e : Fault}
    (h : (Raw.new data here w : Except Fault (Raw SIZE ALIGN × World)) = .error e) :
    e = .doesNotFit := by
  unfold Raw.new at h
  split at h <;> simp_all

instance : LawfulStorage (Raw SIZE ALIGN) where
  Constructed T _ := canStore SIZE ALIGN T = true
  boxed _ := none
  inPlace := 0
  ptr_eq _ _ := rfl
  ptrMut_eq _ _ := rfl
  asRef_eq _ _ := rfl
  asMut_eq _ _ := rfl
  asPinnedMut_eq _ _ := rfl
  fits h _ := by simpa [Storage.layout] using size_le_layout h
  new_ok h := by
    obtain ⟨hc, rfl⟩ := new_ok h
    exact ⟨hc, by simp, rfl⟩
  new_error h := by
    rw [new_error h]
    decide
  dropInPlace_eq _ _ := rfl

end Raw

namespace Box
variable {T : RustType}

theorem new_ok {data : Value T} {answer : Addr} {w w' : World} {s : Box}
    (h : Box.new data answer w = .ok (s, w')) :
    (∀ b ∈ boxBlock T s.ptr, b.addr = answer ∧ w.mem.Fresh b.addr b.layout) ∧
      w' = (w.acquire (boxBlock T s.ptr)).put s.ptr data := by
  obtain ⟨⟨b, w₁⟩, hb, hr⟩ := bind_ok.mp h
  obtain ⟨rfl, rfl⟩ := Prod.mk.inj (pure_ok.mp hr)
  exact StdBox.new_ok hb

theorem new_error {data : Value T} {answer : Addr} {w : World} {e : Fault}
    (h : Box.new data answer w = .error e) : e = .notFresh := by
  rcases bind_error.mp h with hb | ⟨_, _, hr⟩
  · exact StdBox.new_error hb
  · exact (pure_ne_error hr).elim

theorem new_isOk (data : Value T) {answer : Addr} {w : World} (h : w.mem.Fresh answer T.layout) :
    ∃ s w', Box.new data answer w = .ok (s, w') := by
  obtain ⟨b, w', hb⟩ := StdBox.new_isOk data h
  exact ⟨_, _, bind_ok.mpr ⟨_, hb, rfl⟩⟩

theorem new_mono {data : Value T} {answer : Addr} {v w w' : World} {s : Box}
    (hv : w.mem.Fresh answer T.layout → v.mem.Fresh answer T.layout)
    (h : Box.new data answer w = .ok (s, w')) : ∃ v', Box.new data answer v = .ok (s, v') := by
  obtain ⟨⟨b, w₁⟩, hb, hr⟩ := bind_ok.mp h
  obtain ⟨rfl, -⟩ := Prod.mk.inj (pure_ok.mp hr)
  obtain ⟨v', hb'⟩ := StdBox.new_mono hv hb
  exact ⟨v', bind_ok.mpr ⟨_, hb', rfl⟩⟩

theorem dropInPlace_eq (s : Box) (w : World) :
    s.dropInPlace T.layout w = w.release (boxBlock T s.ptr) := by
  unfold Box.dropInPlace boxBlock
  by_cases hz : T.size = 0 <;> simp [hz, World.release]

instance : LawfulStorage Box where
  Constructed _ _ := True
  boxed s := some s.ptr
  inPlace := 0
  ptr_eq _ _ := rfl
  ptrMut_eq _ _ := rfl
  asRef_eq _ _ := rfl
  asMut_eq _ _ := rfl
  asPinnedMut_eq _ _ := rfl
  fits _ h := by cases h
  new_ok h := ⟨trivial, new_ok h⟩
  new_error h := by
    rw [new_error h]
    decide
  dropInPlace_eq {_ s} _ w := dropInPlace_eq s w

instance : LawfulFromBox Box where
  fromBox_ok h := by
    obtain ⟨rfl, rfl⟩ := Prod.mk.inj (Except.ok.inj h)
    exact ⟨trivial, Or.inl ⟨rfl, rfl⟩⟩
  fromBox_isOk _ := ⟨_, _, rfl⟩

end Box

namespace RawOrBox
variable [FieldOffsets] {alloc : Bool} {SIZE ALIGN : ℕ} {T : RustType}

def isRaw (self : RawOrBox alloc SIZE ALIGN) : Bool :=
  match self.inner with
  | .raw _ => true
  | .box _ _ => false

/-- The tag is what the accessors `as_ref` and `as_mut` derive from the type. -/
def Coherent (T : RustType) (self : RawOrBox alloc SIZE ALIGN) : Prop :=
  self.isRaw = Raw.canStore SIZE ALIGN T

def boxed (self : RawOrBox alloc SIZE ALIGN) : Option Addr :=
  match self.inner with
  | .raw _ => none
  | .box _ b => some b.ptr

theorem ptr_eq (s : RawOrBox alloc SIZE ALIGN) (here : Addr) :
    s.ptr here = s.boxed.getD (payload SIZE ALIGN here) := by
  obtain ⟨_ | _⟩ := s <;> rfl

theorem ptrMut_eq (s : RawOrBox alloc SIZE ALIGN) (here : Addr) : s.ptrMut here = s.ptr here := by
  obtain ⟨_ | _⟩ := s <;> rfl

theorem asRef_eq {s : RawOrBox alloc SIZE ALIGN} (h : s.Coherent T) (here : Addr) :
    s.asRef T here = .ok (s.ptr here) := by
  obtain ⟨_ | _⟩ := s <;> simp only [Coherent, isRaw] at h <;> simp [asRef, ptr, ← h] <;> rfl

theorem asMut_eq {s : RawOrBox alloc SIZE ALIGN} (h : s.Coherent T) (here : Addr) :
    s.asMut T here = .ok (s.ptr here) := by
  obtain ⟨_ | _⟩ := s <;> simp only [Coherent, isRaw] at h <;> simp [asMut, ptr, ← h] <;> rfl

/-- The three ways to the tag: the assertion of `Raw::new`, the test of `new`, and
the absence of the feature `alloc`. -/
theorem newRaw_ok {data : Value T} {here : Addr} {w w' : World} {s : RawOrBox alloc SIZE ALIGN}
    (h : newRaw data here w = .ok (s, w')) : s.Coherent T ∧ s.boxed = none ∧
      w' = w.put (s.ptr here) data := by
  obtain ⟨⟨r, w₁⟩, hr, hs⟩ := bind_ok.mp h
  obtain ⟨rfl, rfl⟩ := Prod.mk.inj (pure_ok.mp hs)
  obtain ⟨hc, rfl⟩ := Raw.new_ok hr
  exact ⟨hc.symm, rfl, rfl⟩

theorem new_ok {data : Value T} {here answer : Addr} {w w' : World}
    {s : RawOrBox alloc SIZE ALIGN} (h : new data here answer w = .ok (s, w')) :
    s.Coherent T ∧
      (∀ b ∈ s.boxed.bind (boxBlock T), b.addr = answer ∧ w.mem.Fresh b.addr b.layout) ∧
      w' = (w.acquire (s.boxed.bind (boxBlock T))).put (s.ptr here) data := by
  unfold new at h
  split at h
  · split at h
    · rename_i hc
      obtain ⟨rfl, rfl⟩ := Prod.mk.inj (Except.ok.inj h)
      exact ⟨hc.symm, by simp [boxed], rfl⟩
    · rename_i hc
      obtain ⟨⟨b, w₁⟩, hb, hs⟩ := bind_ok.mp h
      obtain ⟨rfl, rfl⟩ := Prod.mk.inj (pure_ok.mp hs)
      refine ⟨?_, Box.new_ok hb⟩
      simpa [Coherent, isRaw] using hc
  · have hr : newRaw data here w = .ok (s, w') := h
    obtain ⟨hc, hb, rfl⟩ := newRaw_ok hr
    refine ⟨hc, by simp [hb], ?_⟩
    simp [hb, World.acquire]

theorem new_error {data : Value T} {here answer : Addr} {w : World} {e : Fault}
    (h : (new data here answer w : Except Fault (RawOrBox alloc SIZE ALIGN × World)) = .error e) :
    e = .notFresh ∨ e = .doesNotFit := by
  unfold new at h
  split at h
  · split at h
    · cases h
    · rcases bind_error.mp h with hb | ⟨_, _, hs⟩
      · exact Or.inl (Box.new_error hb)
      · exact (pure_ne_error hs).elim
  · rcases bind_error.mp h with hr | ⟨_, _, hs⟩
    · exact Or.inr (Raw.new_error hr)
    · exact (pure_ne_error hs).elim

theorem new_of_canStore {data : Value T} {here answer : Addr} {w : World}
    (h : Raw.canStore SIZE ALIGN T = true) :
    (new data here answer w : Except Fault (RawOrBox true SIZE ALIGN × World)) =
      .ok (⟨.raw ⟨⟩⟩, w.put (payload SIZE ALIGN here) data) := by
  simp [new, h, Raw.newUnchecked]

omit [FieldOffsets] in
theorem dropInPlace_eq (s : RawOrBox alloc SIZE ALIGN) (w : World) :
    s.dropInPlace T.layout w = w.release (s.boxed.bind (boxBlock T)) := by
  obtain ⟨_ | ⟨_, b⟩⟩ := s
  · rfl
  · exact Box.dropInPlace_eq b w

instance : LawfulStorage (RawOrBox alloc SIZE ALIGN) where
  Constructed T s := s.Coherent T
  boxed := boxed
  inPlace := FieldOffsets.raw SIZE ALIGN
  ptr_eq := ptr_eq
  ptrMut_eq := ptrMut_eq
  asRef_eq := asRef_eq
  asMut_eq := asMut_eq
  asPinnedMut_eq := asMut_eq
  fits {T s} h hb := by
    obtain ⟨_ | _⟩ := s
    · have hsize : T.size ≤ (Raw.layout SIZE ALIGN).size := Raw.size_le_layout h.symm
      simp only [Storage.layout]
      omega
    · cases hb
  new_ok := new_ok
  new_error h hu := by
    rcases new_error h with rfl | rfl <;> simp [Fault.Undefined] at hu
  dropInPlace_eq {_ s} _ w := dropInPlace_eq s w

instance : LawfulFromBox (RawOrBox true SIZE ALIGN) where
  fromBox_ok {T b here w w' s} h := by
    simp only [FromBox.fromBox, fromBox] at h
    split at h
    · rename_i hc
      obtain ⟨⟨v, w₁⟩, hi, hn⟩ := bind_ok.mp h
      obtain ⟨rfl, hr⟩ := StdBox.intoInner_ok hi
      obtain ⟨hs, -, rfl⟩ := new_ok hn
      have hb : s.boxed = none := by
        obtain ⟨_ | _⟩ := s
        · rfl
        · simp_all [Coherent, isRaw]
      refine ⟨hs, Or.inr ⟨hb, w₁, hr, ?_⟩⟩
      simp [hb, World.acquire, Storage.ptr]
    · rename_i hc
      obtain ⟨rfl, rfl⟩ := Prod.mk.inj (Except.ok.inj h)
      exact ⟨(Bool.eq_false_iff.mpr hc).symm, Or.inl ⟨rfl, rfl⟩⟩
  fromBox_isOk {T b here w} h := by
    simp only [FromBox.fromBox, fromBox]
    split
    · rename_i hc
      obtain ⟨v, w', hi⟩ := StdBox.intoInner_isOk h
      exact ⟨_, _, bind_ok.mpr ⟨_, hi, new_of_canStore hc⟩⟩
    · exact ⟨_, _, rfl⟩

end RawOrBox

end DynUtils
