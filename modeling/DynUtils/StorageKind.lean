import DynUtils.Lawful
import DynUtils.ObjectSpec

/-! The three storages as one family, for states that hold objects of several. -/
namespace DynUtils

open FlatMemory Machine LawfulStorage

/-- A storage type `S` with its parameters; `alloc` is the crate feature. -/
inductive StorageKind
  | raw (SIZE ALIGN : ℕ)
  | box
  | rawOrBox (alloc : Bool) (SIZE ALIGN : ℕ)
deriving DecidableEq

namespace StorageKind

abbrev Carrier : StorageKind → Type
  | raw SIZE ALIGN => Raw SIZE ALIGN
  | box => Box
  | rawOrBox alloc SIZE ALIGN => RawOrBox alloc SIZE ALIGN

variable [FieldOffsets]

instance : (k : StorageKind) → Storage k.Carrier
  | raw SIZE ALIGN => inferInstanceAs (Storage (Raw SIZE ALIGN))
  | box => inferInstanceAs (Storage Box)
  | rawOrBox alloc SIZE ALIGN => inferInstanceAs (Storage (RawOrBox alloc SIZE ALIGN))

instance : (k : StorageKind) → LawfulStorage k.Carrier
  | raw SIZE ALIGN => inferInstanceAs (LawfulStorage (Raw SIZE ALIGN))
  | box => inferInstanceAs (LawfulStorage Box)
  | rawOrBox alloc SIZE ALIGN => inferInstanceAs (LawfulStorage (RawOrBox alloc SIZE ALIGN))

/-- `DynObject::from_box`, which asks for `S: FromBox`. -/
def fromBox {T : RustType} (D : DynTrait) (boxed : StdBox T) (here : Addr) (w : World) :
    (k : StorageKind) → Except Fault (DynObject k.Carrier × World)
  | box => DynObject.fromBox (S := Box) D boxed here w
  | rawOrBox true SIZE ALIGN => DynObject.fromBox (S := RawOrBox true SIZE ALIGN) D boxed here w
  | rawOrBox false _ _ | raw _ _ => .error .notAvailable

/-- `S::new` of a `T` passes the constant assertion of `Raw::new`, if it gets there. -/
def Fits : StorageKind → RustType → Prop
  | raw SIZE ALIGN, T | rawOrBox false SIZE ALIGN, T => Raw.canStore SIZE ALIGN T = true
  | box, _ | rawOrBox true _ _, _ => True

/-- `S: FromBox` -/
def HasFromBox : StorageKind → Prop
  | box | rawOrBox true _ _ => True
  | raw _ _ | rawOrBox false _ _ => False

variable {k : StorageKind} {D : DynTrait} {T : RustType} {b : StdBox T} {here : Addr}
  {w w' : World} {o : DynObject k.Carrier}

/-- A program that builds gets its object from an allocator that answers. -/
theorem new_isOk (hf : k.Fits T) (v : Value T) {answer : Addr} (ha : w.mem.Fresh answer T.layout)
    (D : DynTrait) (here : Addr) :
    ∃ (o : DynObject k.Carrier) (w' : World), DynObject.new D v here answer w = .ok (o, w') := by
  have hnew : ∃ (s : k.Carrier) (w' : World), Storage.new v (DynObject.storageAt k.Carrier here)
      answer w = .ok (s, w') := by
    match k, hf with
    | raw SIZE ALIGN, hf => exact ⟨_, _, if_pos hf⟩
    | box, _ => exact Box.new_isOk v ha
    | rawOrBox true SIZE ALIGN, _ =>
      by_cases hc : Raw.canStore SIZE ALIGN T = true
      · exact ⟨_, _, RawOrBox.new_of_canStore hc⟩
      · obtain ⟨s, w', hs⟩ := Box.new_isOk v ha
        exact ⟨_, _, (if_neg hc).trans (bind_ok.mpr ⟨_, hs, rfl⟩)⟩
    | rawOrBox false SIZE ALIGN, hf => exact ⟨_, _, bind_ok.mpr ⟨_, if_pos hf, rfl⟩⟩
  obtain ⟨s, w', hs⟩ := hnew
  exact ⟨_, _, bind_ok.mpr ⟨_, hs, rfl⟩⟩

/-- An object is the same over any heap in which the allocator may give this answer. -/
theorem new_mono {v : Value T} {answer : Addr} {w₂ : World}
    (hw : w.mem.Fresh answer T.layout → w₂.mem.Fresh answer T.layout)
    (h : DynObject.new D v here answer w = .ok (o, w')) :
    ∃ w₂', DynObject.new D v here answer w₂ = .ok (o, w₂') := by
  obtain ⟨⟨s, w₁⟩, hs, hr⟩ := bind_ok.mp h
  obtain ⟨rfl, -⟩ := Prod.mk.inj (pure_ok.mp hr)
  have hnew : ∃ w₂', Storage.new v (DynObject.storageAt k.Carrier here) answer w₂ = .ok (s, w₂') := by
    match k with
    | raw SIZE ALIGN => exact ⟨_, if_pos (Raw.new_ok hs).1⟩
    | box => exact Box.new_mono hw hs
    | rawOrBox true SIZE ALIGN =>
      by_cases hc : Raw.canStore SIZE ALIGN T = true
      · obtain ⟨rfl, -⟩ := Prod.mk.inj (Except.ok.inj ((RawOrBox.new_of_canStore hc).symm.trans hs))
        exact ⟨_, RawOrBox.new_of_canStore hc⟩
      · obtain ⟨⟨b, w₁'⟩, hb, hr⟩ := bind_ok.mp ((if_neg hc).symm.trans hs)
        obtain ⟨rfl, -⟩ := Prod.mk.inj (pure_ok.mp hr)
        obtain ⟨w₂', hb'⟩ := Box.new_mono hw hb
        exact ⟨w₂', (if_neg hc).trans (bind_ok.mpr ⟨_, hb', rfl⟩)⟩
    | rawOrBox false SIZE ALIGN =>
      obtain ⟨⟨r, w₁'⟩, hraw, hs⟩ := bind_ok.mp hs
      obtain ⟨rfl, -⟩ := Prod.mk.inj (pure_ok.mp hs)
      exact ⟨_, bind_ok.mpr ⟨_, if_pos (Raw.new_ok hraw).1, rfl⟩⟩
  obtain ⟨w₂', hs'⟩ := hnew
  exact ⟨w₂', bind_ok.mpr ⟨_, hs', rfl⟩⟩

/-- So is one that takes a box over, if the heap has its block. -/
theorem fromBox_mono {w₂ : World} (hlive : ∀ c ∈ boxBlock T b.ptr, c ∈ w₂.mem.blocks)
    (h : fromBox D b here w k = .ok (o, w')) : ∃ w₂', fromBox D b here w₂ k = .ok (o, w₂') := by
  match k with
  | raw _ _ | rawOrBox false _ _ => cases h
  | box =>
    obtain ⟨⟨s, w₁⟩, hs, hr⟩ := bind_ok.mp h
    obtain ⟨rfl, -⟩ := Prod.mk.inj (Except.ok.inj hs)
    obtain ⟨rfl, -⟩ := Prod.mk.inj (pure_ok.mp hr)
    exact ⟨_, rfl⟩
  | rawOrBox true SIZE ALIGN =>
    obtain ⟨⟨s, w₁⟩, hs, hr⟩ := bind_ok.mp h
    obtain ⟨rfl, -⟩ := Prod.mk.inj (pure_ok.mp hr)
    by_cases hc : Raw.canStore SIZE ALIGN T = true
    · obtain ⟨⟨u, w₁'⟩, -, hn⟩ := bind_ok.mp ((if_pos hc).symm.trans hs)
      obtain ⟨rfl, -⟩ := Prod.mk.inj (Except.ok.inj ((RawOrBox.new_of_canStore hc).symm.trans hn))
      obtain ⟨u', w₂', hi⟩ := StdBox.intoInner_isOk hlive
      have hs' : @RawOrBox.fromBox _ SIZE ALIGN _ b
          (DynObject.storageAt (RawOrBox true SIZE ALIGN) here) w₂ = .ok (⟨.raw ⟨⟩⟩, _) :=
        (if_pos hc).trans (bind_ok.mpr ⟨_, hi, RawOrBox.new_of_canStore hc⟩)
      exact ⟨_, bind_ok.mpr ⟨_, hs', rfl⟩⟩
    · obtain ⟨rfl, -⟩ := Prod.mk.inj (Except.ok.inj ((if_neg hc).symm.trans hs))
      exact ⟨_, bind_ok.mpr ⟨_, if_neg hc, rfl⟩⟩

theorem fromBox_isOk (hk : k.HasFromBox) (D : DynTrait)
    (hlive : ∀ c ∈ boxBlock T b.ptr, c ∈ w.mem.blocks) (here : Addr) :
    ∃ o w', fromBox D b here w k = .ok (o, w') := by
  match k, hk with
  | box, _ => exact DynObject.fromBox_isOk (S := Box) D hlive here
  | rawOrBox true SIZE ALIGN, _ =>
    exact DynObject.fromBox_isOk (S := RawOrBox true SIZE ALIGN) D hlive here

theorem fromBox_ok (h : fromBox D b here w k = .ok (o, w')) :
    o.BuiltFor D T ∧
      (boxed o.storage = some b.ptr ∧ w' = w ∨
        boxed o.storage = none ∧
          ∃ w₁, (w.record (.unboxed T b.ptr)).release (boxBlock T b.ptr) = .ok w₁ ∧
            w' = w₁.put (o.place here) (w.read T b.ptr)) := by
  match k with
  | raw _ _ => cases h
  | box =>
    obtain ⟨hb, hw⟩ := DynObject.fromBox_ok (S := Box) h
    exact ⟨⟨hb.constructed, hb.vtable_eq⟩, hw⟩
  | rawOrBox true SIZE ALIGN =>
    obtain ⟨hb, hw⟩ := DynObject.fromBox_ok (S := RawOrBox true SIZE ALIGN) h
    exact ⟨⟨hb.constructed, hb.vtable_eq⟩, hw⟩
  | rawOrBox false _ _ => cases h

theorem fromBox_error (hlive : ∀ c ∈ boxBlock T b.ptr, c ∈ w.mem.blocks) {e : Fault}
    (h : fromBox D b here w k = .error e) : ¬ e.Undefined := by
  match k with
  | raw _ _ =>
    cases h
    decide
  | box =>
    obtain ⟨o, w', hok⟩ := DynObject.fromBox_isOk (S := Box) D hlive here
    cases hok.symm.trans h
  | rawOrBox true SIZE ALIGN =>
    obtain ⟨o, w', hok⟩ := DynObject.fromBox_isOk (S := RawOrBox true SIZE ALIGN) D hlive here
    cases hok.symm.trans h
  | rawOrBox false _ _ =>
    cases h
    decide

end StorageKind

end DynUtils
