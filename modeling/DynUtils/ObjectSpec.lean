import DynUtils.Contract

/-! What each operation of a `DynObject` does, over any storage that meets its contract. -/
namespace DynUtils.DynObject

open FlatMemory Machine LawfulStorage

variable [FieldOffsets] {S : Type} [Storage S] [LawfulStorage S]
  {D : DynTrait} {T U : RustType} {o : DynObject S} {here : Addr} {w w' : World}

/-- Storage and vtable speak of one type: the storage was constructed with `T`
and the vtable is that of `T`. -/
structure BuiltFor (D : DynTrait) (T : RustType) (o : DynObject S) : Prop where
  constructed : Constructed T o.storage
  vtable_eq : o.vtable = D.vtable T

/-- Where the object keeps its value. -/
def place (o : DynObject S) (here : Addr) : Addr := Storage.ptr o.storage (storageAt S here)

/-- The heap block of the object. -/
def block (T : RustType) (o : DynObject S) : Option Block := ownedBlock T o.storage

/-- How the life of a value of type `T` ends in place. -/
def endEvent (T : RustType) (p : Addr) : Event :=
  if T.needsDrop then .destructor T p else .lapsed p

theorem new_ok {v : Value T} {answer : Addr} (h : new D v here answer w = .ok (o, w')) :
    BuiltFor D T o ∧ (∀ b ∈ o.block T, b.addr = answer ∧ w.mem.Fresh b.addr b.layout) ∧
      w' = (w.acquire (o.block T)).put (o.place here) v := by
  obtain ⟨⟨s, w₁⟩, hs, hr⟩ := bind_ok.mp h
  obtain ⟨rfl, rfl⟩ := Prod.mk.inj (pure_ok.mp hr)
  obtain ⟨hc, hf, rfl⟩ := LawfulStorage.new_ok hs
  exact ⟨⟨hc, rfl⟩, hf, rfl⟩

theorem new_error {v : Value T} {answer : Addr} {e : Fault}
    (h : new (S := S) D v here answer w = .error e) : ¬ e.Undefined := by
  rcases bind_error.mp h with hs | ⟨_, _, hr⟩
  · exact LawfulStorage.new_error hs
  · exact (pure_ne_error hr).elim

/-- `drop` of an object built for `T` runs the destructor of `T`, if it has one,
where the value is, and releases the storage unless the destructor unwinds. -/
theorem drop_eq (h : o.BuiltFor D T) (d : Outcome) :
    o.drop here d w =
      if T.needsDrop ∧ d = .unwinds then .ok (.unwinds, w.record (.destructor T (o.place here)))
      else (w.record (endEvent T (o.place here))).release (o.block T) >>= fun w' =>
        .ok (.returns, w') := by
  have hd := fun w' => LawfulStorage.dropInPlace_eq h.constructed w'
  simp only [drop, h.vtable_eq, DynTrait.vtable_dropInPlace, DynTrait.vtable_layout,
    DynTrait.dropInPlaceFn, LawfulStorage.ptrMut_eq]
  by_cases hn : T.needsDrop
  · cases d
    · simp [hn, hd, endEvent, place, block, ownedBlock]
      rfl
    · simp [hn, place]
  · simp [hn, hd, endEvent, place, block, ownedBlock]
    rfl

/-- How `drop` ends when the destructor of the value, if any, ends with `d`. -/
def dropOutcome (T : RustType) (d : Outcome) : Outcome :=
  if T.needsDrop ∧ d = .unwinds then .unwinds else .returns

/-- The world that `drop` leaves. -/
def afterDrop (T : RustType) (o : DynObject S) (here : Addr) (d : Outcome) (w : World) : World :=
  match dropOutcome T d with
  | .unwinds => w.record (.destructor T (o.place here))
  | .returns => (w.record (endEvent T (o.place here))).released (o.block T)

theorem drop_live (h : o.BuiltFor D T) (hlive : ∀ b ∈ o.block T, b ∈ w.mem.blocks)
    (d : Outcome) : o.drop here d w = .ok (dropOutcome T d, o.afterDrop T here d w) := by
  rw [drop_eq h]
  unfold afterDrop dropOutcome
  split
  · rfl
  · rw [World.release_of_live (w := w.record _) hlive]
    rfl

omit [FieldOffsets] in
@[simp] theorem dropOutcome_returns : dropOutcome T .returns = .returns := by
  simp [dropOutcome]

theorem afterDrop_returns : o.afterDrop T here .returns w =
    (w.record (endEvent T (o.place here))).released (o.block T) := by
  simp [afterDrop]

theorem project_eq (h : o.BuiltFor D T) (r : VtableReceiver) :
    o.project here T r = .ok (o.place here) := by
  cases r
  · exact asRef_eq h.constructed _
  · exact asMut_eq h.constructed _
  · exact asPinnedMut_eq h.constructed _

/-- A trait method reaches the value itself, whatever the receiver of the method. -/
theorem call_eq {R : Type} (h : o.BuiltFor D T) (name : String)
    (body : (T : RustType) → Value T → R × Value T) :
    o.call here name body w =
      if (D.receiver name).isSome then
        let p := o.place here
        .ok ((body T (w.read T p)).1, (w.record (.accessed T p)).write p (body T (w.read T p)).2)
      else .error .notAvailable := by
  simp only [call, h.vtable_eq, DynTrait.vtable]
  cases D.receiver name with
  | none => rfl
  | some r =>
    simp only [Option.map_some, project_eq h]
    rfl

omit [FieldOffsets] in
theorem is_iff (h : o.BuiltFor .any T) : o.is U = true ↔ U = T := by
  simp [is, h.vtable_eq, DynTrait.vtable, TypeId.of, eq_comm]

omit [FieldOffsets] in
theorem eq_of_is (h : o.BuiltFor D T) (hi : o.is U = true) : U = T := by
  apply DynTrait.vtable_typeId (D := D)
  simpa [is, h.vtable_eq, TypeId.of] using hi

theorem downcastRef_eq (h : o.BuiltFor D T) :
    o.downcastRef here U = .ok (if o.is U then some (o.place here) else none) := by
  unfold downcastRef
  split
  · rename_i hi
    obtain rfl := eq_of_is h hi
    rw [asRef_eq h.constructed]
    rfl
  · rfl

theorem downcastMut_eq (h : o.BuiltFor D T) :
    o.downcastMut here U = .ok (if o.is U then some (o.place here) else none) := by
  unfold downcastMut
  split
  · rename_i hi
    obtain rfl := eq_of_is h hi
    rw [asMut_eq h.constructed]
    rfl
  · rfl

/-- A downcast gives a reference to the type that is stored only. -/
theorem downcastRef_some (h : o.BuiltFor D T) {p : Option Addr}
    (hp : o.downcastRef here U = .ok p) (hne : p ≠ none) : U = T := by
  rw [downcastRef_eq h] at hp
  by_cases hi : o.is U = true
  · exact eq_of_is h hi
  · simp_all

theorem downcastMut_some (h : o.BuiltFor D T) {p : Option Addr}
    (hp : o.downcastMut here U = .ok p) (hne : p ≠ none) : U = T := by
  rw [downcastMut_eq h] at hp
  by_cases hi : o.is U = true
  · exact eq_of_is h hi
  · simp_all

omit [LawfulStorage S] in
/-- A failing downcast gives the object back and does nothing else. -/
theorem downcast_of_not_is (hi : o.is U = false) :
    o.downcast here U w = .ok (.inr o, w) := by
  simp [downcast, hi]

omit [LawfulStorage S] in
theorem downcast_inr {o' : DynObject S} (h : o.downcast here U w = .ok (.inr o', w')) : o' = o := by
  unfold downcast at h
  split at h
  · obtain ⟨_, -, h⟩ := bind_ok.mp h
    cases pure_ok.mp h
  · obtain ⟨hr, -⟩ := Prod.mk.inj (Except.ok.inj h)
    exact (Sum.inr.inj hr).symm

/-- A successful one reads the value out and releases the storage without `Drop`. -/
theorem downcast_of_is (h : o.BuiltFor D T) (hi : o.is T = true)
    (hlive : ∀ b ∈ o.block T, b ∈ w.mem.blocks) :
    o.downcast here T w = .ok (.inl (w.read T (o.place here)),
      (w.record (.movedOut T (o.place here))).released (o.block T)) := by
  simp only [downcast, hi, ↓reduceIte, LawfulStorage.ptrMut_eq,
    LawfulStorage.dropInPlace_eq h.constructed]
  change World.release _ (o.block T) >>= _ = _
  rw [World.release_of_live (by simpa using hlive)]
  rfl

/-- The last step of `insert`: the object moves from `tmp` into the slot, and a
reference to its value is handed out unless the old value's destructor unwound. -/
def settle (T : RustType) (o : DynObject S) (here tmp : Addr) (outcome : Outcome) (w : World) :
    Option Addr × World :=
  let w := w.moveBytes tmp (someAt S here) (size S)
  let p := o.place (someAt S here)
  match outcome with
  | .unwinds => (none, w)
  | .returns => (some p, w.record (.accessed T p))

/-- The value that the new object was built with is found in the slot. -/
theorem read_settle {tmp : Addr} {outcome : Outcome} (hb : o.BuiltFor D T)
    (hapart : ∀ b ∈ o.block T, b.Apart (someAt S here) (size S)) :
    (o.settle T here tmp outcome w).2.read T (o.place (someAt S here)) = w.read T (o.place tmp) := by
  have hread : (w.moveBytes tmp (someAt S here) (size S)).read T (o.place (someAt S here)) =
      w.read T (o.place tmp) :=
    load_ptr_moveBytes hb.constructed w (Nat.le_refl (size S)) hapart
  cases outcome with
  | unwinds => exact hread
  | returns => exact hread

theorem insert_ok {this : Option (DynObject S)} {v : Value T} {tmp answer : Addr} {d : Outcome}
    {p : Option Addr} (h : insert D this v here tmp answer d w = .ok (p, o, w')) :
    BuiltFor D T o ∧ (∀ b ∈ o.block T, b.addr = answer ∧ w.mem.Fresh b.addr b.layout) ∧
      ∃ outcome w₂, dropSlot this here d ((w.acquire (o.block T)).put (o.place tmp) v) =
        .ok (outcome, w₂) ∧ (p, w') = o.settle T here tmp outcome w₂ := by
  obtain ⟨⟨value, w₁⟩, hn, h⟩ := bind_ok.mp h
  obtain ⟨⟨outcome, w₂⟩, hd, h⟩ := bind_ok.mp h
  obtain ⟨hb, hf, rfl⟩ := new_ok hn
  cases outcome with
  | unwinds =>
    obtain ⟨rfl, rfl, rfl⟩ := by simpa using h
    exact ⟨hb, hf, _, _, hd, rfl⟩
  | returns =>
    obtain ⟨q, hq, h⟩ := bind_ok.mp h
    obtain ⟨rfl, rfl, rfl⟩ := by simpa using pure_ok.mp h
    rw [asMut_eq hb.constructed] at hq
    obtain rfl := Except.ok.inj hq
    exact ⟨hb, hf, _, _, hd, rfl⟩

omit [LawfulStorage S] in
/-- The object that an insertion puts into the slot is built first. -/
theorem new_of_insert {this : Option (DynObject S)} {v : Value T} {tmp answer : Addr} {d : Outcome}
    {p : Option Addr} (h : insert D this v here tmp answer d w = .ok (p, o, w')) :
    ∃ w₁, new D v tmp answer w = .ok (o, w₁) := by
  obtain ⟨⟨value, w₁⟩, hn, h⟩ := bind_ok.mp h
  obtain ⟨⟨outcome, w₂⟩, -, h⟩ := bind_ok.mp h
  cases outcome with
  | unwinds =>
    obtain ⟨-, rfl, -⟩ := by simpa using h
    exact ⟨w₁, hn⟩
  | returns =>
    obtain ⟨q, -, h⟩ := bind_ok.mp h
    obtain ⟨-, rfl, -⟩ := by simpa using pure_ok.mp h
    exact ⟨w₁, hn⟩

/-- An insertion succeeds when the new object can be built and the old one dropped. -/
theorem insert_isOk {this : Option (DynObject S)} {v : Value T} {tmp answer : Addr} {d outcome : Outcome}
    {w₁ w₂ : World} (hn : new D v tmp answer w = .ok (o, w₁))
    (hd : dropSlot this here d w₁ = .ok (outcome, w₂)) :
    ∃ p w', insert D this v here tmp answer d w = .ok (p, o, w') := by
  cases outcome with
  | unwinds => exact ⟨_, _, bind_ok.mpr ⟨_, hn, bind_ok.mpr ⟨_, hd, rfl⟩⟩⟩
  | returns =>
    have hp := asMut_eq (new_ok hn).1.constructed (storageAt S (someAt S here))
    exact ⟨_, _, bind_ok.mpr ⟨_, hn, bind_ok.mpr ⟨_, hd, bind_ok.mpr ⟨_, hp, rfl⟩⟩⟩⟩

omit [FieldOffsets] in
/-- The old object is not touched while the new one is built. -/
theorem live_acquire_put {b : Option Block} {c : Option Block} {q : Addr} {v : Value T}
    (h : ∀ x ∈ c, x ∈ w.mem.blocks) : ∀ x ∈ c, x ∈ ((w.acquire b).put q v).mem.blocks := by
  intro x hx
  simp only [World.mem_put, Memory.blocks_store, World.blocks_acquire]
  exact List.mem_append_right _ (h x hx)

theorem insert_error {this : Option (DynObject S)} {v : Value T} {tmp answer : Addr}
    {d : Outcome} {e : Fault}
    (hold : ∀ old ∈ this, ∃ D' T', old.BuiltFor D' T' ∧ ∀ b ∈ old.block T', b ∈ w.mem.blocks)
    (h : insert D this v here tmp answer d w = .error e) : ¬ e.Undefined := by
  rcases bind_error.mp h with hn | ⟨⟨value, w₁⟩, hn, h⟩
  · exact new_error hn
  obtain ⟨hb, -, rfl⟩ := new_ok hn
  rcases bind_error.mp h with he | ⟨⟨outcome, w₂⟩, -, h⟩
  · cases this with
    | none => cases he
    | some old =>
      obtain ⟨D', T', ho, hlive⟩ := hold old rfl
      rw [dropSlot, drop_live ho (live_acquire_put hlive)] at he
      cases he
  · cases outcome with
    | unwinds => cases h
    | returns =>
      rcases bind_error.mp h with hq | ⟨_, _, h⟩
      · rw [asMut_eq hb.constructed] at hq
        cases hq
      · exact (pure_ne_error h).elim

section
variable {S : Type} [FromBox S] [LawfulStorage S] [LawfulFromBox S] {o : DynObject S}

/-- `from_box` takes over the block of the box, or gives it back after the value
has moved out of it. -/
theorem fromBox_ok {b : StdBox T} (h : fromBox D b here w = .ok (o, w')) :
    BuiltFor D T o ∧
      (boxed o.storage = some b.ptr ∧ w' = w ∨
        boxed o.storage = none ∧
          ∃ w₁, (w.record (.unboxed T b.ptr)).release (boxBlock T b.ptr) = .ok w₁ ∧
            w' = w₁.put (o.place here) (w.read T b.ptr)) := by
  obtain ⟨⟨s, w₁⟩, hs, hr⟩ := bind_ok.mp h
  obtain ⟨rfl, rfl⟩ := Prod.mk.inj (pure_ok.mp hr)
  obtain ⟨hc, hbox⟩ := LawfulFromBox.fromBox_ok hs
  exact ⟨⟨hc, rfl⟩, hbox⟩

theorem fromBox_isOk (D : DynTrait) {b : StdBox T} (h : ∀ c ∈ boxBlock T b.ptr, c ∈ w.mem.blocks)
    (here : Addr) : ∃ (o : DynObject S) (w' : World), fromBox D b here w = .ok (o, w') := by
  have hbox : ∃ s w', FromBox.fromBox (S := S) b (storageAt S here) w = .ok (s, w') :=
    LawfulFromBox.fromBox_isOk h
  obtain ⟨s, w', hs⟩ := hbox
  exact ⟨_, _, bind_ok.mpr ⟨_, hs, rfl⟩⟩

end

end DynUtils.DynObject
