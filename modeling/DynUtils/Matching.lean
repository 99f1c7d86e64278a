import DynUtils.StorageKind
import Mathlib.Logic.Function.Basic

/-! Storage and vtable under the safe functions of the crate and of `core::mem`. -/
namespace DynUtils.Matching

open FlatMemory Machine LawfulStorage

/-- A storage on its own, and the type it was constructed with. -/
structure Stored (k : StorageKind) where
  storage : k.Carrier
  addr : Addr
  made : RustType

/-- An object, the type its storage was constructed with, and the type its vtable
was built for. -/
structure Object (k : StorageKind) where
  dyn : DynTrait
  obj : DynObject k.Carrier
  addr : Addr
  made : RustType
  built : RustType

/-- What is behind the `&mut S` of `storage_mut` becomes another storage. -/
def Object.setStorage {k : StorageKind} (o : Object k) (storage : k.Carrier) (made : RustType) :
    Object k :=
  { o with obj.storage := storage, made := made }

/-- Any number of objects and storages of one storage type. -/
structure State (k : StorageKind) where
  w : World
  objs : ℕ → Option (Object k)
  stores : ℕ → Option (Stored k)

namespace State
variable {k : StorageKind}

def empty : State k := ⟨.empty, fun _ => none, fun _ => none⟩

def setObj (s : State k) (x : ℕ) (o : Option (Object k)) (w : World) : State k :=
  { s with w := w, objs := Function.update s.objs x o }

def setStore (s : State k) (y : ℕ) (t : Option (Stored k)) (w : World) : State k :=
  { s with w := w, stores := Function.update s.stores y t }

end State

inductive Op
  | new (x : ℕ) (D : DynTrait) (T : RustType) (v : Value T) (here answer : Addr)
  /-- `DynObject::from_box(Box::new(v))` -/
  | fromBox (x : ℕ) (D : DynTrait) (T : RustType) (v : Value T) (here answer : Addr)
  | insert (x : ℕ) (D : DynTrait) (T : RustType) (v : Value T) (here tmp answer : Addr)
    (destructor : Outcome)
  | storage (x : ℕ)
  | call (x : ℕ) (name : String) (body : (T : RustType) → Value T → Outcome × Value T)
  | downcastRef (x : ℕ) (U : RustType)
  | downcastMut (x : ℕ) (U : RustType) (v : Value U)
  | downcast (x : ℕ) (U : RustType)
  | move (x : ℕ) (dst : Addr)
  | drop (x : ℕ) (destructor : Outcome)
  /-- `Storage::new` -/
  | storageNew (y : ℕ) (T : RustType) (v : Value T) (here answer : Addr)
  /-- `RawOrBox::new_raw` -/
  | newRaw (y : ℕ) (T : RustType) (v : Value T) (here : Addr)
  /-- `*x.storage_mut() = y` -/
  | assign (x y : ℕ)
  /-- `let z = mem::replace(x.storage_mut(), y)`, with `z` at `here` -/
  | replace (x y z : ℕ) (here : Addr)
  /-- `mem::swap(x.storage_mut(), z.storage_mut())` -/
  | swap (x z : ℕ) (tmp : Addr)
  /-- `mem::swap(x.storage_mut(), &mut y)` -/
  | swapStorage (x y : ℕ) (tmp : Addr)

variable [FieldOffsets] {k : StorageKind}

/-- `RawOrBox::new_raw`, which the other storages do not have. -/
def newRaw {T : RustType} (data : Value T) (here : Addr) (w : World) :
    (k : StorageKind) → Except Fault (k.Carrier × World)
  | .rawOrBox _ _ _ => RawOrBox.newRaw data here w
  | .raw _ _ | .box => .error .notAvailable

def State.obj (s : State k) (x : ℕ) : Except Fault (Object k) :=
  match s.objs x with
  | some o => .ok o
  | none => .error .notAvailable

def State.store (s : State k) (y : ℕ) : Except Fault (Stored k) :=
  match s.stores y with
  | some t => .ok t
  | none => .error .notAvailable

/-- The address of the storage of an object. -/
def Object.storageAt (o : Object k) : Addr := DynObject.storageAt k.Carrier o.addr

/-- The bytes of two storages change places. -/
def swapBytes (k : StorageKind) (p q tmp : Addr) (w : World) : World :=
  let n := (Storage.layout k.Carrier).size
  ((w.moveBytes p tmp n).moveBytes q p n).moveBytes tmp q n

/-- One operation of a safe program. A storage has no `Drop`: one that is
overwritten or forgotten leaks what it owns. -/
def step (s : State k) : Op → Except Fault (Unit × State k)
  | .new x D T v here answer => do
    let (o, w) ← DynObject.new D v here answer s.w
    return ((), s.setObj x (some ⟨D, o, here, T, T⟩) w)
  | .fromBox x D T v here answer => do
    let (b, w) ← StdBox.new v answer s.w
    let (o, w) ← k.fromBox D b here w
    return ((), s.setObj x (some ⟨D, o, here, T, T⟩) w)
  | .insert x D T v here tmp answer destructor => do
    let D := ((s.objs x).map (·.dyn)).getD D
    let (_, o, w) ← DynObject.insert D ((s.objs x).map (·.obj)) v here tmp answer destructor s.w
    return ((), s.setObj x (some ⟨D, o, DynObject.someAt k.Carrier here, T, T⟩) w)
  | .storage x => do
    let _ ← s.obj x
    return ((), s)
  | .call x name body => do
    let o ← s.obj x
    let (_, w) ← o.obj.call o.addr name body s.w
    return ((), { s with w := w })
  | .downcastRef x U => do
    let o ← s.obj x
    let _ ← o.obj.downcastRef o.addr U
    return ((), s)
  | .downcastMut x U v => do
    let o ← s.obj x
    let p ← o.obj.downcastMut o.addr U
    return ((), { s with w := (p.map (s.w.write · v)).getD s.w })
  | .downcast x U => do
    let o ← s.obj x
    let (res, w) ← o.obj.downcast o.addr U s.w
    return ((), s.setObj x (match res with
      | .inl _ => none
      | .inr obj => some { o with obj := obj }) w)
  | .move x dst => do
    let o ← s.obj x
    return ((), s.setObj x (some { o with addr := dst })
      (s.w.moveBytes o.addr dst (DynObject.size k.Carrier)))
  | .drop x destructor => do
    let o ← s.obj x
    let (_, w) ← o.obj.drop o.addr destructor s.w
    return ((), s.setObj x none w)
  | .storageNew y T v here answer => do
    let (t, w) ← Storage.new v here answer s.w
    return ((), s.setStore y (some ⟨t, here, T⟩) w)
  | .newRaw y T v here => do
    let (t, w) ← newRaw v here s.w k
    return ((), s.setStore y (some ⟨t, here, T⟩) w)
  | .assign x y => do
    let o ← s.obj x
    let t ← s.store y
    let w := s.w.moveBytes t.addr o.storageAt (Storage.layout k.Carrier).size
    return ((), (s.setStore y none w).setObj x (some (o.setStorage t.storage t.made)) w)
  | .replace x y z here => do
    let o ← s.obj x
    let t ← s.store y
    let n := (Storage.layout k.Carrier).size
    let w := (s.w.moveBytes o.storageAt here n).moveBytes t.addr o.storageAt n
    return ((), ((s.setStore y none w).setStore z (some ⟨o.obj.storage, here, o.made⟩) w).setObj x
      (some (o.setStorage t.storage t.made)) w)
  | .swap x z tmp => do
    let o ← s.obj x
    let o' ← s.obj z
    let w := swapBytes k o.storageAt o'.storageAt tmp s.w
    return ((), (s.setObj x (some (o.setStorage o'.obj.storage o'.made)) w).setObj z
      (some (o'.setStorage o.obj.storage o.made)) w)
  | .swapStorage x y tmp => do
    let o ← s.obj x
    let t ← s.store y
    let w := swapBytes k o.storageAt t.addr tmp s.w
    return ((), (s.setObj x (some (o.setStorage t.storage t.made)) w).setStore y
      (some ⟨o.obj.storage, t.addr, o.made⟩) w)

/-- The storage of the object is one of the type its vtable was built for. -/
def Object.Matches (o : Object k) : Prop := o.made = o.built ∧ o.obj.BuiltFor o.dyn o.built

theorem Object.Matches.constructed {o : Object k} (h : o.Matches) :
    Constructed o.made o.obj.storage := h.1 ▸ h.2.constructed

/-- Every live object matches. -/
def State.Matches (s : State k) : Prop := ∀ x o, s.objs x = some o → o.Matches

structure Inv (s : State k) : Prop where
  objs : s.Matches
  stores : ∀ y t, s.stores y = some t → Constructed t.made t.storage

/-- The operation gives an object no storage that was constructed with another type. -/
def SameType (s : State k) : Op → Prop
  | .assign x y | .replace x y _ _ | .swapStorage x y _ =>
    ∀ o t, s.objs x = some o → s.stores y = some t → t.made = o.made
  | .swap x z _ => ∀ o o', s.objs x = some o → s.objs z = some o' → o'.made = o.made
  | _ => True

variable {s s' : State k} {x y : ℕ} {w w' : World}

omit [FieldOffsets] in
theorem obj_ok {o : Object k} (h : s.obj x = .ok o) : s.objs x = some o := by
  unfold State.obj at h
  split at h
  · rename_i hx
    exact hx.trans (congrArg some (Except.ok.inj h))
  · cases h

omit [FieldOffsets] in
theorem store_ok {t : Stored k} (h : s.store y = .ok t) : s.stores y = some t := by
  unfold State.store at h
  split at h
  · rename_i hy
    exact hy.trans (congrArg some (Except.ok.inj h))
  · cases h

theorem inv_setObj_none (hs : Inv s) : Inv (s.setObj x none w) := by
  refine ⟨?_, hs.stores⟩
  intro z o hz
  by_cases hzx : z = x
  · subst hzx
    simp [State.setObj] at hz
  · exact hs.objs z o (by simpa [State.setObj, hzx] using hz)

theorem inv_setObj_some (hs : Inv s) {o : Object k} (ho : o.Matches) :
    Inv (s.setObj x (some o) w) := by
  refine ⟨?_, hs.stores⟩
  intro z o' hz
  by_cases hzx : z = x
  · subst hzx
    obtain rfl : o = o' := by simpa [State.setObj] using hz
    exact ho
  · exact hs.objs z o' (by simpa [State.setObj, hzx] using hz)

theorem inv_setStore_none (hs : Inv s) : Inv (s.setStore y none w) := by
  refine ⟨hs.objs, ?_⟩
  intro z t hz
  by_cases hzy : z = y
  · subst hzy
    simp [State.setStore] at hz
  · exact hs.stores z t (by simpa [State.setStore, hzy] using hz)

theorem inv_setStore_some (hs : Inv s) {t : Stored k} (ht : Constructed t.made t.storage) :
    Inv (s.setStore y (some t) w) := by
  refine ⟨hs.objs, ?_⟩
  intro z t' hz
  by_cases hzy : z = y
  · subst hzy
    obtain rfl : t = t' := by simpa [State.setStore] using hz
    exact ht
  · exact hs.stores z t' (by simpa [State.setStore, hzy] using hz)

/-- An object with another storage of the same type. -/
theorem matches_setStorage {o : Object k} (ho : o.Matches) {storage : k.Carrier}
    {made : RustType} (hc : Constructed made storage) (ht : made = o.made) :
    (o.setStorage storage made).Matches := by
  subst ht
  exact ⟨ho.1, ho.1 ▸ hc, ho.2.vtable_eq⟩

theorem newRaw_ok {T : RustType} {v : Value T} {here : Addr} {t : k.Carrier}
    (h : newRaw v here w k = .ok (t, w')) : Constructed T t := by
  match k with
  | .raw _ _ | .box => cases h
  | .rawOrBox _ _ _ => exact (RawOrBox.newRaw_ok h).1

theorem inv_step (hs : Inv s) {op : Op} {out : Unit} (hok : SameType s op)
    (h : step s op = .ok (out, s')) : Inv s' := by
  cases op with
  | new x D T v here answer =>
    obtain ⟨⟨o, w⟩, ho, h⟩ := bind_ok.mp h
    obtain ⟨-, rfl⟩ := Prod.mk.inj (pure_ok.mp h)
    exact inv_setObj_some hs ⟨rfl, (DynObject.new_ok ho).1⟩
  | fromBox x D T v here answer =>
    obtain ⟨⟨b, w₀⟩, -, h⟩ := bind_ok.mp h
    obtain ⟨⟨o, w⟩, ho, h⟩ := bind_ok.mp h
    obtain ⟨-, rfl⟩ := Prod.mk.inj (pure_ok.mp h)
    exact inv_setObj_some hs ⟨rfl, (StorageKind.fromBox_ok ho).1⟩
  | insert x D T v here tmp answer destructor =>
    obtain ⟨⟨p, o, w⟩, ho, h⟩ := bind_ok.mp h
    obtain ⟨-, rfl⟩ := Prod.mk.inj (pure_ok.mp h)
    exact inv_setObj_some hs ⟨rfl, (DynObject.insert_ok ho).1⟩
  | storage x =>
    obtain ⟨o, -, h⟩ := bind_ok.mp h
    obtain ⟨-, rfl⟩ := Prod.mk.inj (pure_ok.mp h)
    exact hs
  | call x name body =>
    obtain ⟨o, -, h⟩ := bind_ok.mp h
    obtain ⟨⟨_, w⟩, -, h⟩ := bind_ok.mp h
    obtain ⟨-, rfl⟩ := Prod.mk.inj (pure_ok.mp h)
    exact ⟨hs.objs, hs.stores⟩
  | downcastRef x U =>
    obtain ⟨o, -, h⟩ := bind_ok.mp h
    obtain ⟨p, -, h⟩ := bind_ok.mp h
    obtain ⟨-, rfl⟩ := Prod.mk.inj (pure_ok.mp h)
    exact hs
  | downcastMut x U v =>
    obtain ⟨o, -, h⟩ := bind_ok.mp h
    obtain ⟨p, -, h⟩ := bind_ok.mp h
    obtain ⟨-, rfl⟩ := Prod.mk.inj (pure_ok.mp h)
    exact ⟨hs.objs, hs.stores⟩
  | downcast x U =>
    obtain ⟨o, ho, h⟩ := bind_ok.mp h
    obtain ⟨⟨res, w⟩, hd, h⟩ := bind_ok.mp h
    obtain ⟨-, rfl⟩ := Prod.mk.inj (pure_ok.mp h)
    cases res with
    | inl v => exact inv_setObj_none hs
    | inr obj =>
      -- only a failing downcast gives the object back
      obtain rfl := DynObject.downcast_inr hd
      exact inv_setObj_some hs (hs.objs x o (obj_ok ho))
  | move x dst =>
    obtain ⟨o, ho, h⟩ := bind_ok.mp h
    obtain ⟨-, rfl⟩ := Prod.mk.inj (pure_ok.mp h)
    have hm := hs.objs x o (obj_ok ho)
    exact inv_setObj_some hs ⟨hm.1, hm.2⟩
  | drop x destructor =>
    obtain ⟨o, -, h⟩ := bind_ok.mp h
    obtain ⟨⟨_, w⟩, -, h⟩ := bind_ok.mp h
    obtain ⟨-, rfl⟩ := Prod.mk.inj (pure_ok.mp h)
    exact inv_setObj_none hs
  | storageNew y T v here answer =>
    obtain ⟨⟨t, w⟩, ht, h⟩ := bind_ok.mp h
    obtain ⟨-, rfl⟩ := Prod.mk.inj (pure_ok.mp h)
    exact inv_setStore_some hs (LawfulStorage.new_ok ht).1
  | newRaw y T v here =>
    obtain ⟨⟨t, w⟩, ht, h⟩ := bind_ok.mp h
    obtain ⟨-, rfl⟩ := Prod.mk.inj (pure_ok.mp h)
    exact inv_setStore_some hs (newRaw_ok ht)
  | assign x y =>
    obtain ⟨o, ho, h⟩ := bind_ok.mp h
    obtain ⟨t, ht, h⟩ := bind_ok.mp h
    obtain ⟨-, rfl⟩ := Prod.mk.inj (pure_ok.mp h)
    have hm := matches_setStorage (hs.objs x o (obj_ok ho)) (hs.stores y t (store_ok ht))
      (hok o t (obj_ok ho) (store_ok ht))
    exact inv_setObj_some (inv_setStore_none hs) hm
  | replace x y z here =>
    obtain ⟨o, ho, h⟩ := bind_ok.mp h
    obtain ⟨t, ht, h⟩ := bind_ok.mp h
    obtain ⟨-, rfl⟩ := Prod.mk.inj (pure_ok.mp h)
    have hm := hs.objs x o (obj_ok ho)
    have hm' := matches_setStorage hm (hs.stores y t (store_ok ht))
      (hok o t (obj_ok ho) (store_ok ht))
    exact inv_setObj_some (inv_setStore_some (inv_setStore_none hs) hm.constructed) hm'
  | swap x z tmp =>
    obtain ⟨o, ho, h⟩ := bind_ok.mp h
    obtain ⟨o', ho', h⟩ := bind_ok.mp h
    obtain ⟨-, rfl⟩ := Prod.mk.inj (pure_ok.mp h)
    have hm := hs.objs x o (obj_ok ho)
    have hm' := hs.objs z o' (obj_ok ho')
    have ht := hok o o' (obj_ok ho) (obj_ok ho')
    exact inv_setObj_some (inv_setObj_some hs (matches_setStorage hm hm'.constructed ht))
      (matches_setStorage hm' hm.constructed ht.symm)
  | swapStorage x y tmp =>
    obtain ⟨o, ho, h⟩ := bind_ok.mp h
    obtain ⟨t, ht, h⟩ := bind_ok.mp h
    obtain ⟨-, rfl⟩ := Prod.mk.inj (pure_ok.mp h)
    have hm := hs.objs x o (obj_ok ho)
    have hm' := matches_setStorage hm (hs.stores y t (store_ok ht))
      (hok o t (obj_ok ho) (store_ok ht))
    exact inv_setStore_some (inv_setObj_some hs hm') hm.constructed

theorem inv_empty : Inv (.empty : State k) :=
  ⟨by simp [State.Matches, State.empty], by simp [State.empty]⟩

/-- As long as no object is given a storage that was constructed with another type,
the storage of every object is one of the type that its vtable speaks of. -/
theorem matches_of_run {ops : List Op} {outs : List Unit}
    (hok : Along step SameType (.empty : State k) ops) (h : run step .empty ops = .ok (outs, s)) :
    s.Matches :=
  (run_invariant_along (fun _ _ _ _ hs hok h => inv_step hs hok h) inv_empty hok h).objs

/-- The boxes of two bytes change places. -/
def swapBytesBoxes : List Op :=
  [.new 0 .any (.bytes 1) (fun _ => some 1) 64 4096,
    .new 1 .any (.bytes 1) (fun _ => some 2) 128 8192, .swap 0 1 256]

omit [FieldOffsets] in
theorem matches_of_run_swapBytesBoxes :
    ∃ outs s, run (@step .tagFirst .box) .empty swapBytesBoxes = .ok (outs, s) ∧
      @State.Matches .tagFirst .box s := by
  have hok : Along (@step .tagFirst .box) SameType .empty swapBytesBoxes := by
    refine ⟨trivial, ?_⟩
    rintro _ _ ⟨⟩
    refine ⟨trivial, ?_⟩
    rintro _ _ ⟨⟩
    refine ⟨?_, fun _ _ _ => trivial⟩
    rintro _ _ ⟨⟩ ⟨⟩
    rfl
  have h : ∃ outs s, run (@step .tagFirst .box) .empty swapBytesBoxes = .ok (outs, s) :=
    ⟨_, _, rfl⟩
  obtain ⟨outs, s, h⟩ := h
  exact ⟨outs, s, h, @matches_of_run .tagFirst _ _ _ _ hok h⟩

theorem not_matches_setStorage (x : ℕ) {o : Object k} (ho : o.Matches) (storage : k.Carrier)
    {made : RustType} (ht : made ≠ o.made) (hx : s.objs x = some (o.setStorage storage made)) :
    ¬ s.Matches :=
  fun h => ht ((h x _ hx).1.trans ho.1.symm)

/-- An exchange of storages of different types is what breaks it. -/
theorem not_matches_of_exchange (hs : Inv s) {op : Op} {out : Unit} (hbad : ¬ SameType s op)
    (h : step s op = .ok (out, s')) : ¬ s'.Matches := by
  cases op with
  | assign x y =>
    obtain ⟨o, ho, h⟩ := bind_ok.mp h
    obtain ⟨t, ht, h⟩ := bind_ok.mp h
    obtain ⟨-, rfl⟩ := Prod.mk.inj (pure_ok.mp h)
    have hne : t.made ≠ o.made := by simpa [SameType, obj_ok ho, store_ok ht] using hbad
    exact not_matches_setStorage x (hs.objs x o (obj_ok ho)) t.storage hne
      (by simp [State.setObj])
  | replace x y z here =>
    obtain ⟨o, ho, h⟩ := bind_ok.mp h
    obtain ⟨t, ht, h⟩ := bind_ok.mp h
    obtain ⟨-, rfl⟩ := Prod.mk.inj (pure_ok.mp h)
    have hne : t.made ≠ o.made := by simpa [SameType, obj_ok ho, store_ok ht] using hbad
    exact not_matches_setStorage x (hs.objs x o (obj_ok ho)) t.storage hne
      (by simp [State.setObj])
  | swap x z tmp =>
    obtain ⟨o, ho, h⟩ := bind_ok.mp h
    obtain ⟨o', ho', h⟩ := bind_ok.mp h
    obtain ⟨-, rfl⟩ := Prod.mk.inj (pure_ok.mp h)
    have hne : o'.made ≠ o.made := by simpa [SameType, obj_ok ho, obj_ok ho'] using hbad
    exact not_matches_setStorage z (hs.objs z o' (obj_ok ho')) o.obj.storage hne.symm
      (by simp [State.setObj])
  | swapStorage x y tmp =>
    obtain ⟨o, ho, h⟩ := bind_ok.mp h
    obtain ⟨t, ht, h⟩ := bind_ok.mp h
    obtain ⟨-, rfl⟩ := Prod.mk.inj (pure_ok.mp h)
    have hne : t.made ≠ o.made := by simpa [SameType, obj_ok ho, store_ok ht] using hbad
    exact not_matches_setStorage x (hs.objs x o (obj_ok ho)) t.storage hne
      (by simp [State.setObj, State.setStore])
  | _ => exact absurd trivial hbad

/-- Two boxes, of a byte and of 16 bytes with a destructor, change places between
their objects. -/
def swapBoxes : List Op :=
  [.new 0 .any (.bytes 1) (fun _ => some 1) 64 4096,
    .new 1 .any (.droppable 1 4) (fun _ => some 2) 128 8192, .swap 0 1 256]

omit [FieldOffsets] in
/-- The object of the byte then releases 16 bytes with the layout of one. -/
theorem swapBoxes_breaks :
    (¬ ∀ (ops : List Op) (outs : List Unit) (s : State .box),
      run (@step .tagFirst .box) .empty ops = .ok (outs, s) → @State.Matches .tagFirst .box s) ∧
    run (@step .tagFirst .box) .empty (swapBoxes ++ [.drop 0 .returns]) = .error .badDealloc := by
  refine ⟨?_, rfl⟩
  intro hall
  have h : ∃ outs s, run (@step .tagFirst .box) .empty swapBoxes = .ok (outs, s) ∧
      ∃ o, s.objs 0 = some o ∧ o.made ≠ o.built := ⟨_, _, rfl, _, rfl, by decide⟩
  obtain ⟨outs, s, hrun, o, ho, hne⟩ := h
  exact hne (hall _ _ _ hrun 0 o ho).1

end DynUtils.Matching
