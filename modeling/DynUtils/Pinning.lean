import DynUtils.LedgerSteps
import DynUtils.MaybeSync

/-! Pinned containers: a pinned value stays where it is until it is destroyed. -/
namespace DynUtils

open FlatMemory Machine LawfulStorage

/-! The pin contract, as a monitor of the trace. -/

/-- A value of type `ty` that was accessed through a pin at `addr`. -/
structure Pin where
  addr : Addr
  ty : RustType

namespace Pin

/-- The event neither moves, overwrites nor frees what is at `[p, p + n)`. -/
def Spares (p n : ℕ) : Event → Prop
  | .alloc b | .dealloc b => b.Apart p n
  | .stored T q => Apart q T.size p n
  | .copied src dst m => Apart src m p n ∧ Apart dst m p n
  | .destructor _ _ | .lapsed _ | .movedOut _ _ | .unboxed _ _ | .accessed _ _ => False

/-- While a value is pinned it is accessed at its place only, and its bytes are let
alone; the pin ends with the value, at that place. -/
inductive Step : Option Pin → Event → Option Pin → Prop
  | first {T : RustType} {p : Addr} : Step none (.accessed T p) (some ⟨p, T⟩)
  | again {T : RustType} {p : Addr} : Step (some ⟨p, T⟩) (.accessed T p) (some ⟨p, T⟩)
  | destructor {T : RustType} {p : Addr} : Step (some ⟨p, T⟩) (.destructor T p) none
  | lapsed {T : RustType} {p : Addr} : Step (some ⟨p, T⟩) (.lapsed p) none
  | spared {π : Pin} {e : Event} : Spares π.addr π.ty.size e → Step (some π) e (some π)
  | unpinned {e : Event} : (∀ T p, e ≠ .accessed T p) → Step none e none

/-- The trace honours the pin contract, from one pin on to the next. -/
abbrev Honours : Option Pin → List Event → Option Pin → Prop := Machine.Trace Step

end Pin

namespace Pinning

/-- What is pinned: an object, or what may contain one. -/
inductive Container (k : StorageKind) (O : Type)
  | object (o : DynObject k.Carrier)
  | maybeSync (m : MaybeSync (DynObject k.Carrier) O)
  | slot (this : Option (DynObject k.Carrier))
  | dropped

/-- A container at a fixed address. -/
structure State (k : StorageKind) (O : Type) where
  container : Container k O
  w : World

inductive Op (O : Type)
  /-- A poll, or another method with a receiver `Pin<&mut Self>`. `tmp` is where
  `MaybeSync` puts what it takes. -/
  | poll (name : String) (body : (T : RustType) → Value T → Polled O × Value T) (tmp : Addr)
  | insertPinned (D : DynTrait) (T : RustType) (v : Value T) (tmp answer : Addr)
    (destructor : Outcome)
  | drop (destructor : Outcome)

variable [FieldOffsets] {k : StorageKind} {O : Type}

namespace Container

/-- The object in a container at `here`, and where it is. -/
def object? (here : Addr) : Container k O → Option (DynObject k.Carrier × Addr)
  | object o => some (o, here)
  | maybeSync (.async o) => some (o, here + FieldOffsets.async (Storage.layout k.Carrier))
  | slot (some o) => some (o, DynObject.someAt k.Carrier here)
  | maybeSync (.sync _) | maybeSync .syncPolled | slot none | dropped => none

/-- The drop glue of the container. -/
def drop (here : Addr) (destructor : Outcome) (c : Container k O) (w : World) :
    Except Fault World :=
  match c.object? here with
  | none => .ok w
  | some (o, p) => do
    let (_, w) ← o.drop p destructor w
    return w

end Container

/-- The call through `Pin<&mut DynObject>`. -/
def pollObject (here : Addr) (name : String)
    (body : (T : RustType) → Value T → Polled O × Value T) (o : DynObject k.Carrier) (w : World) :
    Except Fault (Polled O × DynObject k.Carrier × World) := do
  let (res, w) ← o.call here name body w
  return (res, o, w)

/-- `mem::replace(self, SyncPolled)`, seen as two moves of the whole enum. -/
def replaceBytes (k : StorageKind) (here tmp : Addr) (w : World) : World :=
  let n := FieldOffsets.async (Storage.layout k.Carrier) + DynObject.size k.Carrier
  (w.moveBytes here tmp n).moveBytes tmp here n

/-- The memory of a slot, the block of what is in it, the temporary of a call and a
block that the allocator answers with are different places. -/
def Separate (T : RustType) (this : Option (DynObject k.Carrier)) (here tmp answer : Addr)
    (blocks : List Block) : Prop :=
  let slot := DynObject.someAt k.Carrier here
  let n := DynObject.size k.Carrier
  Apart tmp n slot n ∧ Apart answer T.size slot n ∧
    ∀ b ∈ blocks, this.bind (fun o => boxed o.storage) = some b.addr → b.Apart tmp n

instance (T : RustType) (this : Option (DynObject k.Carrier)) (here tmp answer : Addr)
    (blocks : List Block) : Decidable (Separate T this here tmp answer blocks) := by
  unfold Separate; infer_instance

def step (here : Addr) (s : State k O) : Op O → Except Fault (Option (Polled O) × State k O)
  | .poll name body tmp =>
    match s.container with
    | .object o => do
      let (res, o, w) ← pollObject here name body o s.w
      return (some res, ⟨.object o, w⟩)
    | .maybeSync m => do
      let pollFut := pollObject (here + FieldOffsets.async (Storage.layout k.Carrier)) name body
      let (res, m, w) ← m.poll pollFut (replaceBytes k here tmp) s.w
      return (some res, ⟨.maybeSync m, w⟩)
    | .slot (some o) => do
      let (res, o, w) ← pollObject (DynObject.someAt k.Carrier here) name body o s.w
      return (some res, ⟨.slot (some o), w⟩)
    | .slot none | .dropped => .error .notAvailable
  | .insertPinned D T v tmp answer destructor =>
    match s.container with
    | .slot this =>
      -- other choices are none that a compiler and an allocator make
      if Separate T this here tmp answer s.w.mem.blocks then do
        let (_, o, w) ← DynObject.insertPinned D this v here tmp answer destructor s.w
        return (none, ⟨.slot (some o), w⟩)
      else .error .notFresh
    | .object _ | .maybeSync _ | .dropped => .error .notAvailable
  | .drop destructor =>
    match s.container with
    | .dropped => .error .notAvailable
    | c => do
      let w ← c.drop here destructor s.w
      return (none, ⟨.dropped, w⟩)

/-- The container holds no object or one that is complete, and only the value in
it is pinned. -/
def Secured (w : World) (pin : Option Pin) : Option (DynObject k.Carrier × Addr) → Prop
  | none => pin = none
  | some (o, p) => ∃ D T, o.BuiltFor D T ∧ (∀ b ∈ o.block T, b ∈ w.mem.blocks) ∧
      (pin = none ∨ pin = some ⟨o.place p, T⟩)

/-- The operation extends the trace as the pin contract allows. -/
def Extends (w w' : World) (pin pin' : Option Pin) : Prop :=
  ∃ es, w'.trace = w.trace ++ es ∧ Pin.Honours pin es pin'

variable {w w' : World} {pin : Option Pin} {T T' : RustType} {o old : DynObject k.Carrier}
  {p tmp : Addr}

omit [FieldOffsets] in
theorem honours_unpinned {es : List Event} (h : ∀ T p, .accessed T p ∉ es) :
    Pin.Honours none es none := by
  induction es with
  | nil => exact .refl
  | cons e es ih =>
    refine .step (.unpinned ?_) (ih fun T p hm => h T p (List.mem_cons_of_mem e hm))
    rintro T p rfl
    exact h T p List.mem_cons_self

omit [FieldOffsets] in
theorem honours_access (h : pin = none ∨ pin = some ⟨p, T⟩) :
    Pin.Honours pin [.accessed T p] (some ⟨p, T⟩) := by
  rcases h with rfl | rfl
  · exact .step .first .refl
  · exact .step .again .refl

omit [FieldOffsets] in
/-- The end of the value ends its pin, and releases nothing that is pinned. -/
theorem honours_end (h : pin = none ∨ pin = some ⟨p, T⟩) (b : Option Block) :
    Pin.Honours pin (DynObject.endEvent T p :: b.toList.map .dealloc) none := by
  have hrest : Pin.Honours none (b.toList.map .dealloc) none :=
    honours_unpinned (by cases b <;> simp)
  unfold DynObject.endEvent
  split <;> rcases h with rfl | rfl
  · exact .step (.unpinned (by simp)) hrest
  · exact .step .destructor hrest
  · exact .step (.unpinned (by simp)) hrest
  · exact .step .lapsed hrest

omit [FieldOffsets] in
theorem honours_unwound (h : pin = none ∨ pin = some ⟨p, T⟩) :
    Pin.Honours pin [.destructor T p] none := by
  rcases h with rfl | rfl
  · exact .step (.unpinned (by simp)) .refl
  · exact .step .destructor .refl

/-- A poll accesses the value in its place. -/
theorem pollObject_ok {name : String} {body : (T : RustType) → Value T → Polled O × Value T}
    {res : Polled O} {o' : DynObject k.Carrier} (hs : Secured w pin (some (o, p)))
    (h : pollObject p name body o w = .ok (res, o', w')) :
    ∃ pin', Extends w w' pin pin' ∧ Secured w' pin' (some (o', p)) := by
  obtain ⟨D, T, hb, hlive, hpin⟩ := hs
  obtain ⟨⟨r, w₁⟩, hc, h⟩ := bind_ok.mp h
  obtain ⟨rfl, rfl, rfl⟩ : r = res ∧ o = o' ∧ w₁ = w' := by simpa using pure_ok.mp h
  rw [DynObject.call_eq hb] at hc
  split at hc
  · obtain ⟨-, rfl⟩ := Prod.mk.inj (Except.ok.inj hc)
    exact ⟨_, ⟨_, rfl, honours_access hpin⟩, D, T, hb, hlive, Or.inr rfl⟩
  · cases hc

/-- A drop in place ends the pin, also when the destructor unwinds. -/
theorem drop_ok {destructor outcome : Outcome} (hs : Secured w pin (some (o, p)))
    (h : o.drop p destructor w = .ok (outcome, w')) : Extends w w' pin none := by
  obtain ⟨D, T, hb, hlive, hpin⟩ := hs
  rw [DynObject.drop_live hb hlive] at h
  obtain ⟨-, rfl⟩ := Prod.mk.inj (Except.ok.inj h)
  unfold DynObject.afterDrop
  split
  · exact ⟨_, rfl, honours_unwound hpin⟩
  · exact ⟨_, by rw [World.trace_released, World.trace_record, List.append_assoc]; rfl,
      honours_end hpin _⟩

theorem container_drop_ok {c : Container k O} {here : Addr} {destructor : Outcome}
    (hs : Secured w pin (c.object? here)) (h : c.drop here destructor w = .ok w') :
    Extends w w' pin none := by
  unfold Container.drop at h
  cases ho : c.object? here with
  | none =>
    obtain rfl : pin = none := by simpa [ho, Secured] using hs
    obtain rfl : w = w' := by simpa [ho] using h
    exact ⟨[], (List.append_nil _).symm, .refl⟩
  | some op =>
    simp only [ho] at h
    obtain ⟨⟨outcome, w₁⟩, hd, h⟩ := bind_ok.mp h
    obtain rfl := pure_ok.mp h
    exact drop_ok (ho ▸ hs) hd

/-- A value is in the bytes of its object or in a block of its own. -/
theorem place_cases {D : DynTrait} (hb : o.BuiltFor D T) (p : Addr) :
    T.size = 0 ∨ (p ≤ o.place p ∧ o.place p + T.size ≤ p + DynObject.size k.Carrier) ∨
      boxed o.storage = some (o.place p) ∧ o.block T = some ⟨o.place p, T.layout⟩ := by
  by_cases hz : T.size = 0
  · exact Or.inl hz
  cases hboxed : boxed o.storage with
  | none =>
    have hfits := fits hb.constructed hboxed
    refine Or.inr (Or.inl ?_)
    simp only [DynObject.place, ptr_eq, hboxed, Option.getD_none, DynObject.storageAt,
      DynObject.size, Nat.add_assoc]
    exact ⟨Nat.le_add_right _ _, Nat.add_le_add_left (Nat.add_le_add_left hfits _) p⟩
  | some q =>
    have hq : o.place p = q := by simp [DynObject.place, ptr_eq, hboxed]
    exact Or.inr (Or.inr ⟨by rw [hq], by rw [hq]; exact ownedBlock_of_boxed hboxed hz⟩)

/-- While a new object is built, the value in the slot is not in its way. -/
theorem apart_of_separate {D D' : DynTrait} {here answer : Addr} (hb : o.BuiltFor D T)
    (hold : old.BuiltFor D' T') (hlive : ∀ b ∈ old.block T', b ∈ w.mem.blocks)
    (hf : ∀ b ∈ o.block T, b.addr = answer ∧ w.mem.Fresh b.addr b.layout)
    (hsep : Separate T (some old) here tmp answer w.mem.blocks) :
    Apart (o.place tmp) T.size (old.place (DynObject.someAt k.Carrier here)) T'.size := by
  obtain ⟨htmp, hanswer, hblocks⟩ := hsep
  rcases place_cases hb tmp with hz | hin | ⟨-, hblock⟩
  · exact Or.inl hz
  · rcases place_cases hold (DynObject.someAt k.Carrier here) with hz | hin' | ⟨hboxed, hblock'⟩
    · exact Or.inr (Or.inl hz)
    · exact (apart_comm ((apart_comm (htmp.mono hin.1 hin.2)).mono hin'.1 hin'.2))
    · exact (apart_comm (hblocks _ (hlive _ hblock') (by simpa using hboxed))).mono hin.1 hin.2
  · obtain ⟨haddr, hfresh⟩ := hf _ hblock
    rcases place_cases hold (DynObject.someAt k.Carrier here) with hz | hin' | ⟨-, hblock'⟩
    · exact Or.inr (Or.inl hz)
    · rw [show o.place tmp = answer from haddr]
      exact apart_comm ((apart_comm hanswer).mono hin'.1 hin'.2)
    · exact apart_comm (hfresh.2 _ (hlive _ hblock'))

/-- The construction of the new object lets the value in the slot alone. -/
theorem honours_new {D : DynTrait} {here answer : Addr} (hb : o.BuiltFor D T)
    (hf : ∀ b ∈ o.block T, b.addr = answer ∧ w.mem.Fresh b.addr b.layout)
    {this : Option (DynObject k.Carrier)}
    (hs : Secured w pin (Container.object? here (.slot this : Container k O)))
    (hsep : Separate T this here tmp answer w.mem.blocks) :
    Pin.Honours pin ((o.block T).toList.map .alloc ++ [.stored T (o.place tmp)]) pin := by
  cases hpin : pin with
  | none => exact honours_unpinned (by cases o.block T <;> simp)
  | some π =>
    cases this with
    | none => simp [Container.object?, Secured, hpin] at hs
    | some old =>
      obtain ⟨D', T', hold, hlive, hcase⟩ := hs
      obtain rfl : π = ⟨old.place (DynObject.someAt k.Carrier here), T'⟩ := by simp_all
      have hapart := apart_of_separate hb hold hlive hf hsep
      cases hblock : o.block T with
      | none => exact .step (.spared hapart) .refl
      | some b =>
        obtain ⟨hl, hp⟩ := Ledger.place_of_block hblock tmp
        refine .step (.spared ?_) (.step (.spared hapart) .refl)
        rw [hp] at hapart
        simpa [Pin.Spares, Block.Apart, hl] using hapart

omit [FieldOffsets] in
theorem Extends.trans {w₁ w₂ w₃ : World} {pin₁ pin₂ pin₃ : Option Pin}
    (h : Extends w₁ w₂ pin₁ pin₂) (h' : Extends w₂ w₃ pin₂ pin₃) : Extends w₁ w₃ pin₁ pin₃ := by
  obtain ⟨es, he, hr⟩ := h
  obtain ⟨es', he', hr'⟩ := h'
  exact ⟨es ++ es', by rw [he', he, List.append_assoc], hr.append hr'⟩

omit [FieldOffsets] in
theorem mem_released_of_ne {b : Block} {own : Option Block} (hb : b ∈ w.mem.blocks)
    (hne : b ∉ own) : b ∈ (w.released own).mem.blocks := by
  cases own with
  | none => exact hb
  | some c => exact (List.mem_erase_of_ne fun he => hne (Option.mem_some_iff.mpr he.symm)).mpr hb

/-- A block that has just been handed out is not the one of the old object. -/
theorem not_mem_block_of_fresh {answer : Addr} {b : Block} (hb : b ∈ o.block T)
    (hf : b.addr = answer ∧ w.mem.Fresh b.addr b.layout)
    (hlive : ∀ b ∈ old.block T', b ∈ w.mem.blocks) : b ∉ old.block T' := by
  intro hm
  obtain ⟨hl, hn, -⟩ := ownedBlock_layout hb
  have hsize : b.layout.size ≠ 0 := hl ▸ hn
  exact (hf.2.2 b (hlive b hm)).ne hsize hsize rfl

/-- `insert_pinned` drops the value in the slot, if any, in its place, and pins the
new one. -/
theorem insertPinned_ok {D : DynTrait} {v : Value T} {here answer : Addr}
    {destructor : Outcome} {q : Option Addr} {this : Option (DynObject k.Carrier)}
    (hs : Secured w pin (Container.object? here (.slot this : Container k O)))
    (hsep : Separate T this here tmp answer w.mem.blocks)
    (h : DynObject.insertPinned D this v here tmp answer destructor w = .ok (q, o, w')) :
    ∃ pin', Extends w w' pin pin' ∧
      Secured w' pin' (some (o, DynObject.someAt k.Carrier here)) := by
  obtain ⟨hb, hf, outcome, w₂, hd, hset⟩ := DynObject.insert_ok h
  have hbuilt : Extends w ((w.acquire (o.block T)).put (o.place tmp) v) pin pin :=
    ⟨_, by rw [World.trace_put, World.trace_acquire, List.append_assoc],
      honours_new hb hf hs hsep⟩
  have hnew : ∀ b ∈ o.block T, b ∈ ((w.acquire (o.block T)).put (o.place tmp) v).mem.blocks := by
    intro b hm
    simp only [World.mem_put, Memory.blocks_store, World.blocks_acquire]
    exact List.mem_append_left _ (Option.mem_toList.mpr hm)
  obtain ⟨hdropped, hlive⟩ :
      Extends ((w.acquire (o.block T)).put (o.place tmp) v) w₂ pin none ∧
        ∀ b ∈ o.block T, b ∈ w₂.mem.blocks := by
    cases this with
    | none =>
      obtain ⟨-, rfl⟩ := Prod.mk.inj (Except.ok.inj hd)
      obtain rfl : pin = none := hs
      exact ⟨⟨[], by simp, .refl⟩, hnew⟩
    | some old =>
      obtain ⟨D', T', hold, hlive, hpin⟩ := hs
      have hlive' := DynObject.live_acquire_put (b := o.block T) (q := o.place tmp) (v := v) hlive
      refine ⟨drop_ok ⟨D', T', hold, hlive', hpin⟩ hd, ?_⟩
      intro b hm
      rw [DynObject.dropSlot, DynObject.drop_live hold hlive'] at hd
      obtain ⟨-, rfl⟩ := Prod.mk.inj (Except.ok.inj hd)
      unfold DynObject.afterDrop
      split
      · exact hnew b hm
      · exact mem_released_of_ne (hnew b hm) (not_mem_block_of_fresh hm (hf b hm) hlive)
  obtain ⟨-, rfl⟩ := Prod.mk.inj hset
  cases outcome with
  | unwinds =>
    refine ⟨none, hbuilt.trans (hdropped.trans ⟨_, rfl, ?_⟩), D, T, hb, hlive, Or.inl rfl⟩
    exact honours_unpinned (by simp)
  | returns =>
    refine ⟨some ⟨_, T⟩, hbuilt.trans (hdropped.trans ⟨_, List.append_assoc _ _ _, ?_⟩), D, T, hb,
      hlive, Or.inr rfl⟩
    exact .step (.unpinned (by simp)) (.step .first .refl)

def Inv (here : Addr) (s : State k O) : Prop :=
  ∃ pin, Pin.Honours none s.w.trace pin ∧ Secured s.w pin (s.container.object? here)

/-- What an operation that extends the trace leaves. -/
theorem inv_extends {here : Addr} {s s' : State k O} (hr : Pin.Honours none s.w.trace pin)
    (h : ∃ pin', Extends s.w s'.w pin pin' ∧ Secured s'.w pin' (s'.container.object? here)) :
    Inv here s' := by
  obtain ⟨pin', ⟨es, he, hes⟩, hs⟩ := h
  exact ⟨pin', he ▸ hr.append hes, hs⟩

theorem inv_step {here : Addr} {s s' : State k O} {op : Op O} {out : Option (Polled O)}
    (hs : Inv here s) (h : step here s op = .ok (out, s')) : Inv here s' := by
  obtain ⟨pin, hr, hsec⟩ := hs
  apply inv_extends hr
  obtain ⟨c, w⟩ := s
  cases op with
  | poll name body tmp =>
    cases c with
    | object o =>
      obtain ⟨⟨res, o', w'⟩, hp, h⟩ := bind_ok.mp h
      obtain ⟨-, rfl⟩ := Prod.mk.inj (pure_ok.mp h)
      exact pollObject_ok hsec hp
    | maybeSync m =>
      obtain ⟨⟨res, m', w'⟩, hp, h⟩ := bind_ok.mp h
      obtain ⟨-, rfl⟩ := Prod.mk.inj (pure_ok.mp h)
      cases m with
      | sync _ =>
        obtain ⟨rfl, rfl, rfl⟩ := by simpa using hp
        obtain rfl : pin = none := hsec
        exact ⟨none, ⟨_, List.append_assoc _ _ _, honours_unpinned (by simp)⟩, rfl⟩
      | async fut =>
        obtain ⟨⟨_, fut', w''⟩, hf, hp⟩ := bind_ok.mp hp
        obtain ⟨rfl, rfl, rfl⟩ := by simpa using pure_ok.mp hp
        exact pollObject_ok hsec hf
      | syncPolled =>
        obtain ⟨rfl, rfl, rfl⟩ := by simpa using hp
        exact ⟨pin, ⟨[], (List.append_nil _).symm, .refl⟩, hsec⟩
    | slot this =>
      cases this with
      | none => cases h
      | some o =>
        obtain ⟨⟨res, o', w'⟩, hp, h⟩ := bind_ok.mp h
        obtain ⟨-, rfl⟩ := Prod.mk.inj (pure_ok.mp h)
        exact pollObject_ok hsec hp
    | dropped => cases h
  | insertPinned D T v tmp answer destructor =>
    cases c with
    | slot this =>
      simp only [step] at h
      split at h
      · rename_i hsep
        obtain ⟨⟨q, o, w'⟩, hi, h⟩ := bind_ok.mp h
        obtain ⟨-, rfl⟩ := Prod.mk.inj (pure_ok.mp h)
        exact insertPinned_ok hsec hsep hi
      · cases h
    | _ => cases h
  | drop destructor =>
    have hd : ∃ w', c.drop here destructor w = .ok w' ∧ s' = ⟨.dropped, w'⟩ := by
      cases c with
      | dropped => cases h
      | _ =>
        obtain ⟨w', hw, h⟩ := bind_ok.mp h
        obtain ⟨-, rfl⟩ := Prod.mk.inj (pure_ok.mp h)
        exact ⟨w', hw, rfl⟩
    obtain ⟨w', hw, rfl⟩ := hd
    exact ⟨none, container_drop_ok hsec hw, rfl⟩

/-- A container is pinned where the program has put it: what it holds is an object
of a state that the program has reached. -/
def Start (here : Addr) (s : State k O) : Prop :=
  ∃ ops outs l, run Ledger.step .empty ops = .ok (outs, l) ∧ s.w = l.world ∧
    ∀ o p, s.container.object? here = some (o, p) → ∃ x h, l.vars x = some h ∧ h.addr = p ∧
      (⟨h.kind, h.obj⟩ : (k : StorageKind) × DynObject k.Carrier) = ⟨k, o⟩

theorem inv_start {here : Addr} {s : State k O} (h : Start here s) : Inv here s := by
  obtain ⟨ops, outs, l, hrun, hw, hobj⟩ := h
  have hl := Ledger.inv_run hrun
  refine ⟨none, hw ▸ .refl, ?_⟩
  cases ho : s.container.object? here with
  | none => rfl
  | some op =>
    obtain ⟨o, p⟩ := op
    obtain ⟨x, ⟨kind, dyn, obj, addr, id, ty⟩, hx, -, heq⟩ := hobj o p ho
    obtain ⟨rfl, heq⟩ := Sigma.mk.inj heq
    obtain rfl := eq_of_heq heq
    refine ⟨dyn, ty, (hl.built x _ hx).1, ?_, Or.inl rfl⟩
    rw [hw]
    exact Ledger.live_of_held hl hx

/-- Pinning is honoured: from its first pinned access on, a value is accessed at one
address only and its bytes are neither moved nor overwritten nor freed, until its
destructor has run there; a drop of the container leaves no value pinned. -/
theorem honours_of_run {here : Addr} {s u : State k O} {ops : List (Op O)}
    {outs : List (Option (Polled O))} (hs : Start here s)
    (h : run (step here) s ops = .ok (outs, u)) :
    ∃ pin, Pin.Honours none u.w.trace pin ∧ (u.container = .dropped → pin = none) := by
  obtain ⟨pin, hr, hsec⟩ := run_invariant (fun _ _ _ _ hs h => inv_step hs h) (inv_start hs) h
  refine ⟨pin, hr, ?_⟩
  intro hd
  rw [hd] at hsec
  exact hsec

/-- An in-place future is polled in its slot, a boxed one takes its place and is
polled too. -/
def pollReplace : List (Op Unit) :=
  let D : DynTrait := .trait fun _ => some .pinned
  [.insertPinned D (.droppable 1 2) (fun _ => some 1) 256 4096 .unwinds,
    .poll "poll" (fun _ v => (.pending, v)) 512,
    .insertPinned D (.droppable 2 4) (fun _ => some 2) 256 8192 .unwinds,
    .insertPinned D (.droppable 2 4) (fun _ => some 3) 256 4096 .returns,
    .poll "poll" (fun _ v => (.ready (), v)) 512, .drop .returns]

omit [FieldOffsets] in
theorem honours_of_run_pollReplace :
    ∃ outs u pin, run (@step .tagFirst (.rawOrBox true 8 8) _ 64) ⟨.slot none, .empty⟩ pollReplace =
      .ok (outs, u) ∧ Pin.Honours none u.w.trace pin ∧ (u.container = .dropped → pin = none) := by
  have hs : @Start .tagFirst (.rawOrBox true 8 8) Unit 64 ⟨.slot none, .empty⟩ :=
    ⟨[], [], .empty, rfl, rfl, by simp [Container.object?]⟩
  have h : ∃ outs u, run (@step .tagFirst (.rawOrBox true 8 8) _ 64) ⟨.slot none, .empty⟩
      pollReplace = .ok (outs, u) := ⟨_, _, rfl⟩
  obtain ⟨outs, u, h⟩ := h
  obtain ⟨pin, hpin⟩ := @honours_of_run .tagFirst _ _ _ _ _ _ _ hs h
  exact ⟨outs, u, pin, h, hpin⟩

end Pinning

end DynUtils
