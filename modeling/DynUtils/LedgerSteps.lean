import DynUtils.LedgerInvariant

/-! Each operation on an object is an exchange, and none is undefined behavior. -/
namespace DynUtils.Ledger

open FlatMemory Machine LawfulStorage

variable [FieldOffsets] {s s' : Ledger} {x : ℕ} {h : Held} {w : World} {T : RustType}

section
variable {S : Type} [Storage S] [LawfulStorage S] {o : DynObject S}

/-- A block that the allocator hands out is none that is live. -/
theorem acquired_not_mem (hs : Inv s) {answer : Addr}
    (hf : ∀ b ∈ o.block T, b.addr = answer ∧ s.mem.Fresh b.addr b.layout) :
    ∀ b ∈ o.block T, b ∉ s.mem.blocks := by
  intro b hb hin
  obtain ⟨hl, hn, -⟩ := ownedBlock_layout hb
  have hsize : b.layout.size ≠ 0 := hl ▸ hn
  exact Memory.Fresh.not_mem (hf b hb).2 hs.wf hsize hin rfl

theorem wf_acquired (hs : Inv s) {answer : Addr}
    (hf : ∀ b ∈ o.block T, b.addr = answer ∧ s.mem.Fresh b.addr b.layout) :
    (s.world.acquire (o.block T)).mem.Wf := by
  refine World.wf_acquire hs.wf fun b hb => ⟨(hf b hb).2, ?_⟩
  obtain ⟨hl, hn, -⟩ := ownedBlock_layout hb
  exact hl ▸ hn

end

theorem exchange_new (hs : Inv s) (hx : s.vars x = none) {k : StorageKind} {D : DynTrait}
    {v : Value T} {here answer : Addr} {o : DynObject k.Carrier}
    (ho : DynObject.new D v here answer s.world = .ok (o, w)) :
    Exchange s (s.enroll x ⟨k, D, o, here, s.next, T⟩ (fun _ => s.next) w) x
      (some ⟨k, D, o, here, s.next, T⟩) := by
  obtain ⟨hb, hf, rfl⟩ := DynObject.new_ok ho
  refine exchange_enroll_empty hs hx rfl hb ?_ ?_ (acquired_not_mem hs hf) ?_
  · exact Memory.wf_of_blocks_eq (wf_acquired hs hf) rfl
  · simp [World.blocks_acquire, world]
  · simpa [World.trace_acquire, world] using run_new o T here

/-- The box is gone from the heap unless the storage has kept it. -/
theorem exchange_fromBox (hs : Inv s) (hx : s.vars x = none) {k : StorageKind} {D : DynTrait}
    {v : Value T} {here answer : Addr} {b : StdBox T} {w₀ : World} {o : DynObject k.Carrier}
    (hbox : StdBox.new v answer s.world = .ok (b, w₀)) (ho : k.fromBox D b here w₀ = .ok (o, w)) :
    Exchange s (s.enroll x ⟨k, D, o, here, s.next, T⟩ (fun _ => s.next) w) x
      (some ⟨k, D, o, here, s.next, T⟩) := by
  -- before `from_box` the box is as one that a storage `Box` owns
  let boxObj : DynObject Box := ⟨⟨b.ptr⟩, D.vtable T⟩
  obtain ⟨hf, rfl⟩ := StdBox.new_ok hbox
  have hfresh : ∀ c ∈ boxBlock T b.ptr, c ∉ s.mem.blocks := acquired_not_mem (o := boxObj) hs hf
  have hwf : (s.world.acquire (boxBlock T b.ptr)).mem.Wf := wf_acquired (o := boxObj) hs hf
  have hboxed : Life.Run T .unborn
      ((boxBlock T b.ptr).toList.map .alloc ++ [.stored T b.ptr]) (.alive (boxBlock T b.ptr)) :=
    run_new boxObj T here
  obtain ⟨hb, ⟨hp, rfl⟩ | ⟨hp, w₁, hw₁, rfl⟩⟩ := StorageKind.fromBox_ok ho
  · have hblock : o.block T = boxBlock T b.ptr := by simp [DynObject.block, ownedBlock, hp]
    refine exchange_enroll_empty hs hx rfl hb (Memory.wf_of_blocks_eq hwf rfl) ?_ ?_ ?_
    · simp [hblock, World.blocks_acquire, world]
    · exact hblock ▸ hfresh
    · simpa [World.trace_acquire, hblock, world] using hboxed
  · have hblock : o.block T = none := by simp [DynObject.block, ownedBlock, hp]
    obtain ⟨-, rfl⟩ := World.release_ok.mp hw₁
    have hwf₁ : (((s.world.acquire (boxBlock T b.ptr)).put b.ptr v).record
      (.unboxed T b.ptr)).mem.Wf := Memory.wf_of_blocks_eq hwf rfl
    refine exchange_enroll_empty hs hx rfl hb ?_ ?_ ?_ ?_
    · exact Memory.wf_of_blocks_eq (World.wf_released hwf₁) rfl
    · intro c
      have hc := hfresh c
      rw [World.mem_put, Memory.blocks_store, mem_released hwf₁]
      simp [hblock, World.blocks_acquire, world]
      tauto
    · simp [hblock]
    · simpa [World.trace_released, World.trace_acquire, hblock, world] using
        hboxed.append (run_unbox T (boxBlock T b.ptr) b.ptr (o.place here))

/-- What `insert` adds to the life of the new value once it is built. -/
theorem run_settle {S : Type} [Storage S] [LawfulStorage S] (o : DynObject S) (T : RustType)
    (tmp src dst n p : ℕ) :
    Life.Run T .unborn ((o.block T).toList.map .alloc ++
      [.stored T (o.place tmp), .copied src dst n, .accessed T p]) (.alive (o.block T)) := by
  simpa using (run_new o T tmp).append (.step .copy (.step .access .refl))

theorem exchange_insert_empty (hs : Inv s) (hx : s.vars x = none) {k : StorageKind}
    {D : DynTrait} {v : Value T} {here tmp answer : Addr} {p : Option Addr}
    {o : DynObject k.Carrier}
    (ho : DynObject.insert D none v here tmp answer .returns s.world = .ok (p, o, w)) :
    Exchange s (s.enroll x ⟨k, D, o, DynObject.someAt k.Carrier here, s.next, T⟩
        (fun _ => s.next) w) x
      (some ⟨k, D, o, DynObject.someAt k.Carrier here, s.next, T⟩) := by
  obtain ⟨hb, hf, outcome, w₂, hd, hset⟩ := DynObject.insert_ok ho
  obtain ⟨rfl, rfl⟩ := Prod.mk.inj (Except.ok.inj hd)
  obtain ⟨-, rfl⟩ := Prod.mk.inj hset
  refine exchange_enroll_empty hs hx rfl hb ?_ ?_ (acquired_not_mem hs hf) ?_
  · exact Memory.wf_of_blocks_eq (wf_acquired hs hf) rfl
  · simp [World.blocks_acquire, world]
  · simpa [World.trace_acquire, world] using run_settle o T tmp _ _ _ _

omit [FieldOffsets] in
/-- Of the trace of an `insert` over a value, the new value sees its construction
and the old one its end. -/
theorem filter_insert {old new : ℕ} (hne : old ≠ new) (T T' : RustType) (b c : Option Block)
    (p q src dst n r : ℕ) :
    let es := b.toList.map .alloc ++ [.stored T p] ++ (DynObject.endEvent T' q ::
      c.toList.map .dealloc) ++ [.copied src dst n, .accessed T r]
    es.filter (aboutInsert old new · = new) = b.toList.map .alloc ++
        [.stored T p, .copied src dst n, .accessed T r] ∧
      es.filter (aboutInsert old new · = old) =
        DynObject.endEvent T' q :: c.toList.map .dealloc := by
  unfold DynObject.endEvent
  cases T'.needsDrop <;> cases b <;> cases c <;> simp [aboutInsert, hne, hne.symm]

theorem exchange_insert_over (hs : Inv s) (hx : s.vars x = some h) {v : Value T}
    {here tmp answer : Addr} {p : Option Addr} {o : DynObject h.kind.Carrier}
    (ho : DynObject.insert h.dyn (some h.obj) v here tmp answer .returns s.world = .ok (p, o, w)) :
    Exchange s (s.enroll x { h with obj := o, id := s.next, ty := T } (aboutInsert h.id s.next) w) x
      (some { h with obj := o, id := s.next, ty := T }) := by
  obtain ⟨hbuilt, hlt⟩ := hs.built x h hx
  have hlive : ∀ b ∈ h.obj.block h.ty, b ∈ s.mem.blocks := fun b hm =>
    (hs.blocks b).mpr ⟨x, by simpa [blockOf, hx] using hm⟩
  obtain ⟨hb, hf, outcome, w₂, hd, hset⟩ := DynObject.insert_ok ho
  rw [DynObject.dropSlot, DynObject.drop_live hbuilt (DynObject.live_acquire_put hlive)] at hd
  obtain ⟨rfl, rfl⟩ := Prod.mk.inj (Except.ok.inj hd)
  simp only [DynObject.afterDrop_returns, DynObject.dropOutcome_returns] at hset
  obtain ⟨-, rfl⟩ := Prod.mk.inj hset
  have hwf : (((s.world.acquire (o.block T)).put (o.place tmp) v).record
      (DynObject.endEvent h.ty (h.obj.place (DynObject.someAt h.kind.Carrier here)))).mem.Wf :=
    Memory.wf_of_blocks_eq (wf_acquired hs hf) rfl
  obtain ⟨hnew, hold⟩ := filter_insert (Nat.ne_of_lt hlt) T h.ty (o.block T)
    (h.obj.block h.ty) (o.place tmp) (h.obj.place (DynObject.someAt h.kind.Carrier here)) tmp
    (DynObject.someAt h.kind.Carrier here) (DynObject.size h.kind.Carrier)
    (o.place (DynObject.someAt h.kind.Carrier here))
  refine exchange_enroll hs rfl hb ?_ ?_ (acquired_not_mem hs hf) ?_ ?_ ?_
  · exact Memory.wf_of_blocks_eq (World.wf_released hwf) rfl
  · intro b
    have hne := acquired_not_mem hs hf b
    have hl := hlive b
    rw [World.mem_record, World.mem_moveBytes, Memory.blocks_copy, mem_released hwf]
    simp [World.blocks_acquire, world, blockOf, hx]
    tauto
  · intro e
    cases e <;> simp [aboutInsert, hx]
  · rw [World.trace_record, World.trace_moveBytes, World.trace_released, World.trace_record,
      World.trace_put, World.trace_acquire]
    simp only [world, List.nil_append, List.append_assoc, List.cons_append] at hnew ⊢
    rw [hnew]
    exact run_settle o T tmp _ _ _ _
  · intro h₀ hm
    obtain rfl : h = h₀ := by simpa [hx] using hm
    rw [World.trace_record, World.trace_moveBytes, World.trace_released, World.trace_record,
      World.trace_put, World.trace_acquire]
    simp only [world, List.nil_append, List.append_assoc, List.cons_append] at hold ⊢
    rw [hold]
    exact (run_end h.ty (h.obj.block h.ty) _).append (run_release h.ty _)

omit [FieldOffsets] in
theorem blocks_useRef {U : RustType} (body : Value U → Value U) (w : World) (p : Option Addr) :
    (useRef body w p).mem.blocks = w.mem.blocks := by
  cases p <;> rfl

omit [FieldOffsets] in
theorem run_useRef {U : RustType} (body : Value U → Value U) (s : Ledger) (p : Option Addr)
    {T : RustType} (hT : p ≠ none → U = T) (b : Option Block) :
    Life.Run T (.alive b) (useRef body s.world p).trace (.alive b) := by
  cases p with
  | none => exact .refl
  | some p =>
    obtain rfl := hT (by simp)
    exact .step .access .refl

theorem live_of_held (hs : Inv s) (hx : s.vars x = some h) :
    ∀ b ∈ h.obj.block h.ty, b ∈ s.mem.blocks := fun _ hm =>
  (hs.blocks _).mpr ⟨x, by simpa [blockOf, hx] using hm⟩

/-- A reference from a downcast has been used, or there was none. -/
theorem exchange_useRef (hs : Inv s) (hx : s.vars x = some h) {U : RustType}
    (body : Value U → Value U) {p : Option Addr} (hU : p ≠ none → U = h.ty) :
    Exchange s (s.commit x (some h) (fun _ => h.id) (useRef body s.world p)) x (some h) :=
  exchange_keep hs hx h.addr (blocks_useRef body s.world p) (run_useRef body s p hU _)

theorem exchange_call (hs : Inv s) (hx : s.vars x = some h) {name : String}
    {body : (T : RustType) → Value T → Outcome × Value T} {ends : Outcome}
    (hc : h.obj.call h.addr name body s.world = .ok (ends, w)) :
    Exchange s (s.commit x (some h) (fun _ => h.id) w) x (some h) := by
  rw [DynObject.call_eq (hs.built x h hx).1] at hc
  split at hc
  · obtain ⟨-, rfl⟩ := Prod.mk.inj (Except.ok.inj hc)
    exact exchange_keep hs hx h.addr rfl (.step .access .refl)
  · cases hc

theorem exchange_drop (hs : Inv s) (hx : s.vars x = some h) {outcome : Outcome}
    (hd : h.obj.drop h.addr .returns s.world = .ok (outcome, w)) :
    Exchange s (s.commit x none (fun _ => h.id) w) x none := by
  rw [DynObject.drop_live (hs.built x h hx).1 (live_of_held hs hx)] at hd
  obtain ⟨rfl, rfl⟩ := Prod.mk.inj (Except.ok.inj hd)
  rw [DynObject.afterDrop_returns]
  exact exchange_retire hs hx rfl (run_end h.ty _ _)

/-- `self` moves into the call. There the value is read out, and its life is over,
or the object is returned as it is. -/
theorem exchange_downcast (hs : Inv s) (hx : s.vars x = some h) {U : RustType} {here : Addr}
    {res : Value U ⊕ DynObject h.kind.Carrier}
    (hd : h.obj.downcast here U
      (s.world.moveBytes h.addr here (DynObject.size h.kind.Carrier)) = .ok (res, w)) :
    match res with
    | .inl _ => Exchange s (s.commit x none (fun _ => h.id) w) x none
    | .inr o => o = h.obj ∧ Exchange s
        (s.commit x (some { h with addr := here }) (fun _ => h.id) w) x
        (some { h with addr := here }) := by
  have hbuilt := (hs.built x h hx).1
  by_cases hi : h.obj.is U = true
  · obtain rfl := DynObject.eq_of_is hbuilt hi
    rw [DynObject.downcast_of_is hbuilt hi (live_of_held hs hx)] at hd
    obtain ⟨rfl, rfl⟩ := Prod.mk.inj (Except.ok.inj hd)
    exact exchange_retire hs hx rfl (.step .copy (.step .moveOut .refl))
  · rw [DynObject.downcast_of_not_is (Bool.eq_false_iff.mpr hi)] at hd
    obtain ⟨rfl, rfl⟩ := Prod.mk.inj (Except.ok.inj hd)
    exact ⟨rfl, exchange_keep hs hx here rfl (.step .copy .refl)⟩

theorem insertAt_eq {k : StorageKind} (pinned : Bool) (D : DynTrait)
    (this : Option (DynObject k.Carrier)) (v : Value T) (here tmp answer : Addr) (w : World) :
    insertAt pinned D this v here tmp answer w =
      DynObject.insert D this v here tmp answer .returns w := by
  cases pinned <;> rfl

/-- What one operation can do. -/
theorem step_exchange (hs : Inv s) {op : Op} {out : Outcome} (h : step s op = .ok (out, s')) :
    ∃ x new, Exchange s s' x new := by
  cases op with
  | new x k D T v here answer =>
    cases hx : s.vars x with
    | some _ => simp [step, hx] at h
    | none =>
      simp only [step, hx] at h
      obtain ⟨⟨o, w⟩, ho, h⟩ := bind_ok.mp h
      obtain ⟨-, rfl⟩ := Prod.mk.inj (pure_ok.mp h)
      exact ⟨x, _, exchange_new hs hx ho⟩
  | fromBox x k D T v here answer =>
    cases hx : s.vars x with
    | some _ => simp [step, hx] at h
    | none =>
      simp only [step, hx] at h
      obtain ⟨⟨b, w₀⟩, hb, h⟩ := bind_ok.mp h
      obtain ⟨⟨o, w⟩, ho, h⟩ := bind_ok.mp h
      obtain ⟨-, rfl⟩ := Prod.mk.inj (pure_ok.mp h)
      exact ⟨x, _, exchange_fromBox hs hx hb ho⟩
  | move x dst =>
    cases hx : s.vars x with
    | none => simp [step, hx] at h
    | some held =>
      simp only [step, hx] at h
      obtain ⟨-, rfl⟩ := Prod.mk.inj (Except.ok.inj h)
      exact ⟨x, _, exchange_keep hs hx dst rfl (.step .copy .refl)⟩
  | call x name body =>
    cases hx : s.vars x with
    | none => simp [step, hx] at h
    | some held =>
      simp only [step, hx] at h
      obtain ⟨⟨ends, w⟩, hw, h⟩ := bind_ok.mp h
      obtain ⟨-, rfl⟩ := Prod.mk.inj (pure_ok.mp h)
      exact ⟨x, _, exchange_call hs hx hw⟩
  | downcastRef x U body =>
    cases hx : s.vars x with
    | none => simp [step, hx] at h
    | some held =>
      simp only [step, hx] at h
      obtain ⟨p, hp, h⟩ := bind_ok.mp h
      obtain ⟨-, rfl⟩ := Prod.mk.inj (pure_ok.mp h)
      exact ⟨x, _, exchange_useRef hs hx body (DynObject.downcastRef_some (hs.built x _ hx).1 hp)⟩
  | downcastMut x U body =>
    cases hx : s.vars x with
    | none => simp [step, hx] at h
    | some held =>
      simp only [step, hx] at h
      obtain ⟨p, hp, h⟩ := bind_ok.mp h
      obtain ⟨-, rfl⟩ := Prod.mk.inj (pure_ok.mp h)
      exact ⟨x, _, exchange_useRef hs hx body (DynObject.downcastMut_some (hs.built x _ hx).1 hp)⟩
  | downcast x U here =>
    cases hx : s.vars x with
    | none => simp [step, hx] at h
    | some held =>
      simp only [step, hx] at h
      obtain ⟨⟨res, w⟩, hd, h⟩ := bind_ok.mp h
      have he := exchange_downcast hs hx hd
      cases res with
      | inl v =>
        obtain ⟨-, rfl⟩ := Prod.mk.inj (pure_ok.mp h)
        exact ⟨x, _, he⟩
      | inr o =>
        obtain ⟨-, rfl⟩ := Prod.mk.inj (pure_ok.mp h)
        obtain ⟨rfl, he⟩ := he
        exact ⟨x, _, he⟩
  | insert pinned x k D T v here tmp answer =>
    cases hx : s.vars x with
    | none =>
      simp only [step, hx, insertAt_eq] at h
      obtain ⟨⟨p, o, w⟩, ho, h⟩ := bind_ok.mp h
      obtain ⟨-, rfl⟩ := Prod.mk.inj (pure_ok.mp h)
      exact ⟨x, _, exchange_insert_empty hs hx ho⟩
    | some held =>
      simp only [step, hx, insertAt_eq] at h
      split at h
      · obtain ⟨⟨p, o, w⟩, ho, h⟩ := bind_ok.mp h
        obtain ⟨-, rfl⟩ := Prod.mk.inj (pure_ok.mp h)
        exact ⟨x, _, exchange_insert_over hs hx ho⟩
      · cases h
  | drop x =>
    cases hx : s.vars x with
    | none => simp [step, hx] at h
    | some held =>
      simp only [step, hx] at h
      obtain ⟨⟨outcome, w⟩, hd, h⟩ := bind_ok.mp h
      obtain ⟨-, rfl⟩ := Prod.mk.inj (pure_ok.mp h)
      exact ⟨x, _, exchange_drop hs hx hd⟩

theorem inv_step (hs : Inv s) {op : Op} {out : Outcome} (h : step s op = .ok (out, s')) :
    Inv s' := by
  obtain ⟨x, new, he⟩ := step_exchange hs h
  exact inv_exchange hs he

theorem inv_empty : Inv empty := by
  constructor <;> simp [empty, history, blockOf]
  exact ⟨.nil, by simp⟩

theorem inv_run {ops : List Op} {outs : List Outcome} (h : run step empty ops = .ok (outs, s)) :
    Inv s :=
  run_invariant (fun _ _ _ _ hs h => inv_step hs h) inv_empty h

/-- Every object is complete, and the block that it owns is allocated. -/
def Owned (s : Ledger) : Prop :=
  ∀ x h, s.vars x = some h → h.obj.BuiltFor h.dyn h.ty ∧ ∀ b ∈ h.obj.block h.ty, b ∈ s.mem.blocks

theorem owned_of_inv (hs : Inv s) : Owned s := fun x h hx =>
  ⟨(hs.built x h hx).1, live_of_held hs hx⟩

theorem step_error_of_owned (hs : Owned s) {op : Op} {e : Fault} (h : step s op = .error e) :
    ¬ e.Undefined := by
  have hna : step s op = .error .notAvailable → ¬ e.Undefined := by
    intro hn
    obtain rfl := Except.error.inj (hn.symm.trans h)
    decide
  cases op with
  | new x k D T v here answer =>
    cases hx : s.vars x with
    | some _ => exact hna (by simp [step, hx])
    | none =>
      simp only [step, hx] at h
      rcases bind_error.mp h with ho | ⟨_, _, h⟩
      · exact DynObject.new_error ho
      · exact (pure_ne_error h).elim
  | fromBox x k D T v here answer =>
    cases hx : s.vars x with
    | some _ => exact hna (by simp [step, hx])
    | none =>
      simp only [step, hx] at h
      rcases bind_error.mp h with hb | ⟨⟨b, w₀⟩, hb, h⟩
      · rw [StdBox.new_error hb]
        decide
      obtain ⟨-, rfl⟩ := StdBox.new_ok hb
      rcases bind_error.mp h with ho | ⟨_, _, h⟩
      · refine StorageKind.fromBox_error ?_ ho
        intro c hc
        simp only [World.mem_put, Memory.blocks_store, World.blocks_acquire]
        exact List.mem_append_left _ (Option.mem_toList.mpr hc)
      · exact (pure_ne_error h).elim
  | move x dst =>
    cases hx : s.vars x with
    | none => exact hna (by simp [step, hx])
    | some held => simp [step, hx] at h
  | call x name body =>
    cases hx : s.vars x with
    | none => exact hna (by simp [step, hx])
    | some held =>
      simp only [step, hx] at h
      rcases bind_error.mp h with hc | ⟨_, _, h⟩
      · rw [DynObject.call_eq (hs x held hx).1] at hc
        split at hc
        · cases hc
        · cases hc
          decide
      · exact (pure_ne_error h).elim
  | downcastRef x U body =>
    cases hx : s.vars x with
    | none => exact hna (by simp [step, hx])
    | some held =>
      simp only [step, hx, DynObject.downcastRef_eq (hs x held hx).1] at h
      cases h
  | downcastMut x U body =>
    cases hx : s.vars x with
    | none => exact hna (by simp [step, hx])
    | some held =>
      simp only [step, hx, DynObject.downcastMut_eq (hs x held hx).1] at h
      cases h
  | downcast x U here =>
    cases hx : s.vars x with
    | none => exact hna (by simp [step, hx])
    | some held =>
      have hbuilt := (hs x held hx).1
      simp only [step, hx] at h
      by_cases hi : held.obj.is U = true
      · obtain rfl := DynObject.eq_of_is hbuilt hi
        rw [DynObject.downcast_of_is hbuilt hi (hs x held hx).2] at h
        cases h
      · rw [DynObject.downcast_of_not_is (Bool.eq_false_iff.mpr hi)] at h
        cases h
  | insert pinned x k D T v here tmp answer =>
    cases hx : s.vars x with
    | none =>
      simp only [step, hx, insertAt_eq] at h
      rcases bind_error.mp h with ho | ⟨_, _, h⟩
      · exact DynObject.insert_error (by simp) ho
      · exact (pure_ne_error h).elim
    | some held =>
      simp only [step, hx, insertAt_eq] at h
      split at h
      · rcases bind_error.mp h with ho | ⟨_, _, h⟩
        · refine DynObject.insert_error ?_ ho
          intro old hm
          obtain rfl := Option.mem_some_iff.mp hm
          exact ⟨_, _, (hs x held hx).1, (hs x held hx).2⟩
        · exact (pure_ne_error h).elim
      · cases h
        decide
  | drop x =>
    cases hx : s.vars x with
    | none => exact hna (by simp [step, hx])
    | some held =>
      simp only [step, hx] at h
      rw [DynObject.drop_live (hs x held hx).1 (hs x held hx).2] at h
      cases h

/-- No operation of a program that builds is undefined behavior, in particular
none releases what is not a live block. -/
theorem step_error (hs : Inv s) {op : Op} {e : Fault} (h : step s op = .error e) :
    ¬ e.Undefined :=
  step_error_of_owned (owned_of_inv hs) h

end DynUtils.Ledger
