import DynUtils.LedgerExact

/-! What the heap is used for: the values that their storage cannot keep in place. -/
namespace DynUtils

open FlatMemory Machine LawfulStorage

namespace StorageKind

/-- Objects of this storage keep a `T` within themselves. -/
def inPlace : StorageKind → RustType → Bool
  | raw _ _, _ => true
  | box, _ => false
  | rawOrBox alloc SIZE ALIGN, T => !alloc || Raw.canStore SIZE ALIGN T

/-- The blocks that are kept for a `T` in this storage. -/
def blocksFor (k : StorageKind) (T : RustType) : ℕ := if k.inPlace T ∨ T.size = 0 then 0 else 1

/-- What cannot take a box over never has one. -/
theorem blocksFor_eq_zero {k : StorageKind} (h : ¬ k.HasFromBox) (T : RustType) :
    k.blocksFor T = 0 := by
  cases k with
  | raw _ _ => rfl
  | box => exact absurd trivial h
  | rawOrBox alloc _ _ =>
    cases alloc with
    | false => rfl
    | true => exact absurd trivial h

variable [FieldOffsets] {k : StorageKind} {T : RustType}

theorem boxed_eq_none_iff {s : k.Carrier} (h : Constructed T s) :
    boxed s = none ↔ k.inPlace T = true := by
  match k with
  | raw _ _ => exact iff_of_true rfl rfl
  | box => exact iff_of_false (Option.some_ne_none _) Bool.false_ne_true
  | rawOrBox alloc SIZE ALIGN =>
    have hc : RawOrBox.Coherent T s := h
    obtain ⟨_ | ⟨feature, b⟩⟩ := s
    · have hr : Raw.canStore SIZE ALIGN T = true := hc.symm
      simp [inPlace, hr, boxed, RawOrBox.boxed]
    · have hr : Raw.canStore SIZE ALIGN T = false := hc.symm
      simp [inPlace, hr, feature, boxed, RawOrBox.boxed]

theorem length_block {D : DynTrait} {o : DynObject k.Carrier} (h : o.BuiltFor D T) :
    (o.block T).toList.length = k.blocksFor T := by
  have hb := boxed_eq_none_iff h.constructed
  unfold DynObject.block ownedBlock boxBlock blocksFor
  cases hp : boxed o.storage <;> simp_all
  split <;> simp_all

theorem mem_block_place {D : DynTrait} {o : DynObject k.Carrier} {b : Block} (h : o.BuiltFor D T)
    (here : Addr) : b ∈ o.block T ↔
      k.inPlace T = false ∧ T.size ≠ 0 ∧ b = ⟨o.place here, T.layout⟩ := by
  have hb := boxed_eq_none_iff h.constructed
  rw [DynObject.block, DynObject.place, ptr_eq, ownedBlock]
  cases hp : boxed o.storage with
  | none => simp [hb.mp hp]
  | some p =>
    have hk : k.inPlace T = false := by
      rw [← Bool.not_eq_true, ← hb, hp]
      exact Option.some_ne_none p
    simp [hk, boxBlock, eq_comm]

end StorageKind

namespace Event

def isAlloc : Event → Bool
  | alloc _ => true
  | _ => false

def isDealloc : Event → Bool
  | dealloc _ => true
  | _ => false

end Event

/-- The way from one world to another takes `n` blocks from the allocator, and accounts for
those that it gives back. -/
structure World.Takes (n : ℕ) (w w' : World) : Prop where
  allocs : w'.trace.countP Event.isAlloc = w.trace.countP Event.isAlloc + n
  balance : w'.mem.blocks.length + w'.trace.countP Event.isDealloc =
    w.mem.blocks.length + w.trace.countP Event.isDealloc + n

namespace World
variable {w w₁ w₂ : World} {n m : ℕ}

theorem Takes.refl (w : World) : w.Takes 0 w := ⟨rfl, rfl⟩

theorem Takes.trans (h : w.Takes n w₁) (h' : w₁.Takes m w₂) : w.Takes (n + m) w₂ := by
  have ha := h.allocs
  have ha' := h'.allocs
  have hb := h.balance
  have hb' := h'.balance
  constructor <;> omega

theorem takes_record {e : Event} (ha : e.isAlloc = false) (hd : e.isDealloc = false) :
    w.Takes 0 (w.record e) := by
  constructor <;> simp [List.countP_append, ha, hd]

theorem takes_write {T : RustType} (p : Addr) (v : Value T) : w.Takes 0 (w.write p v) := ⟨rfl, rfl⟩

theorem takes_put {T : RustType} (p : Addr) (v : Value T) : w.Takes 0 (w.put p v) :=
  (takes_write p v).trans (takes_record rfl rfl)

theorem takes_moveBytes (src dst n : ℕ) : w.Takes 0 (w.moveBytes src dst n) := by
  constructor <;> simp [List.countP_append, Event.isAlloc, Event.isDealloc]

theorem takes_acquire (b : Option Block) : w.Takes b.toList.length (w.acquire b) := by
  cases b with
  | none => exact Takes.refl w
  | some b =>
    constructor <;>
      simp [acquire, List.countP_append, Event.isAlloc, Event.isDealloc, Nat.add_right_comm]

theorem takes_released {b : Option Block} (h : ∀ c ∈ b, c ∈ w.mem.blocks) :
    w.Takes 0 (w.released b) := by
  cases b with
  | none => exact Takes.refl w
  | some b =>
    have hb : b ∈ w.mem.blocks := h b rfl
    have hlen := List.length_erase_add_one hb
    constructor
    · simp [released, List.countP_append, Event.isAlloc]
    · simp [released, List.countP_append, Event.isDealloc]
      omega

end World

namespace Ledger

variable [FieldOffsets] {s s' : Ledger} {w : World}

def allocs (s : Ledger) : ℕ := s.log.countP fun entry => entry.2.isAlloc

def deallocs (s : Ledger) : ℕ := s.log.countP fun entry => entry.2.isDealloc

/-- The blocks that an operation asks for. A `Box` that is made for `from_box` has its own. -/
def asks (s : Ledger) : Op → ℕ
  | .new _ k _ T _ _ _ => k.blocksFor T
  | .fromBox _ _ _ T _ _ _ => StorageKind.box.blocksFor T
  | .insert _ x k _ T _ _ _ _ =>
    match s.vars x with
    | none => k.blocksFor T
    | some h => h.kind.blocksFor T
  | _ => 0

omit [FieldOffsets] in
/-- What the world of an operation says of the ledger. -/
theorem commit_takes {n x : ℕ} {c : Option Held} {about : Event → ℕ} (h : s.world.Takes n w) :
    (s.commit x c about w).allocs = s.allocs + n ∧
      (s.commit x c about w).mem.blocks.length + (s.commit x c about w).deallocs =
        s.mem.blocks.length + s.deallocs + n := by
  have ha := h.allocs
  have hb := h.balance
  simp only [world, List.countP_nil] at ha hb
  have hcount : ∀ p : Event → Bool, (s.commit x c about w).log.countP (fun entry => p entry.2) =
      s.log.countP (fun entry => p entry.2) + w.trace.countP p := by
    intro p
    rw [commit, List.countP_append, List.countP_map]
    rfl
  rw [allocs, deallocs, hcount, hcount, allocs, deallocs]
  change _ ∧ w.mem.blocks.length + _ = _
  constructor <;> omega

omit [FieldOffsets] in
theorem enroll_takes {n x : ℕ} {h : Held} {about : Event → ℕ} (ht : s.world.Takes n w) :
    (s.enroll x h about w).allocs = s.allocs + n ∧
      (s.enroll x h about w).mem.blocks.length + (s.enroll x h about w).deallocs =
        s.mem.blocks.length + s.deallocs + n :=
  @commit_takes s w n x (some h) about ht

section
variable {k : StorageKind} {D : DynTrait} {T : RustType} {o : DynObject k.Carrier} {w' : World}

theorem takes_new {v : Value T} {here answer : Addr}
    (h : DynObject.new D v here answer w = .ok (o, w')) : w.Takes (k.blocksFor T) w' := by
  obtain ⟨hb, -, rfl⟩ := DynObject.new_ok h
  have ht := (World.takes_acquire (w := w) (o.block T)).trans (World.takes_put (o.place here) v)
  rwa [StorageKind.length_block hb] at ht

/-- The box takes its block; the storage keeps it, or gives it back. -/
theorem takes_fromBox {v : Value T} {here answer : Addr} {b : StdBox T} {w₁ : World}
    (hb : StdBox.new v answer w = .ok (b, w₁)) (h : k.fromBox D b here w₁ = .ok (o, w')) :
    w.Takes (StorageKind.box.blocksFor T) w' := by
  obtain ⟨-, rfl⟩ := StdBox.new_ok hb
  have hlen : (boxBlock T b.ptr).toList.length = StorageKind.box.blocksFor T := by
    unfold boxBlock StorageKind.blocksFor
    split <;> simp_all [StorageKind.inPlace]
  have hbox := (World.takes_acquire (w := w) (boxBlock T b.ptr)).trans (World.takes_put b.ptr v)
  rw [hlen] at hbox
  obtain ⟨-, ⟨-, rfl⟩ | ⟨-, w₂, hr, rfl⟩⟩ := StorageKind.fromBox_ok h
  · exact hbox
  · obtain ⟨hlive, rfl⟩ := World.release_ok.mp hr
    exact hbox.trans ((World.takes_record rfl rfl).trans
      ((World.takes_released hlive).trans (World.takes_put _ _)))

theorem takes_call (hb : o.BuiltFor D T) {R : Type} {name : String} {here : Addr}
    {body : (T : RustType) → Value T → R × Value T} {r : R}
    (h : o.call here name body w = .ok (r, w')) : w.Takes 0 w' := by
  rw [DynObject.call_eq hb] at h
  split at h
  · obtain ⟨-, rfl⟩ := Prod.mk.inj (Except.ok.inj h)
    exact (World.takes_record rfl rfl).trans (World.takes_write _ _)
  · cases h

omit [FieldOffsets] in
theorem takes_useRef {U : RustType} (body : Value U → Value U) (w : World) (p : Option Addr) :
    w.Takes 0 (useRef body w p) := by
  cases p with
  | none => exact World.Takes.refl w
  | some p => exact (World.takes_record rfl rfl).trans (World.takes_write _ _)

omit [FieldOffsets] in
theorem takes_end (w : World) (p : Addr) : w.Takes 0 (w.record (DynObject.endEvent T p)) := by
  unfold DynObject.endEvent
  split <;> exact World.takes_record rfl rfl

theorem takes_drop (hb : o.BuiltFor D T) (hlive : ∀ b ∈ o.block T, b ∈ w.mem.blocks)
    {here : Addr} {outcome : Outcome} (h : o.drop here .returns w = .ok (outcome, w')) :
    w.Takes 0 w' := by
  rw [DynObject.drop_live hb hlive] at h
  obtain ⟨-, rfl⟩ := Prod.mk.inj (Except.ok.inj h)
  rw [DynObject.afterDrop_returns]
  exact (takes_end w _).trans (World.takes_released hlive)

theorem takes_downcast (hb : o.BuiltFor D T) (hlive : ∀ b ∈ o.block T, b ∈ w.mem.blocks)
    {U : RustType} {src here : Addr} {n : ℕ} {res : Value U ⊕ DynObject k.Carrier}
    (h : o.downcast here U (w.moveBytes src here n) = .ok (res, w')) : w.Takes 0 w' := by
  have hmove := World.takes_moveBytes (w := w) src here n
  by_cases hi : o.is U = true
  · obtain rfl := DynObject.eq_of_is hb hi
    rw [DynObject.downcast_of_is hb hi (by simpa using hlive)] at h
    obtain ⟨-, rfl⟩ := Prod.mk.inj (Except.ok.inj h)
    exact hmove.trans ((World.takes_record rfl rfl).trans (World.takes_released (by simpa using hlive)))
  · rw [DynObject.downcast_of_not_is (Bool.eq_false_iff.mpr hi)] at h
    obtain ⟨-, rfl⟩ := Prod.mk.inj (Except.ok.inj h)
    exact hmove

theorem takes_insert {this : Option (DynObject k.Carrier)} {v : Value T} {here tmp answer : Addr}
    {p : Option Addr} (hold : ∀ old ∈ this, ∃ D' T', old.BuiltFor D' T' ∧
      ∀ b ∈ old.block T', b ∈ w.mem.blocks)
    (h : DynObject.insert D this v here tmp answer .returns w = .ok (p, o, w')) :
    w.Takes (k.blocksFor T) w' := by
  obtain ⟨w₁, hn⟩ := DynObject.new_of_insert h
  have hnew := takes_new hn
  obtain ⟨-, -, rfl⟩ := DynObject.new_ok hn
  obtain ⟨-, -, outcome, w₂, hd, hset⟩ := DynObject.insert_ok h
  have hdrop : ((w.acquire (o.block T)).put (o.place tmp) v).Takes 0 w₂ := by
    cases this with
    | none =>
      obtain ⟨-, rfl⟩ := Prod.mk.inj (Except.ok.inj hd)
      exact World.Takes.refl _
    | some old =>
      obtain ⟨D', T', hb, hlive⟩ := hold old rfl
      exact takes_drop hb (DynObject.live_acquire_put hlive) hd
  have hsettle : w₂.Takes 0 (o.settle T here tmp outcome w₂).2 := by
    cases outcome with
    | unwinds => exact World.takes_moveBytes _ _ _
    | returns => exact (World.takes_moveBytes _ _ _).trans (World.takes_record rfl rfl)
  obtain ⟨-, rfl⟩ := Prod.mk.inj hset
  exact hnew.trans (hdrop.trans hsettle)

end

/-- What one operation asks for is what it takes. -/
theorem step_takes (hs : Inv s) {op : Op} {out : Outcome} (h : step s op = .ok (out, s')) :
    s'.allocs = s.allocs + s.asks op ∧
      s'.mem.blocks.length + s'.deallocs = s.mem.blocks.length + s.deallocs + s.asks op := by
  cases op with
  | new x k D T v here answer =>
    cases hx : s.vars x with
    | some _ => simp [step, hx] at h
    | none =>
      simp only [step, hx] at h
      obtain ⟨⟨o, w⟩, ho, h⟩ := bind_ok.mp h
      obtain ⟨-, rfl⟩ := Prod.mk.inj (pure_ok.mp h)
      exact enroll_takes (takes_new ho)
  | fromBox x k D T v here answer =>
    cases hx : s.vars x with
    | some _ => simp [step, hx] at h
    | none =>
      simp only [step, hx] at h
      obtain ⟨⟨b, w₀⟩, hb, h⟩ := bind_ok.mp h
      obtain ⟨⟨o, w⟩, ho, h⟩ := bind_ok.mp h
      obtain ⟨-, rfl⟩ := Prod.mk.inj (pure_ok.mp h)
      exact enroll_takes (takes_fromBox hb ho)
  | move x dst =>
    cases hx : s.vars x with
    | none => simp [step, hx] at h
    | some held =>
      simp only [step, hx] at h
      obtain ⟨-, rfl⟩ := Prod.mk.inj (Except.ok.inj h)
      exact commit_takes (World.takes_moveBytes _ _ _)
  | call x name body =>
    cases hx : s.vars x with
    | none => simp [step, hx] at h
    | some held =>
      simp only [step, hx] at h
      obtain ⟨⟨ends, w⟩, hw, h⟩ := bind_ok.mp h
      obtain ⟨-, rfl⟩ := Prod.mk.inj (pure_ok.mp h)
      exact commit_takes (takes_call (hs.built x _ hx).1 hw)
  | downcastRef x U body =>
    cases hx : s.vars x with
    | none => simp [step, hx] at h
    | some held =>
      simp only [step, hx] at h
      obtain ⟨p, hp, h⟩ := bind_ok.mp h
      obtain ⟨-, rfl⟩ := Prod.mk.inj (pure_ok.mp h)
      exact commit_takes (takes_useRef body s.world p)
  | downcastMut x U body =>
    cases hx : s.vars x with
    | none => simp [step, hx] at h
    | some held =>
      simp only [step, hx] at h
      obtain ⟨p, hp, h⟩ := bind_ok.mp h
      obtain ⟨-, rfl⟩ := Prod.mk.inj (pure_ok.mp h)
      exact commit_takes (takes_useRef body s.world p)
  | downcast x U here =>
    cases hx : s.vars x with
    | none => simp [step, hx] at h
    | some held =>
      simp only [step, hx] at h
      obtain ⟨⟨res, w⟩, hd, h⟩ := bind_ok.mp h
      have ht := takes_downcast (hs.built x _ hx).1 (live_of_held hs hx) hd
      cases res with
      | inl v =>
        obtain ⟨-, rfl⟩ := Prod.mk.inj (pure_ok.mp h)
        exact commit_takes ht
      | inr o =>
        obtain ⟨-, rfl⟩ := Prod.mk.inj (pure_ok.mp h)
        exact commit_takes ht
  | insert pinned x k D T v here tmp answer =>
    cases hx : s.vars x with
    | none =>
      simp only [step, hx, insertAt_eq] at h
      obtain ⟨⟨p, o, w⟩, ho, h⟩ := bind_ok.mp h
      obtain ⟨-, rfl⟩ := Prod.mk.inj (pure_ok.mp h)
      simp only [asks, hx]
      exact enroll_takes (takes_insert (by simp) ho)
    | some held =>
      simp only [step, hx, insertAt_eq] at h
      split at h
      · obtain ⟨⟨p, o, w⟩, ho, h⟩ := bind_ok.mp h
        obtain ⟨-, rfl⟩ := Prod.mk.inj (pure_ok.mp h)
        simp only [asks, hx]
        refine enroll_takes (takes_insert ?_ ho)
        intro old hm
        obtain rfl := Option.mem_some_iff.mp hm
        exact ⟨_, _, (hs.built x _ hx).1, live_of_held hs hx⟩
      · cases h
  | drop x =>
    cases hx : s.vars x with
    | none => simp [step, hx] at h
    | some held =>
      simp only [step, hx] at h
      obtain ⟨⟨outcome, w⟩, hd, h⟩ := bind_ok.mp h
      obtain ⟨-, rfl⟩ := Prod.mk.inj (pure_ok.mp h)
      exact commit_takes (takes_drop (hs.built x _ hx).1 (live_of_held hs hx) hd)

/-- Of what was allocated, what was not given back is live. -/
theorem balance_of_run {ops : List Op} {outs : List Outcome}
    (h : run step empty ops = .ok (outs, s)) :
    s.allocs = total step asks empty ops ∧ s.mem.blocks.length + s.deallocs = s.allocs := by
  have hallocs := run_total (fun _ _ _ _ hs ha => ⟨inv_step hs ha, (step_takes hs ha).1⟩) inv_empty h
  have hbalance := run_total (fun _ _ _ _ hs ha => ⟨inv_step hs ha, (step_takes hs ha).2⟩) inv_empty h
  simp only [allocs, deallocs, empty, List.countP_nil, List.length_nil, Nat.zero_add] at hallocs hbalance
  exact ⟨hallocs, hbalance.trans hallocs.symm⟩

/-- The values that their storage cannot keep in place, and no others, are on the heap: each
block is that of a live one, and a run asks the allocator once for each that it constructs. -/
theorem heap_of_run {ops : List Op} {outs : List Outcome}
    (h : run step empty ops = .ok (outs, s)) :
    s.allocs = total step asks empty ops ∧ s.mem.blocks.length + s.deallocs = s.allocs ∧
      ∀ b, b ∈ s.mem.blocks ↔ ∃ x held, s.vars x = some held ∧
        held.kind.inPlace held.ty = false ∧ held.ty.size ≠ 0 ∧
        b = ⟨held.obj.place held.addr, held.ty.layout⟩ := by
  have hs := inv_run h
  obtain ⟨hallocs, hbalance⟩ := balance_of_run h
  refine ⟨hallocs, hbalance, fun b => ?_⟩
  rw [hs.blocks b]
  simp only [mem_blockOf]
  exact exists_congr fun x => exists_congr fun held => and_congr_right fun hx =>
    StorageKind.mem_block_place (hs.built x held hx).1 held.addr

omit [FieldOffsets] in
/-- `insertDrop` needs the block of the box, and one for the value that is too large. -/
theorem heap_of_run_insertDrop :
    ∃ outs s, run (@step .tagFirst) empty insertDrop = .ok (outs, s) ∧ s.allocs = 2 ∧
      s.mem.blocks.length + s.deallocs = 2 := by
  have h : ∃ outs s, run (@step .tagFirst) empty insertDrop = .ok (outs, s) := ⟨_, _, rfl⟩
  obtain ⟨outs, s, h⟩ := h
  obtain ⟨hallocs, hbalance, -⟩ := @heap_of_run .tagFirst _ _ _ h
  have htotal : total (@step .tagFirst) asks empty insertDrop = 2 := rfl
  exact ⟨outs, s, h, hallocs.trans htotal, hbalance.trans (hallocs.trans htotal)⟩

/-- All objects that the operation constructs are in `Raw` storages, or in `RawOrBox` where the
crate is built without `alloc`. -/
def Op.OnRaw : Op → Prop
  | .new _ k _ _ _ _ _ | .insert _ _ k _ _ _ _ _ _ => ¬ k.HasFromBox
  | .fromBox .. => False
  | _ => True

/-- All objects are in such storages. -/
def OnRaw (s : Ledger) : Prop := ∀ x h, s.vars x = some h → ¬ h.kind.HasFromBox

omit [FieldOffsets] in
theorem onRaw_update (hs : s.OnRaw) {x : ℕ} {new : Option Held}
    (hv : s'.vars = Function.update s.vars x new)
    (hnew : ∀ h ∈ new, ¬ h.kind.HasFromBox) : s'.OnRaw := by
  intro y h hy
  rw [hv] at hy
  by_cases hyx : y = x
  · subst hyx
    exact hnew h (by simpa using hy)
  · exact hs y h (by simpa [hyx] using hy)

theorem onRaw_step (hs : s.OnRaw) {op : Op} {out : Outcome} (hop : op.OnRaw)
    (h : step s op = .ok (out, s')) : s'.OnRaw := by
  cases op with
  | new x k D T v here answer =>
    cases hx : s.vars x with
    | some _ => simp [step, hx] at h
    | none =>
      simp only [step, hx] at h
      obtain ⟨_, -, h⟩ := bind_ok.mp h
      obtain ⟨-, rfl⟩ := Prod.mk.inj (pure_ok.mp h)
      exact onRaw_update hs rfl (by simpa [Op.OnRaw] using hop)
  | fromBox x k D T v here answer => exact hop.elim
  | move x dst =>
    cases hx : s.vars x with
    | none => simp [step, hx] at h
    | some held =>
      simp only [step, hx] at h
      obtain ⟨-, rfl⟩ := Prod.mk.inj (Except.ok.inj h)
      exact onRaw_update hs rfl (by simpa using hs x held hx)
  | call x name body =>
    cases hx : s.vars x with
    | none => simp [step, hx] at h
    | some held =>
      simp only [step, hx] at h
      obtain ⟨_, -, h⟩ := bind_ok.mp h
      obtain ⟨-, rfl⟩ := Prod.mk.inj (pure_ok.mp h)
      exact onRaw_update hs rfl (by simpa using hs x held hx)
  | downcastRef x U body | downcastMut x U body =>
    cases hx : s.vars x with
    | none => simp [step, hx] at h
    | some held =>
      simp only [step, hx] at h
      obtain ⟨_, -, h⟩ := bind_ok.mp h
      obtain ⟨-, rfl⟩ := Prod.mk.inj (pure_ok.mp h)
      exact onRaw_update hs rfl (by simpa using hs x held hx)
  | downcast x U here =>
    cases hx : s.vars x with
    | none => simp [step, hx] at h
    | some held =>
      simp only [step, hx] at h
      obtain ⟨⟨res, w⟩, -, h⟩ := bind_ok.mp h
      cases res with
      | inl v =>
        obtain ⟨-, rfl⟩ := Prod.mk.inj (pure_ok.mp h)
        exact onRaw_update hs rfl (by simp)
      | inr o =>
        obtain ⟨-, rfl⟩ := Prod.mk.inj (pure_ok.mp h)
        exact onRaw_update hs rfl (by simpa using hs x held hx)
  | insert pinned x k D T v here tmp answer =>
    cases hx : s.vars x with
    | none =>
      simp only [step, hx] at h
      obtain ⟨_, -, h⟩ := bind_ok.mp h
      obtain ⟨-, rfl⟩ := Prod.mk.inj (pure_ok.mp h)
      exact onRaw_update hs rfl (by simpa [Op.OnRaw] using hop)
    | some held =>
      simp only [step, hx] at h
      split at h
      · obtain ⟨_, -, h⟩ := bind_ok.mp h
        obtain ⟨-, rfl⟩ := Prod.mk.inj (pure_ok.mp h)
        exact onRaw_update hs rfl (by simpa using hs x held hx)
      · cases h
  | drop x =>
    cases hx : s.vars x with
    | none => simp [step, hx] at h
    | some held =>
      simp only [step, hx] at h
      obtain ⟨_, -, h⟩ := bind_ok.mp h
      obtain ⟨-, rfl⟩ := Prod.mk.inj (pure_ok.mp h)
      exact onRaw_update hs rfl (by simp)

omit [FieldOffsets] in
theorem asks_onRaw (hs : s.OnRaw) {op : Op} (hop : op.OnRaw) : s.asks op = 0 := by
  cases op with
  | new x k D T v here answer => exact StorageKind.blocksFor_eq_zero hop T
  | fromBox x k D T v here answer => exact hop.elim
  | insert pinned x k D T v here tmp answer =>
    simp only [asks]
    cases hx : s.vars x with
    | none => exact StorageKind.blocksFor_eq_zero hop T
    | some held => exact StorageKind.blocksFor_eq_zero (hs x held hx) T
  | _ => rfl

/-- With such storages only, nothing is ever allocated. -/
theorem raw_allocation_free {ops : List Op} {outs : List Outcome} (hraw : ∀ op ∈ ops, op.OnRaw)
    (h : run step empty ops = .ok (outs, s)) :
    s.allocs = 0 ∧ s.deallocs = 0 ∧ s.mem.blocks = [] := by
  have hstep : ∀ (s : Ledger) (op : Op) (out : Outcome) (t : Ledger),
      s.OnRaw ∧ Inv s ∧ s.allocs = 0 → op.OnRaw → step s op = .ok (out, t) →
      t.OnRaw ∧ Inv t ∧ t.allocs = 0 := by
    intro s op out t ⟨hs, hinv, hz⟩ hop ht
    refine ⟨onRaw_step hs hop ht, inv_step hinv ht, ?_⟩
    rw [(step_takes hinv ht).1, hz, asks_onRaw hs hop]
  have hempty : empty.OnRaw ∧ Inv empty ∧ empty.allocs = 0 :=
    ⟨fun _ _ hx => (by cases hx), inv_empty, rfl⟩
  obtain ⟨-, -, hz⟩ := run_invariant_along hstep hempty
    (along_of_forall fun op hop _ => hraw op hop) h
  have hbalance := (balance_of_run h).2
  rw [hz] at hbalance
  exact ⟨hz, by omega, List.eq_nil_of_length_eq_zero (by omega)⟩

/-- A value that is replaced in its slot, and a downcast. -/
def rawOnly : List Op :=
  [.insert false 0 (.raw 8 8) .any (.droppable 1 2) (fun _ => some 1) 64 128 4096,
    .insert true 0 (.raw 8 8) .any (.droppable 2 3) (fun _ => some 2) 64 128 4096,
    .downcast 0 (.droppable 2 3) 256]

omit [FieldOffsets] in
theorem raw_allocation_free_rawOnly :
    ∃ outs s, run (@step .tagFirst) empty rawOnly = .ok (outs, s) ∧ s.allocs = 0 ∧
      s.deallocs = 0 ∧ s.mem.blocks = [] := by
  have h : ∃ outs s, run (@step .tagFirst) empty rawOnly = .ok (outs, s) := ⟨_, _, rfl⟩
  obtain ⟨outs, s, h⟩ := h
  have hraw : ∀ op ∈ rawOnly, op.OnRaw := by simp [rawOnly, Op.OnRaw, StorageKind.HasFromBox]
  exact ⟨outs, s, h, @raw_allocation_free .tagFirst _ _ _ hraw h⟩

end Ledger

end DynUtils
