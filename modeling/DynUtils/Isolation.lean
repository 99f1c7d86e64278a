import DynUtils.LedgerExact
import DynUtils.Pinning

/-! Any number of objects in one memory are as many typed values, each on its own. -/
namespace DynUtils.Isolation

open FlatMemory Machine LawfulStorage
open Ledger (Op Inv)

/-- A value, and the trait object type that it is behind. -/
structure Content where
  dyn : DynTrait
  ty : RustType
  value : Value ty

/-- The values in the variables of a program. -/
abbrev Contents := ℕ → Option Content

/-- A value of the variable that the operation lets the program see. -/
abbrev Seen := Option ((T : RustType) × Value T)

namespace Content

/-- The value as a `U`, which only a `dyn Any` of that type has. -/
def view (c : Content) (U : RustType) : Option (Value U) :=
  match c.dyn with
  | .any => if h : c.ty = U then some (h ▸ c.value) else none
  | .trait _ => none

def use (c : Content) (U : RustType) (body : Value U → Value U) : Content :=
  match c.view U with
  | none => c
  | some v => ⟨c.dyn, U, body v⟩

end Content

def seen (c : Option Content) (U : RustType) : Seen :=
  c.bind fun c => (c.view U).map (⟨U, ·⟩)

/-- What an operation means for the values alone. -/
def perform (c : Contents) : Op → (Outcome × Seen) × Contents
  | .new x _ D T v _ _ | .fromBox x _ D T v _ _ =>
    ((.returns, none), Function.update c x (some ⟨D, T, v⟩))
  | .move _ _ => ((.returns, none), c)
  | .call x _ body =>
    match c x with
    | none => ((.returns, none), c)
    | some ⟨D, T, v⟩ =>
      (((body T v).1, none), Function.update c x (some ⟨D, T, (body T v).2⟩))
  | .downcastRef x U body | .downcastMut x U body =>
    ((.returns, seen (c x) U), Function.update c x ((c x).map (·.use U body)))
  | .downcast x U _ =>
    ((.returns, seen (c x) U), if (seen (c x) U).isSome then Function.update c x none else c)
  | .insert _ x _ D T v _ _ _ =>
    ((.returns, some ⟨T, v⟩), Function.update c x (some ⟨((c x).map (·.dyn)).getD D, T, v⟩))
  | .drop x => ((.returns, none), Function.update c x none)

variable [FieldOffsets]

/-- The bytes of an object. -/
abbrev extent (h : Held) : ℕ := DynObject.size h.kind.Carrier

def contentOf (w : World) (h : Held) : Content :=
  ⟨h.dyn, h.ty, w.read h.ty (h.obj.place h.addr)⟩

/-- The values that the variables of the ledger hold, as they lie in memory. -/
def contents (s : Ledger) : Contents := fun x => (s.vars x).map (contentOf s.world)

/-- The value behind the reference that an insertion returns. -/
def inserted {O : Type} (T : RustType) : Except Fault (Option Addr × O × World) → Seen
  | .ok (some p, _, w) => some ⟨T, w.read T p⟩
  | _ => none

/-- What the operations give the program to see. -/
def given (s : Ledger) : Op → Seen
  | .downcastRef x U _ =>
    match s.vars x with
    | none => none
    | some h => match h.obj.downcastRef h.addr U with
      | .ok (some p) => some ⟨U, s.world.read U p⟩
      | _ => none
  | .downcastMut x U _ =>
    match s.vars x with
    | none => none
    | some h => match h.obj.downcastMut h.addr U with
      | .ok (some p) => some ⟨U, s.world.read U p⟩
      | _ => none
  | .downcast x U here =>
    match s.vars x with
    | none => none
    | some h => match h.obj.downcast here U (s.world.moveBytes h.addr here (extent h)) with
      | .ok (.inl v, _) => some ⟨U, v⟩
      | _ => none
  | .insert pinned x k D T v here tmp answer =>
    match s.vars x with
    | none =>
      inserted T (Ledger.insertAt (k := k) pinned D none v here tmp answer s.world)
    | some h => inserted T (Ledger.insertAt pinned h.dyn (some h.obj) v here tmp answer s.world)
  | _ => none

/-- A step of the ledger, with all that the program sees of it. -/
def visible (s : Ledger) (op : Op) : Except Fault ((Outcome × Seen) × Ledger) :=
  (Ledger.step s op).map fun (out, t) => ((out, given s op), t)

/-- No variable but `x`, and no block of the heap, has a part of the range. -/
structure Vacant (s : Ledger) (x p n : ℕ) : Prop where
  vars : ∀ y h, y ≠ x → s.vars y = some h → Apart p n h.addr (extent h)
  blocks : ∀ b ∈ s.mem.blocks, b.Apart p n

/-- A block for a `T` that the allocator hands out: fresh, and apart from the variables and
from the `n` bytes at each of `ps`. -/
structure Answers (s : Ledger) (T : RustType) (answer : Addr) (ps : List Addr) (n : ℕ) : Prop where
  fresh : s.mem.Fresh answer T.layout
  vars : ∀ y h, s.vars y = some h → Apart answer T.size h.addr (extent h)
  places : ∀ p ∈ ps, Apart answer T.size p n

/-- The program builds, and its compiler and allocator put things where nothing else is. -/
def Allowed (s : Ledger) : Op → Prop
  | .new x k _ T _ here answer =>
    let n := DynObject.size k.Carrier
    s.vars x = none ∧ k.Fits T ∧ Vacant s x here n ∧ Answers s T answer [here] n
  | .fromBox x k _ T _ here answer =>
    let n := DynObject.size k.Carrier
    s.vars x = none ∧ k.HasFromBox ∧ Vacant s x here n ∧ Answers s T answer [here] n
  | .move x dst | .downcast x _ dst => ∃ h, s.vars x = some h ∧ Vacant s x dst (extent h)
  | .call x name _ => ∃ h, s.vars x = some h ∧ (h.dyn.receiver name).isSome
  | .downcastRef x _ _ | .downcastMut x _ _ | .drop x => ∃ h, s.vars x = some h
  | .insert _ x k _ T _ here tmp answer =>
    match s.vars x with
    | none =>
      let n := DynObject.size k.Carrier
      let slot := DynObject.someAt k.Carrier here
      k.Fits T ∧ Vacant s x slot n ∧ Vacant s x tmp n ∧ Answers s T answer [slot, tmp] n
    | some h =>
      h.kind.Fits T ∧ h.addr = DynObject.someAt h.kind.Carrier here ∧ Vacant s x tmp (extent h) ∧
        Answers s T answer [tmp] (extent h)

/-- The objects lie apart from each other and from the heap. -/
structure Placed (s : Ledger) : Prop where
  vars : ∀ x y h h', s.vars x = some h → s.vars y = some h' → y ≠ x →
    Apart h.addr (extent h) h'.addr (extent h')
  blocks : ∀ x h, s.vars x = some h → ∀ b ∈ s.mem.blocks, b.Apart h.addr (extent h)

variable {s t : Ledger} {x y p n : ℕ} {h h' : Held} {w w' : World} {T U : RustType} {answer : Addr}

/-! The values of the other variables, while an operation on `x` goes on. -/

/-- The range is in none of the other objects. -/
def Clear (s : Ledger) (x p n : ℕ) : Prop :=
  ∀ y h, y ≠ x → s.vars y = some h →
    Apart p n h.addr (extent h) ∧ ∀ b ∈ h.obj.block h.ty, b.Apart p n

/-- The other variables hold in `w` what they hold in the ledger. -/
def Kept (s : Ledger) (x : ℕ) (w : World) : Prop :=
  ∀ y h, y ≠ x → s.vars y = some h → contentOf w h = contentOf s.world h

/-- A range that is in no part of an object is not in its value. -/
theorem apart_value (hb : h.obj.BuiltFor h.dyn h.ty) (hslot : Apart p n h.addr (extent h))
    (hblock : ∀ b ∈ h.obj.block h.ty, b.Apart p n) :
    Apart p n (h.obj.place h.addr) h.ty.size := by
  rcases Pinning.place_cases hb h.addr with hz | ⟨hlo, hhi⟩ | ⟨-, hb⟩
  · exact Or.inr (Or.inl hz)
  · exact apart_comm ((apart_comm hslot).mono hlo hhi)
  · exact apart_comm (hblock _ hb)

theorem Vacant.clear (hs : Inv s) (hv : Vacant s x p n) : Clear s x p n := by
  intro y h hy hh
  exact ⟨hv.vars y h hy hh, fun b hb => hv.blocks b (Ledger.live_of_held hs hh b hb)⟩

theorem Answers.clear {ps : List Addr} (hs : Inv s) (ha : Answers s T answer ps n) (x : ℕ) :
    Clear s x answer T.size := by
  intro y h _ hh
  exact ⟨ha.vars y h hh, fun b hb => ha.fresh.2 b (Ledger.live_of_held hs hh b hb)⟩

/-- The block of an object is in none of the others. -/
theorem clear_block (hs : Inv s) (hp : Placed s) (hx : s.vars x = some h) {b : Block}
    (hb : b ∈ h.obj.block h.ty) : Clear s x b.addr b.layout.size := by
  intro y h' hy hh
  have hlive := Ledger.live_of_held hs hx b hb
  refine ⟨hp.blocks y h' hh b hlive, ?_⟩
  intro c hc
  have hne : c ≠ b := by
    rintro rfl
    apply hy
    exact hs.sole y x c (by simpa [Ledger.blockOf, hh] using hc)
      (by simpa [Ledger.blockOf, hx] using hb)
  exact hs.wf.apart_of_ne (Ledger.live_of_held hs hh c hc) hlive hne

/-- Nor is its value. -/
theorem clear_value (hs : Inv s) (hp : Placed s) (hx : s.vars x = some h) :
    Clear s x (h.obj.place h.addr) h.ty.size := by
  rcases Pinning.place_cases (hs.built x h hx).1 h.addr with hz | ⟨hlo, hhi⟩ | ⟨-, hb⟩
  · exact fun _ _ _ _ => ⟨Or.inl hz, fun _ _ => Or.inr (Or.inl hz)⟩
  · intro y h' hy hh
    refine ⟨(hp.vars x y h h' hx hh hy).mono hlo hhi, ?_⟩
    intro b hb
    have hslot := hp.blocks x h hx b (Ledger.live_of_held hs hh b hb)
    exact apart_comm ((apart_comm hslot).mono hlo hhi)
  · exact clear_block hs hp hx hb

theorem Kept.refl (s : Ledger) (x : ℕ) : Kept s x s.world := fun _ _ _ _ => rfl

/-- Only the cells of memory matter. -/
theorem Kept.of_cells (hk : Kept s x w) (hw : ∀ q k, w'.mem.load q k = w.mem.load q k) :
    Kept s x w' := by
  intro y h hy hh
  rw [← hk y h hy hh]
  simp only [contentOf, World.read, hw]

/-- A store that is clear of the others leaves their values. -/
theorem Kept.store (hs : Inv s) (hk : Kept s x w) (hc : Clear s x p n) (bytes : Fin n → Cell)
    (hw : w'.mem = w.mem.store p bytes) : Kept s x w' := by
  intro y h hy hh
  obtain ⟨hslot, hblock⟩ := hc y h hy hh
  rw [← hk y h hy hh]
  have hload := Memory.load_store_apart (m := w.mem) bytes
    (apart_value (hs.built y h hh).1 hslot hblock)
  simp only [contentOf, World.read, hw, hload]

theorem Clear.mono {q k : ℕ} (hc : Clear s x p n) (hp : p ≤ q) (hn : q + k ≤ p + n) :
    Clear s x q k := by
  intro y h hy hh
  obtain ⟨hslot, hblock⟩ := hc y h hy hh
  exact ⟨hslot.mono hp hn, fun b hb => apart_comm ((apart_comm (hblock b hb)).mono hp hn)⟩

/-- A new object puts its value into its own bytes, or into a block of its own. -/
theorem Clear.place {k : StorageKind} {D : DynTrait} {o : DynObject k.Carrier} (hb : o.BuiltFor D T)
    (hc : Clear s x p (DynObject.size k.Carrier)) (hblock : ∀ b ∈ o.block T, b.addr = answer)
    (ha : Clear s x answer T.size) : Clear s x (o.place p) T.size := by
  rcases Pinning.place_cases hb p with hz | ⟨hlo, hhi⟩ | ⟨-, hm⟩
  · rw [hz]
    exact fun _ _ _ _ => ⟨Or.inl rfl, fun _ _ => Or.inr (Or.inl rfl)⟩
  · exact hc.mono hlo hhi
  · have haddr : o.place p = answer := hblock _ hm
    rw [haddr]
    exact ha

/-! What an operation on `x` leaves in the variables. -/

section
variable {new : Option Held} (hv : t.vars = Function.update s.vars x new)

include hv

theorem contents_update (hk : Kept s x t.world) :
    contents t = Function.update (contents s) x (new.map (contentOf t.world)) := by
  funext y
  by_cases hy : y = x
  · subst hy
    simp [contents, hv]
  · simp only [contents, hv, Function.update_of_ne hy]
    cases hh : s.vars y with
    | none => rfl
    | some h => exact congrArg some (hk y h hy hh)

/-- The objects stay apart if the new one is, and what is new in the heap. -/
theorem placed_update (hp : Placed s)
    (hmem : ∀ b ∈ t.mem.blocks, b ∈ s.mem.blocks ∨
      ∀ y h, y ≠ x → s.vars y = some h → b.Apart h.addr (extent h))
    (hnew : ∀ h ∈ new, (∀ y h', y ≠ x → s.vars y = some h' →
        Apart h.addr (extent h) h'.addr (extent h')) ∧
      ∀ b ∈ t.mem.blocks, b.Apart h.addr (extent h)) : Placed t := by
  have hvx : t.vars x = new := by simp [hv]
  have hvy : ∀ y, y ≠ x → t.vars y = s.vars y := fun y hy => by simp [hv, hy]
  constructor
  · intro y z h h' hy hz hne
    by_cases hyx : y = x <;> by_cases hzx : z = x
    · exact absurd (hzx.trans hyx.symm) hne
    · subst hyx
      exact (hnew h (hvx.symm.trans hy)).1 z h' hzx ((hvy z hzx).symm.trans hz)
    · subst hzx
      exact apart_comm ((hnew h' (hvx.symm.trans hz)).1 y h hyx ((hvy y hyx).symm.trans hy))
    · exact hp.vars y z h h' ((hvy y hyx).symm.trans hy) ((hvy z hzx).symm.trans hz) hne
  · intro y h hy b hb
    by_cases hyx : y = x
    · subst hyx
      exact (hnew h (hvx.symm.trans hy)).2 b hb
    · have hys := (hvy y hyx).symm.trans hy
      rcases hmem b hb with hold | hother
      · exact hp.blocks y h hys b hold
      · exact hother y h hyx hys

end

/-- The ledger holds these values, its objects apart from each other. -/
structure Refines (s : Ledger) (c : Contents) : Prop where
  inv : Inv s
  placed : Placed s
  contents_eq : contents s = c

theorem Refines.perform {c : Contents} {op : Op} {out : Outcome} (hr : Refines s c)
    (hstep : Ledger.step s op = .ok (out, t)) (hp : Placed t)
    (hc : contents t = (perform c op).2) (ho : (out, given s op) = (perform c op).1) :
    ∃ t, visible s op = .ok ((Isolation.perform c op).1, t) ∧
      Refines t (Isolation.perform c op).2 := by
  refine ⟨t, ?_, Ledger.inv_step hr.inv hstep, hp, hc⟩
  rw [visible, hstep, ← ho]
  rfl

/-! The operations, one by one. -/

variable {c : Contents} {k : StorageKind} {D : DynTrait} {v : Value T} {here tmp : Addr}

/-- The variables of an object that was just constructed, in the place of `x`. -/
theorem placed_construct {ps : List Addr} (hv : t.vars = Function.update s.vars x (some h))
    (hp : Placed s) (hans : Answers s T answer ps n) (hslot : Vacant s x h.addr (extent h))
    (hself : Apart answer T.size h.addr (extent h))
    (hmem : ∀ b ∈ t.mem.blocks, b ∈ s.mem.blocks ∨ b ∈ boxBlock T answer) : Placed t := by
  refine placed_update hv hp ?_ ?_
  · intro b hb
    rcases hmem b hb with hold | hnew
    · exact Or.inl hold
    · obtain ⟨rfl, -⟩ := boxBlock_layout hnew
      exact Or.inr fun y h _ hh => hans.vars y h hh
  · rintro _ ⟨⟩
    refine ⟨hslot.vars, ?_⟩
    intro b hb
    rcases hmem b hb with hold | hnew
    · exact hslot.blocks b hold
    · obtain ⟨rfl, -⟩ := boxBlock_layout hnew
      exact hself

theorem mem_boxBlock {o : DynObject k.Carrier} {b : Block} (hb : b ∈ o.block T)
    (haddr : b.addr = answer) : b ∈ boxBlock T answer := by
  obtain ⟨hl, hn, -⟩ := ownedBlock_layout hb
  simp [boxBlock, hn, ← haddr, ← hl]

theorem refines_new (hr : Refines s c) (hok : Allowed s (.new x k D T v here answer)) :
    ∃ t, visible s (.new x k D T v here answer) =
        .ok ((perform c (.new x k D T v here answer)).1, t) ∧
      Refines t (perform c (.new x k D T v here answer)).2 := by
  obtain ⟨hs, hp, rfl⟩ := hr
  obtain ⟨hx, hfits, hvac, hans⟩ := hok
  obtain ⟨o, w, ho⟩ := StorageKind.new_isOk hfits v (w := s.world) hans.fresh D here
  obtain ⟨hb, hf, rfl⟩ := DynObject.new_ok ho
  have hstep : Ledger.step s (.new x k D T v here answer) = .ok (.returns,
      s.enroll x ⟨k, D, o, here, s.next, T⟩ (fun _ => s.next)
        ((s.world.acquire (o.block T)).put (o.place here) v)) := by
    simp only [Ledger.step, hx]
    exact bind_ok.mpr ⟨_, ho, rfl⟩
  refine Refines.perform ⟨hs, hp, rfl⟩ hstep ?_ ?_ rfl
  · refine placed_construct rfl hp hans hvac (hans.places here List.mem_cons_self) ?_
    intro b hm
    simp only [Ledger.enroll, Ledger.commit, World.mem_put, Memory.blocks_store,
      World.blocks_acquire, List.mem_append, Option.mem_toList] at hm
    rcases hm with hm | hm
    · exact Or.inr (mem_boxBlock hm (hf b hm).1)
    · exact Or.inl hm
  · have hclear := (hvac.clear hs).place hb (fun b hm => (hf b hm).1) (hans.clear hs x)
    have hk : Kept s x (s.world.acquire (o.block T)) :=
      (Kept.refl s x).of_cells fun q k => World.load_acquire _
    rw [contents_update rfl (hk.store hs hclear v rfl)]
    congr 1
    simp only [Option.map_some, contentOf]
    congr 2
    exact World.read_put v

theorem refines_fromBox (hr : Refines s c) (hok : Allowed s (.fromBox x k D T v here answer)) :
    ∃ t, visible s (.fromBox x k D T v here answer) =
        .ok ((perform c (.fromBox x k D T v here answer)).1, t) ∧
      Refines t (perform c (.fromBox x k D T v here answer)).2 := by
  obtain ⟨hs, hp, rfl⟩ := hr
  obtain ⟨hx, hbox, hvac, hans⟩ := hok
  obtain ⟨b, w₀, hb₀⟩ := StdBox.new_isOk (w := s.world) v hans.fresh
  obtain ⟨hf, rfl⟩ := StdBox.new_ok hb₀
  have hlive : ∀ a ∈ boxBlock T b.ptr,
      a ∈ ((s.world.acquire (boxBlock T b.ptr)).put b.ptr v).mem.blocks := by
    intro a ha
    simp only [World.mem_put, Memory.blocks_store, World.blocks_acquire]
    exact List.mem_append_left _ (Option.mem_toList.mpr ha)
  obtain ⟨o, w, ho⟩ := StorageKind.fromBox_isOk hbox D hlive here
  have hstep : Ledger.step s (.fromBox x k D T v here answer) = .ok (.returns,
      s.enroll x ⟨k, D, o, here, s.next, T⟩ (fun _ => s.next) w) := by
    simp only [Ledger.step, hx]
    exact bind_ok.mpr ⟨_, hb₀, bind_ok.mpr ⟨_, ho, rfl⟩⟩
  -- the box is a block at the address that the allocator answers with
  have hbox : ∀ a ∈ boxBlock T b.ptr, a ∈ boxBlock T answer := by
    intro a ha
    obtain ⟨rfl, hn⟩ := boxBlock_layout ha
    rw [← (hf _ ha).1]
    exact ha
  have hclear₀ : Clear s x b.ptr T.size := by
    by_cases hz : T.size = 0
    · rw [hz]
      exact fun _ _ _ _ => ⟨Or.inl rfl, fun _ _ => Or.inr (Or.inl rfl)⟩
    · have haddr : b.ptr = answer := (hf ⟨b.ptr, T.layout⟩ (by simp [boxBlock, hz])).1
      rw [haddr]
      exact hans.clear hs x
  have hk₀ : Kept s x ((s.world.acquire (boxBlock T b.ptr)).put b.ptr v) :=
    ((Kept.refl s x).of_cells fun q k => World.load_acquire _).store hs hclear₀ v rfl
  obtain ⟨hb, ⟨hptr, rfl⟩ | ⟨hptr, w₁, hw₁, rfl⟩⟩ := StorageKind.fromBox_ok ho
  · refine Refines.perform ⟨hs, hp, rfl⟩ hstep ?_ ?_ rfl
    · refine placed_construct rfl hp hans hvac (hans.places here List.mem_cons_self) ?_
      intro a hm
      simp only [Ledger.enroll, Ledger.commit, World.mem_put, Memory.blocks_store,
        World.blocks_acquire, List.mem_append, Option.mem_toList] at hm
      exact hm.symm.imp id (hbox a)
    · rw [contents_update rfl hk₀]
      congr 1
      simp only [Option.map_some, contentOf]
      congr 2
      have hplace : o.place here = b.ptr := by simp [DynObject.place, ptr_eq, hptr]
      rw [hplace]
      exact World.read_put v
  · obtain ⟨-, rfl⟩ := World.release_ok.mp hw₁
    have hblock : o.block T = none := by simp [DynObject.block, ownedBlock, hptr]
    refine Refines.perform ⟨hs, hp, rfl⟩ hstep ?_ ?_ rfl
    · refine placed_construct rfl hp hans hvac (hans.places here List.mem_cons_self) ?_
      intro a hm
      have hm' := World.mem_of_released hm
      simp only [World.mem_record, World.mem_put, Memory.blocks_store, World.blocks_acquire,
        List.mem_append, Option.mem_toList] at hm'
      exact hm'.symm.imp id (hbox a)
    · have hclear : Clear s x (o.place here) T.size :=
        (hvac.clear hs).place hb (by simp [hblock]) (hans.clear hs x)
      have hk₁ : Kept s x ((((s.world.acquire (boxBlock T b.ptr)).put b.ptr v).record
          (.unboxed T b.ptr)).released (boxBlock T b.ptr)) :=
        hk₀.of_cells fun q k => World.load_released _ k
      rw [contents_update rfl (hk₁.store hs hclear _ rfl)]
      congr 1
      simp only [Option.map_some, contentOf]
      congr 2
      exact (World.read_put _).trans (World.read_put v)

theorem refines_move {dst : Addr} (hr : Refines s c) (hok : Allowed s (.move x dst)) :
    ∃ t, visible s (.move x dst) = .ok ((perform c (.move x dst)).1, t) ∧
      Refines t (perform c (.move x dst)).2 := by
  obtain ⟨hs, hp, rfl⟩ := hr
  obtain ⟨h, hx, hvac⟩ := hok
  have hstep : Ledger.step s (.move x dst) = .ok (.returns, s.commit x (some { h with addr := dst })
      (fun _ => h.id) (s.world.moveBytes h.addr dst (extent h))) := by
    simp only [Ledger.step, hx]
  refine Refines.perform ⟨hs, hp, rfl⟩ hstep ?_ ?_ rfl
  · refine placed_update rfl hp (fun b hb => Or.inl hb) ?_
    rintro _ ⟨⟩
    exact ⟨hvac.vars, hvac.blocks⟩
  · have hk : Kept s x (s.world.moveBytes h.addr dst (extent h)) :=
      (Kept.refl s x).store hs (hvac.clear hs) _ rfl
    rw [contents_update rfl hk]
    apply Function.update_eq_self_iff.mpr
    have hread : (s.world.moveBytes h.addr dst (extent h)).read h.ty (h.obj.place dst) =
        s.world.read h.ty (h.obj.place h.addr) :=
      load_ptr_moveBytes (hs.built x h hx).1.constructed s.world (Nat.le_refl (extent h))
        fun b hb => hvac.blocks b (Ledger.live_of_held hs hx b hb)
    simp only [contents, hx]
    exact congrArg (fun v => some (Content.mk h.dyn h.ty v)) hread

/-- The object stays, and nothing but its value may change. -/
theorem refines_write {op : Op} {out : Outcome} {v : Value h.ty} (hr : Refines s c)
    (hx : s.vars x = some h)
    (hstep : Ledger.step s op = .ok (out, s.commit x (some h) (fun _ => h.id) w))
    (hw : w.mem = s.mem.store (h.obj.place h.addr) v)
    (hperform : perform c op =
      ((out, given s op), Function.update c x (some ⟨h.dyn, h.ty, v⟩))) :
    ∃ t, visible s op = .ok ((perform c op).1, t) ∧ Refines t (perform c op).2 := by
  have hc := hr.contents_eq
  refine hr.perform hstep ?_ ?_ (congrArg Prod.fst hperform).symm
  · refine placed_update rfl hr.placed (fun b hb => Or.inl ?_) ?_
    · simpa [Ledger.commit, hw] using hb
    · rintro _ ⟨⟩
      refine ⟨fun y h' hy hh => hr.placed.vars x y h h' hx hh hy, ?_⟩
      intro b hb
      apply hr.placed.blocks x h hx b
      simpa [Ledger.commit, hw] using hb
  · have hk : Kept s x w := (Kept.refl s x).store hr.inv (clear_value hr.inv hr.placed hx) v hw
    rw [hperform, ← hc, contents_update rfl hk]
    congr 1
    have hread : w.read h.ty (h.obj.place h.addr) = v := by
      unfold World.read
      rw [hw]
      exact Memory.load_store_self v
    exact congrArg (fun v => some (Content.mk h.dyn h.ty v)) hread

theorem refines_call {name : String} {body : (T : RustType) → Value T → Outcome × Value T}
    (hr : Refines s c) (hok : Allowed s (.call x name body)) :
    ∃ t, visible s (.call x name body) = .ok ((perform c (.call x name body)).1, t) ∧
      Refines t (perform c (.call x name body)).2 := by
  obtain ⟨h, hx, hname⟩ := hok
  let p := h.obj.place h.addr
  let res := body h.ty (s.world.read h.ty p)
  have hcall : h.obj.call h.addr name body s.world =
      .ok (res.1, (s.world.record (.accessed h.ty p)).write p res.2) := by
    rw [DynObject.call_eq (hr.inv.built x h hx).1, if_pos hname]
  have hstep : Ledger.step s (.call x name body) = .ok (res.1, s.commit x (some h)
      (fun _ => h.id) ((s.world.record (.accessed h.ty p)).write p res.2)) := by
    simp only [Ledger.step, hx, hcall]
    rfl
  refine refines_write hr hx hstep rfl ?_
  have hc : c x = some (contentOf s.world h) := by rw [← hr.contents_eq, contents, hx]; rfl
  simp only [perform, hc, contentOf, given]
  rfl

/-- The test of the object for `U` is that of its content. -/
theorem view_contentOf (hb : h.obj.BuiltFor h.dyn h.ty) (w : World) (U : RustType) :
    (contentOf w h).view U =
      if h.obj.is U then some (w.read U (h.obj.place h.addr)) else none := by
  unfold Content.view DynObject.is
  rw [hb.vtable_eq]
  cases hd : h.dyn with
  | trait receivers => simp [contentOf, hd, DynTrait.vtable]
  | any =>
    by_cases hU : h.ty = U
    · subst hU
      simp [contentOf, hd, DynTrait.vtable, TypeId.of]
    · simp [contentOf, hd, DynTrait.vtable, TypeId.of, hU]

/-- The reference that a downcast gives is to the value, or there is none. -/
theorem refines_useRef {op : Op} {U : RustType} {body : Value U → Value U} (hr : Refines s c)
    (hx : s.vars x = some h)
    (hstep : Ledger.step s op = .ok (.returns, s.commit x (some h) (fun _ => h.id)
      (Ledger.useRef body s.world (if h.obj.is U then some (h.obj.place h.addr) else none))))
    (hgiven : given s op =
      if h.obj.is U then some ⟨U, s.world.read U (h.obj.place h.addr)⟩ else none)
    (hperform : perform c op =
      ((.returns, seen (c x) U), Function.update c x ((c x).map (·.use U body)))) :
    ∃ t, visible s op = .ok ((perform c op).1, t) ∧ Refines t (perform c op).2 := by
  have hb := (hr.inv.built x h hx).1
  have hc : c x = some (contentOf s.world h) := by rw [← hr.contents_eq, contents, hx]; rfl
  by_cases hi : h.obj.is U = true
  · obtain rfl := DynObject.eq_of_is hb hi
    rw [if_pos hi] at hstep hgiven
    refine refines_write hr hx hstep rfl ?_
    simp only [hperform, hgiven, hc, seen, Option.bind_some, Option.map_some, Content.use,
      view_contentOf hb, hi, if_true]
    rfl
  · rw [if_neg hi] at hstep hgiven
    refine refines_write hr hx hstep (Memory.store_load_self _ _ _).symm ?_
    simp only [hperform, hgiven, hc, seen, Option.bind_some, Option.map_some, Content.use,
      view_contentOf hb, hi]
    rfl

theorem refines_downcastRef {body : Value U → Value U} (hr : Refines s c)
    (hok : Allowed s (.downcastRef x U body)) :
    ∃ t, visible s (.downcastRef x U body) = .ok ((perform c (.downcastRef x U body)).1, t) ∧
      Refines t (perform c (.downcastRef x U body)).2 := by
  obtain ⟨h, hx⟩ := hok
  have hp : h.obj.downcastRef h.addr U = .ok (if h.obj.is U then some (h.obj.place h.addr) else none) :=
    DynObject.downcastRef_eq (hr.inv.built x h hx).1
  refine refines_useRef hr hx ?_ ?_ rfl
  · simp only [Ledger.step, hx, hp]
    rfl
  · simp only [given, hx, hp]
    by_cases hi : h.obj.is U
    · simp only [hi, if_true]
    · simp only [hi]
      rfl

theorem refines_downcastMut {body : Value U → Value U} (hr : Refines s c)
    (hok : Allowed s (.downcastMut x U body)) :
    ∃ t, visible s (.downcastMut x U body) = .ok ((perform c (.downcastMut x U body)).1, t) ∧
      Refines t (perform c (.downcastMut x U body)).2 := by
  obtain ⟨h, hx⟩ := hok
  have hp : h.obj.downcastMut h.addr U = .ok (if h.obj.is U then some (h.obj.place h.addr) else none) :=
    DynObject.downcastMut_eq (hr.inv.built x h hx).1
  refine refines_useRef hr hx ?_ ?_ rfl
  · simp only [Ledger.step, hx, hp]
    rfl
  · simp only [given, hx, hp]
    by_cases hi : h.obj.is U
    · simp only [hi, if_true]
    · simp only [hi]
      rfl

/-- The value leaves, with what was in the heap for it. -/
theorem refines_remove {op : Op} {out : Outcome} (hr : Refines s c)
    (hstep : Ledger.step s op = .ok (out, s.commit x none (fun _ => h.id) w))
    (hk : Kept s x w) (hmem : ∀ b ∈ w.mem.blocks, b ∈ s.mem.blocks)
    (hperform : perform c op = ((out, given s op), Function.update c x none)) :
    ∃ t, visible s op = .ok ((perform c op).1, t) ∧ Refines t (perform c op).2 := by
  refine hr.perform hstep ?_ ?_ (congrArg Prod.fst hperform).symm
  · exact placed_update rfl hr.placed (fun b hb => Or.inl (hmem b hb)) (by rintro _ ⟨⟩)
  · rw [hperform, ← hr.contents_eq, contents_update rfl hk]
    rfl

theorem refines_drop (hr : Refines s c) (hok : Allowed s (.drop x)) :
    ∃ t, visible s (.drop x) = .ok ((perform c (.drop x)).1, t) ∧
      Refines t (perform c (.drop x)).2 := by
  obtain ⟨h, hx⟩ := hok
  let w := (s.world.record (DynObject.endEvent h.ty (h.obj.place h.addr))).released
    (h.obj.block h.ty)
  have hstep : Ledger.step s (.drop x) = .ok (.returns, s.commit x none (fun _ => h.id) w) := by
    simp only [Ledger.step, hx]
    rw [DynObject.drop_live (hr.inv.built x h hx).1 (Ledger.live_of_held hr.inv hx)]
    simp only [DynObject.dropOutcome_returns, DynObject.afterDrop_returns]
    rfl
  have hk : Kept s x w := (Kept.refl s x).of_cells fun q k => World.load_released _ k
  exact refines_remove hr hstep hk (fun b hb => World.mem_of_released hb) rfl

theorem refines_downcast {dst : Addr} (hr : Refines s c) (hok : Allowed s (.downcast x U dst)) :
    ∃ t, visible s (.downcast x U dst) = .ok ((perform c (.downcast x U dst)).1, t) ∧
      Refines t (perform c (.downcast x U dst)).2 := by
  obtain ⟨h, hx, hvac⟩ := hok
  have hb := (hr.inv.built x h hx).1
  have hlive := Ledger.live_of_held hr.inv hx
  have hc : c x = some (contentOf s.world h) := by rw [← hr.contents_eq, contents, hx]; rfl
  have hk : Kept s x (s.world.moveBytes h.addr dst (extent h)) :=
    (Kept.refl s x).store hr.inv (hvac.clear hr.inv) _ rfl
  have hread : (s.world.moveBytes h.addr dst (extent h)).read h.ty (h.obj.place dst) =
      s.world.read h.ty (h.obj.place h.addr) :=
    load_ptr_moveBytes hb.constructed s.world (Nat.le_refl (extent h))
      fun b hm => hvac.blocks b (hlive b hm)
  by_cases hi : h.obj.is U = true
  · obtain rfl := DynObject.eq_of_is hb hi
    have hd : h.obj.downcast dst h.ty (s.world.moveBytes h.addr dst (extent h)) =
        .ok (.inl _, _) := DynObject.downcast_of_is hb hi hlive
    have hstep : Ledger.step s (.downcast x h.ty dst) = .ok (.returns,
        s.commit x none (fun _ => h.id) (((s.world.moveBytes h.addr dst (extent h)).record
          (.movedOut h.ty (h.obj.place dst))).released (h.obj.block h.ty))) := by
      simp only [Ledger.step, hx, hd]
      rfl
    refine refines_remove hr hstep (hk.of_cells fun q k => World.load_released _ k)
      (fun b hm => World.mem_of_released hm) ?_
    have hv : given s (.downcast x h.ty dst) =
        some ⟨h.ty, s.world.read h.ty (h.obj.place h.addr)⟩ := by
      simp only [given, hx, hd]
      exact congrArg (fun v => some (Sigma.mk h.ty v)) hread
    simp only [perform, hv, hc, seen, Option.bind_some, view_contentOf hb, hi, if_true,
      Option.map_some, Option.isSome_some]
  · have hd : h.obj.downcast dst U (s.world.moveBytes h.addr dst (extent h)) =
        .ok (.inr h.obj, _) := DynObject.downcast_of_not_is (Bool.eq_false_iff.mpr hi)
    have hstep : Ledger.step s (.downcast x U dst) = .ok (.returns,
        s.commit x (some { h with addr := dst }) (fun _ => h.id)
          (s.world.moveBytes h.addr dst (extent h))) := by
      simp only [Ledger.step, hx, hd]
      rfl
    refine hr.perform hstep ?_ ?_ ?_
    · refine placed_update rfl hr.placed (fun b hm => Or.inl hm) ?_
      rintro _ ⟨⟩
      exact ⟨hvac.vars, hvac.blocks⟩
    · have hnone : (perform c (.downcast x U dst)).2 = contents s := by
        simp only [perform, hc, seen, Option.bind_some, view_contentOf hb, hi, hr.contents_eq]
        rfl
      have hafter : contents (s.commit x (some { h with addr := dst }) (fun _ => h.id)
          (s.world.moveBytes h.addr dst (extent h))) = _ := contents_update rfl hk
      rw [hnone, hafter]
      apply Function.update_eq_self_iff.mpr
      simp only [contents, hx]
      exact congrArg (fun v => some (Content.mk h.dyn h.ty v)) hread
    · simp only [perform, given, hx, hd, hc, seen, Option.bind_some, view_contentOf hb, hi]
      rfl

/-- An insertion, into a slot that is empty or holds an object that can be dropped. -/
theorem refines_settle {op : Op} {ps : List Addr} (about : Event → ℕ)
    (this : Option (DynObject k.Carrier)) (hr : Refines s c) (hfits : k.Fits T)
    (htmp : Vacant s x tmp (DynObject.size k.Carrier))
    (hslot : Vacant s x (DynObject.someAt k.Carrier here) (DynObject.size k.Carrier))
    (hans : Answers s T answer ps (DynObject.size k.Carrier))
    (hself : Apart answer T.size (DynObject.someAt k.Carrier here) (DynObject.size k.Carrier))
    (hdrop : ∀ (o : DynObject k.Carrier) w₁, DynObject.new D v tmp answer s.world = .ok (o, w₁) →
      ∃ w₂, DynObject.dropSlot this here .returns w₁ = .ok (.returns, w₂) ∧
        (∀ q n, w₂.mem.load q n = w₁.mem.load q n) ∧ ∀ b ∈ w₂.mem.blocks, b ∈ w₁.mem.blocks)
    (hstep : ∀ p o w, DynObject.insert D this v here tmp answer .returns s.world = .ok (p, o, w) →
      Ledger.step s op = .ok (.returns,
        s.enroll x ⟨k, D, o, DynObject.someAt k.Carrier here, s.next, T⟩ about w))
    (hgiven : given s op = inserted T (DynObject.insert D this v here tmp answer .returns s.world))
    (hperform : perform c op =
      ((.returns, some ⟨T, v⟩), Function.update c x (some ⟨D, T, v⟩))) :
    ∃ t, visible s op = .ok ((perform c op).1, t) ∧ Refines t (perform c op).2 := by
  have hs := hr.inv
  obtain ⟨o, w₁, ho⟩ := StorageKind.new_isOk hfits v (w := s.world) hans.fresh D tmp
  obtain ⟨w₂, hd, hcells, hblocks⟩ := hdrop o w₁ ho
  obtain ⟨p, w, hi⟩ := DynObject.insert_isOk ho hd
  obtain ⟨hb, hf, rfl⟩ := DynObject.new_ok ho
  obtain ⟨-, -, outcome, w₂', hd', hset⟩ := DynObject.insert_ok hi
  obtain ⟨rfl, rfl⟩ := Prod.mk.inj (Except.ok.inj (hd.symm.trans hd'))
  obtain ⟨rfl, rfl⟩ := Prod.mk.inj hset
  have haddr : ∀ b ∈ o.block T, b.addr = answer := fun b hm => (hf b hm).1
  have hapart : ∀ b ∈ o.block T,
      b.Apart (DynObject.someAt k.Carrier here) (DynObject.size k.Carrier) := by
    intro b hm
    obtain ⟨rfl, -⟩ := boxBlock_layout (mem_boxBlock hm (haddr b hm))
    exact hself
  have hread : (o.settle T here tmp .returns w₂).2.read T
      (o.place (DynObject.someAt k.Carrier here)) = v := by
    rw [DynObject.read_settle hb hapart]
    exact (hcells _ _).trans (World.read_put v)
  refine hr.perform (hstep _ o _ hi) ?_ ?_ ?_
  · refine placed_construct rfl hr.placed hans hslot hself ?_
    intro b hm
    have hm₁ := hblocks b hm
    simp only [World.mem_put, Memory.blocks_store, World.blocks_acquire, List.mem_append,
      Option.mem_toList] at hm₁
    exact hm₁.symm.imp id fun hm => mem_boxBlock hm (haddr b hm)
  · have hk₁ : Kept s x ((s.world.acquire (o.block T)).put (o.place tmp) v) :=
      ((Kept.refl s x).of_cells fun q k => World.load_acquire _).store hs
        ((htmp.clear hs).place hb haddr (hans.clear hs x)) v rfl
    have hk : Kept s x (o.settle T here tmp .returns w₂).2 :=
      (hk₁.of_cells hcells).store hs (hslot.clear hs) _ rfl
    rw [hperform, ← hr.contents_eq, contents_update rfl hk]
    congr 1
    simp only [Option.map_some, contentOf]
    congr 2
  · rw [hperform, hgiven, hi]
    exact congrArg (fun v => (Outcome.returns, some (Sigma.mk T v))) hread

theorem refines_insert {pinned : Bool} (hr : Refines s c)
    (hok : Allowed s (.insert pinned x k D T v here tmp answer)) :
    ∃ t, visible s (.insert pinned x k D T v here tmp answer) =
        .ok ((perform c (.insert pinned x k D T v here tmp answer)).1, t) ∧
      Refines t (perform c (.insert pinned x k D T v here tmp answer)).2 := by
  have hs := hr.inv
  have hc : c x = (s.vars x).map (contentOf s.world) := by rw [← hr.contents_eq]; rfl
  cases hx : s.vars x with
  | none =>
    simp only [Allowed, hx] at hok
    obtain ⟨hfits, hslot, htmp, hans⟩ := hok
    have hself := hans.places _ List.mem_cons_self
    refine refines_settle (D := D) (v := v) (fun _ => s.next) none hr hfits htmp hslot hans hself
      ?_ ?_ ?_ ?_
    · exact fun o w₁ _ => ⟨w₁, rfl, fun _ _ => rfl, fun _ hb => hb⟩
    · intro p o w hi
      simp only [Ledger.step, hx, Ledger.insertAt_eq, hi]
      rfl
    · simp only [given, hx, Ledger.insertAt_eq]
    · simp only [perform, hc, hx]
      rfl
  | some h =>
    simp only [Allowed, hx] at hok
    obtain ⟨hfits, haddr, htmp, hans⟩ := hok
    obtain ⟨hb, -⟩ := hs.built x h hx
    have hlive := Ledger.live_of_held hs hx
    have hslot : Vacant s x h.addr (extent h) :=
      ⟨fun y h' hy hh => hr.placed.vars x y h h' hx hh hy, hr.placed.blocks x h hx⟩
    have hself := hans.vars x h hx
    rw [haddr] at hslot hself
    refine refines_settle (D := h.dyn) (v := v) (Ledger.aboutInsert h.id s.next) (some h.obj) hr
      hfits htmp hslot hans hself ?_ ?_ ?_ ?_
    · intro o w₁ ho
      obtain ⟨-, -, rfl⟩ := DynObject.new_ok ho
      have hlive₁ := DynObject.live_acquire_put (w := s.world) (b := o.block T) (q := o.place tmp)
        (v := v) hlive
      have hd : h.obj.drop (DynObject.someAt h.kind.Carrier here) .returns _ = .ok (_, _) :=
        DynObject.drop_live hb hlive₁ .returns
      rw [DynObject.dropOutcome_returns, DynObject.afterDrop_returns] at hd
      refine ⟨_, hd, fun q k => World.load_released _ k, ?_⟩
      intro b hm
      have hm₁ := World.mem_of_released hm
      exact hm₁
    · intro p o w hi
      simp only [Ledger.step, hx, haddr, if_true, Ledger.insertAt_eq, hi]
      rfl
    · simp only [given, hx, Ledger.insertAt_eq]
    · simp only [perform, hc, hx]
      rfl

theorem step_refines (s : Ledger) (c : Contents) (op : Op) (hr : Refines s c)
    (hok : Allowed s op) :
    ∃ t, visible s op = .ok ((perform c op).1, t) ∧ Refines t (perform c op).2 := by
  cases op with
  | new => exact refines_new hr hok
  | fromBox => exact refines_fromBox hr hok
  | move => exact refines_move hr hok
  | call => exact refines_call hr hok
  | downcastRef => exact refines_downcastRef hr hok
  | downcastMut => exact refines_downcastMut hr hok
  | downcast => exact refines_downcast hr hok
  | insert => exact refines_insert hr hok
  | drop => exact refines_drop hr hok

theorem refines_empty : Refines .empty fun _ => none :=
  ⟨Ledger.inv_empty, ⟨by simp [Ledger.empty], by simp [Ledger.empty]⟩, rfl⟩

/-- However many objects there are, in whatever storages, each operation on one of them returns
and shows what it does for as many separate values, and the other values stay as they are. -/
theorem run_refines {ops : List Op} (hok : Along visible Allowed .empty ops) :
    ∃ s, run visible .empty ops = .ok ((iterate perform (fun _ => none) ops).1, s) ∧
      contents s = (iterate perform (fun _ => none) ops).2 := by
  obtain ⟨s, hrun, hr⟩ := run_simulates step_refines refines_empty hok
  exact ⟨s, hrun, hr.contents_eq⟩

/-- A boxed value and one in place: the second is written to, the first is read out. -/
def writeReadOut : List Op :=
  [.new 0 .box .any (.droppable 1 2) (fun _ => some 1) 64 4096,
    .new 1 (.raw 8 8) .any (.bytes 2) (fun _ => some 2) 128 8192,
    .downcastMut 1 (.bytes 2) fun _ _ => some 3,
    .downcast 0 (.droppable 1 2) 256]

omit [FieldOffsets] in
theorem run_refines_writeReadOut :
    ∃ s, run (@visible .tagFirst) .empty writeReadOut =
        .ok ((iterate perform (fun _ => none) writeReadOut).1, s) ∧
      @contents .tagFirst s = (iterate perform (fun _ => none) writeReadOut).2 := by
  have hok : Along (@visible .tagFirst) (@Allowed .tagFirst) .empty writeReadOut := by
    refine ⟨⟨rfl, trivial, @Vacant.mk .tagFirst _ _ _ _ nofun nofun,
      @Answers.mk .tagFirst _ _ _ _ _ (by decide) nofun (by decide)⟩, ?_⟩
    rintro _ _ ⟨⟩
    refine ⟨⟨rfl, rfl, @Vacant.mk .tagFirst _ _ _ _ ?_ (by decide),
      @Answers.mk .tagFirst _ _ _ _ _ (by decide) ?_ (by decide)⟩, ?_⟩
    · rintro (_ | y) h hy hh
      · cases hh
        decide
      · cases hh
    · rintro (_ | y) h hh
      · cases hh
        decide
      · cases hh
    rintro _ _ ⟨⟩
    refine ⟨⟨_, rfl⟩, ?_⟩
    rintro _ _ ⟨⟩
    refine ⟨⟨_, rfl, @Vacant.mk .tagFirst _ _ _ _ ?_ (by decide)⟩, fun _ _ _ => trivial⟩
    rintro (_ | _ | y) h hy hh
    · contradiction
    · cases hh
      decide
    · cases hh
  exact @run_refines .tagFirst _ hok

end DynUtils.Isolation
