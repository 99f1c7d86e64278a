import DynUtils.LedgerExact
import Mathlib.Data.List.Perm.Basic

/-! Destructors that unwind, over whole runs with any number of objects: what they leave in
the heap, and that nothing else comes of it. -/
namespace DynUtils

open FlatMemory Machine LawfulStorage

/-! A heap with some more blocks in it. -/

namespace World

theorem cells_moveBytes {w' w : World} {src dst n : ℕ} (h : w'.mem.cells = w.mem.cells) :
    (w'.moveBytes src dst n).mem.cells = (w.moveBytes src dst n).mem.cells := by
  have hload : w'.mem.load src n = w.mem.load src n := by
    unfold Memory.load
    rw [h]
  simp only [World.mem_moveBytes, Memory.copy, Memory.store, hload, h]

theorem cells_released {w : World} (b : Option Block) :
    (w.released b).mem.cells = w.mem.cells := by
  cases b <;> rfl

/-- `w'` is `w` with the blocks `more` in its heap besides. -/
structure Extra (more : List Block) (w' w : World) : Prop where
  wf : w'.mem.Wf
  cells : w'.mem.cells = w.mem.cells
  blocks : w'.mem.blocks.Perm (w.mem.blocks ++ more)
  trace : w'.trace = w.trace

namespace Extra
variable {more : List Block} {w' w : World} {T : RustType} {p : Addr} {b : Option Block}

theorem load (he : Extra more w' w) (p n : ℕ) : w'.mem.load p n = w.mem.load p n := by
  unfold Memory.load
  rw [he.cells]

theorem read (he : Extra more w' w) (T : RustType) (p : Addr) : w'.read T p = w.read T p :=
  he.load p T.size

theorem fresh (he : Extra more w' w) {l : Layout} (h : w'.mem.Fresh p l) : w.mem.Fresh p l := by
  refine ⟨h.1, ?_⟩
  intro b hb
  exact h.2 b (he.blocks.mem_iff.mpr (List.mem_append_left _ hb))

theorem live (he : Extra more w' w) (h : ∀ c ∈ b, c ∈ w.mem.blocks) : ∀ c ∈ b, c ∈ w'.mem.blocks :=
  fun c hc => he.blocks.mem_iff.mpr (List.mem_append_left _ (h c hc))

theorem record (he : Extra more w' w) (e : Event) : Extra more (w'.record e) (w.record e) :=
  ⟨he.wf, he.cells, he.blocks, congrArg (· ++ [e]) he.trace⟩

theorem write (he : Extra more w' w) (p : Addr) (v : Value T) :
    Extra more (w'.write p v) (w.write p v) := by
  refine ⟨Memory.wf_of_blocks_eq he.wf rfl, ?_, he.blocks, he.trace⟩
  simp only [World.write, Memory.store, he.cells]

theorem put (he : Extra more w' w) (p : Addr) (v : Value T) :
    Extra more (w'.put p v) (w.put p v) :=
  (he.write p v).record _

theorem moveBytes (he : Extra more w' w) (src dst n : ℕ) :
    Extra more (w'.moveBytes src dst n) (w.moveBytes src dst n) :=
  ⟨Memory.wf_of_blocks_eq he.wf rfl, cells_moveBytes he.cells, he.blocks,
    congrArg (· ++ _) he.trace⟩

theorem acquire (he : Extra more w' w)
    (h : ∀ c ∈ b, w'.mem.Fresh c.addr c.layout ∧ c.layout.size ≠ 0) :
    Extra more (w'.acquire b) (w.acquire b) := by
  have hwf := World.wf_acquire he.wf h
  cases b with
  | none => exact he
  | some b => exact ⟨hwf, he.cells, he.blocks.cons b, congrArg (· ++ _) he.trace⟩

theorem released (he : Extra more w' w) (h : ∀ c ∈ b, c ∈ w.mem.blocks) :
    Extra more (w'.released b) (w.released b) := by
  cases b with
  | none => exact he
  | some b =>
    refine ⟨Memory.wf_dealloc he.wf, he.cells, ?_, congrArg (· ++ _) he.trace⟩
    have hperm := he.blocks.erase b
    rwa [List.erase_append_left _ (h b rfl)] at hperm

/-- A block that stays on one side only. -/
theorem kept {leaks : List (ℕ × Block)} (he : Extra (leaks.map (·.2)) w' w)
    (h : ∀ c ∈ b, c ∈ w.mem.blocks) (i : ℕ) : w'.mem.blocks.Perm
      ((w.released b).mem.blocks ++ (leaks ++ b.toList.map (i, ·)).map (·.2)) := by
  cases b with
  | none => simpa [World.released] using he.blocks
  | some b =>
    have hmem : b ∈ w.mem.blocks := h b rfl
    have hsplit : (w.mem.blocks ++ leaks.map (·.2)).Perm
        (b :: (w.mem.blocks.erase b ++ leaks.map (·.2))) :=
      (List.perm_cons_erase hmem).append_right _
    refine he.blocks.trans (hsplit.trans ?_)
    simp only [World.released, Memory.blocks_dealloc, Option.toList_some, List.map_append,
      List.map_cons, List.map_nil, ← List.append_assoc]
    exact (List.perm_append_singleton b _).symm

theorem useRef (he : Extra more w' w) {U : RustType} (body : Value U → Value U)
    (p : Option Addr) : Extra more (Ledger.useRef body w' p) (Ledger.useRef body w p) := by
  cases p with
  | none => exact he
  | some p =>
    simp only [Ledger.useRef, he.read]
    exact (he.record _).write p _

end Extra

end World

namespace Event

/-- Somebody has used the value. -/
def accesses : Event → Bool
  | accessed _ _ => true
  | _ => false

end Event

namespace Panics

open Ledger (Inv)

structure Op where
  op : Ledger.Op
  /-- How the destructor ends that the operation runs, if it runs one. -/
  destructor : Outcome

structure State where
  ledger : Ledger
  /-- The values whose destructors have unwound. -/
  unwound : List ℕ

def empty : State := ⟨.empty, []⟩

/-- The operation ended the value `id`, and the destructor of that as told. -/
def State.settle (s : State) (id : ℕ) (outcome : Outcome) (t : Ledger) : State :=
  match outcome with
  | .returns => ⟨t, s.unwound⟩
  | .unwinds => ⟨t, s.unwound ++ [id]⟩

variable [FieldOffsets]

def insertAt {k : StorageKind} (pinned : Bool) (D : DynTrait) (this : Option (DynObject k.Carrier))
    {T : RustType} (v : Value T) (here tmp answer : Addr) (destructor : Outcome) (w : World) :
    Except Fault (Option Addr × DynObject k.Carrier × World) :=
  if pinned then DynObject.insertPinned D this v here tmp answer destructor w
  else DynObject.insert D this v here tmp answer destructor w

/-- A step of the ledger, in which the destructor that `Drop` or `insert` runs may unwind. -/
def step (s : State) (a : Op) : Except Fault (Outcome × State) :=
  match a.op with
  | .insert pinned x _ _ T v here tmp answer =>
    match s.ledger.vars x with
    | none => (s.ledger.step a.op).map fun (out, t) => (out, ⟨t, s.unwound⟩)
    | some h =>
      if h.addr = DynObject.someAt h.kind.Carrier here then do
        let (p, o, w) ← insertAt pinned h.dyn (some h.obj) v here tmp answer a.destructor
          s.ledger.world
        let t := s.ledger.enroll x { h with obj := o, id := s.ledger.next, ty := T }
          (Ledger.aboutInsert h.id s.ledger.next) w
        -- without a reference to the new value, the panic goes on
        let outcome := if p.isSome then .returns else .unwinds
        return (outcome, s.settle h.id outcome t)
      else .error .notAvailable
  | .drop x =>
    match s.ledger.vars x with
    | none => .error .notAvailable
    | some h => do
      let (outcome, w) ← h.obj.drop h.addr a.destructor s.ledger.world
      return (outcome, s.settle h.id outcome (s.ledger.commit x none (fun _ => h.id) w))
  | op => (s.ledger.step op).map fun (out, t) => (out, ⟨t, s.unwound⟩)

variable {s s' t t' : Ledger} {leaks : List (ℕ × Block)} {x : ℕ} {c : Option Held}
  {about : Event → ℕ} {w w' : World} {op : Ledger.Op} {out : Outcome}

/-- The blocks that the value `i` has left behind, as if they were freed. -/
def leaksOf (leaks : List (ℕ × Block)) (i : ℕ) : List Event :=
  (leaks.filter (·.1 = i)).map fun l => .dealloc l.2

/-- `t` is where the same operations lead if the destructors return: it differs in that the
blocks in `leaks` are freed. -/
structure Calm (leaks : List (ℕ × Block)) (s t : Ledger) : Prop where
  inv : Inv t
  vars : s.vars = t.vars
  next : s.next = t.next
  world : World.Extra (leaks.map (·.2)) s.world t.world
  gone : ∀ l ∈ leaks, l.1 < t.next ∧ ∀ x h, t.vars x = some h → h.id ≠ l.1
  sub : ∀ i, (s.history i).Sublist (t.history i)
  history : ∀ i, (t.history i).filter (!·.accesses) =
    (s.history i).filter (!·.accesses) ++ leaksOf leaks i

/-- A value that an operation may speak of. -/
def Known (t : Ledger) (i : ℕ) : Prop := i = t.next ∨ ∃ x h, t.vars x = some h ∧ h.id = i

omit [FieldOffsets] in
theorem mem_leaksOf {i : ℕ} {b : Block} : .dealloc b ∈ leaksOf leaks i ↔ (i, b) ∈ leaks := by
  simp [leaksOf, and_comm]

theorem Calm.leaksOf_known (hc : Calm leaks s t) {i : ℕ} (hi : Known t i) :
    leaksOf leaks i = [] := by
  have hnone : leaks.filter (·.1 = i) = [] := by
    apply List.filter_eq_nil_iff.mpr
    intro l hl hli
    obtain ⟨hlt, hgone⟩ := hc.gone l hl
    obtain rfl : l.1 = i := by simpa using hli
    rcases hi with hi | ⟨x, h, hx, hi⟩
    · omega
    · exact hgone x h hx hi
  rw [leaksOf, hnone, List.map_nil]

/-- What an operation does to the two heaps and adds to the two histories when it leaves
the blocks in `more` behind. -/
structure Leaves (leaks more : List (ℕ × Block)) (about : Event → ℕ) (w' w : World) : Prop where
  wf : w'.mem.Wf
  cells : w'.mem.cells = w.mem.cells
  blocks : w'.mem.blocks.Perm (w.mem.blocks ++ (leaks ++ more).map (·.2))
  sub : ∀ i, (w'.trace.filter (about · = i)).Sublist (w.trace.filter (about · = i))
  adds : ∀ i, (w.trace.filter (about · = i)).filter (!·.accesses) =
    (w'.trace.filter (about · = i)).filter (!·.accesses) ++ leaksOf more i

omit [FieldOffsets] in
theorem Leaves.of_extra (he : World.Extra (leaks.map (·.2)) w' w) : Leaves leaks [] about w' w where
  wf := he.wf
  cells := he.cells
  blocks := by simpa using he.blocks
  sub i := by rw [he.trace]
  adds i := by simp [he.trace, leaksOf]

theorem Calm.advance {more : List (ℕ × Block)} {m n : ℕ} (hc : Calm leaks s t)
    (hi : Inv { t.commit x c about w with next := n }) (hm : m = n) (hn : t.next ≤ n)
    (hl : Leaves leaks more about w' w) (hknown : ∀ h ∈ c, Known t h.id)
    (habout : ∀ e, Known t (about e))
    (hmore : ∀ l ∈ more, ∃ h, t.vars x = some h ∧ l.1 = h.id ∧ ∀ h' ∈ c, h'.id ≠ h.id) :
    Calm (leaks ++ more) { s.commit x c about w' with next := m }
      { t.commit x c about w with next := n } where
  inv := hi
  vars := by simp only [Ledger.commit, hc.vars]
  next := hm
  world := ⟨hl.wf, hl.cells, hl.blocks, rfl⟩
  gone := by
    have hvars : ∀ y h, (t.commit x c about w).vars y = some h →
        h ∈ c ∨ y ≠ x ∧ t.vars y = some h := by
      intro y h hy
      by_cases hyx : y = x
      · subst hyx
        exact Or.inl (by simpa [Ledger.commit] using hy)
      · exact Or.inr ⟨hyx, by simpa [Ledger.commit, hyx] using hy⟩
    intro l hl
    rcases List.mem_append.mp hl with hl | hl
    · obtain ⟨hlt, hgone⟩ := hc.gone l hl
      refine ⟨Nat.lt_of_lt_of_le hlt hn, ?_⟩
      intro y h hy
      rcases hvars y h hy with hh | ⟨-, hy⟩
      · rcases hknown h hh with hid | ⟨z, h', hz, hid⟩
        · omega
        · exact hid ▸ hgone z h' hz
      · exact hgone y h hy
    · obtain ⟨h₀, hx, hid, hnew⟩ := hmore l hl
      rw [hid]
      refine ⟨Nat.lt_of_lt_of_le (hc.inv.built x h₀ hx).2 hn, ?_⟩
      intro y h hy
      rcases hvars y h hy with hh | ⟨hyx, hy⟩
      · exact hnew h hh
      · exact fun he => hyx (hc.inv.distinct y x h h₀ hy hx he)
  sub i := by
    change ((s.commit x c about w').history i).Sublist ((t.commit x c about w).history i)
    rw [Ledger.history_commit, Ledger.history_commit]
    exact (hc.sub i).append (hl.sub i)
  history i := by
    change ((t.commit x c about w).history i).filter _ =
      ((s.commit x c about w').history i).filter _ ++ _
    have hadds := hl.adds i
    have hleaks : leaksOf (leaks ++ more) i = leaksOf leaks i ++ leaksOf more i := by
      simp [leaksOf]
    rw [Ledger.history_commit, Ledger.history_commit, List.filter_append, List.filter_append,
      hc.history, hadds, hleaks]
    by_cases hnone : leaksOf leaks i = []
    · simp [hnone]
    · -- nothing is said any more about a value that has left a block behind
      have hquiet : w.trace.filter (about · = i) = [] := by
        apply List.filter_eq_nil_iff.mpr
        intro e _ he
        have he : about e = i := by simpa using he
        exact hnone (hc.leaksOf_known (he ▸ habout e))
      rw [hquiet] at hadds
      obtain ⟨hw', hmore⟩ := List.append_eq_nil_iff.mp hadds.symm
      simp [hw', hmore]

theorem Calm.commit {more : List (ℕ × Block)} (hc : Calm leaks s t)
    (hi : Inv (t.commit x c about w)) (hl : Leaves leaks more about w' w)
    (hknown : ∀ h ∈ c, Known t h.id) (habout : ∀ e, Known t (about e))
    (hmore : ∀ l ∈ more, ∃ h, t.vars x = some h ∧ l.1 = h.id ∧ ∀ h' ∈ c, h'.id ≠ h.id) :
    Calm (leaks ++ more) (s.commit x c about w') (t.commit x c about w) :=
  hc.advance hi hc.next (Nat.le_refl _) hl hknown habout hmore

theorem Calm.enroll {more : List (ℕ × Block)} {h : Held} (hc : Calm leaks s t)
    (hi : Inv (t.enroll x h about w)) (hl : Leaves leaks more about w' w) (hid : h.id = t.next)
    (habout : ∀ e, Known t (about e))
    (hmore : ∀ l ∈ more, ∃ h₀, t.vars x = some h₀ ∧ l.1 = h₀.id) :
    Calm (leaks ++ more) (s.enroll x h about w') (t.enroll x h about w) := by
  refine hc.advance hi (congrArg (· + 1) hc.next) (Nat.le_succ _) hl ?_ habout ?_
  · rintro _ ⟨⟩
    exact Or.inl hid
  · intro l hm
    obtain ⟨h₀, hx, hl⟩ := hmore l hm
    refine ⟨h₀, hx, hl, ?_⟩
    rintro _ ⟨⟩
    have := (hc.inv.built x h₀ hx).2
    omega

/-- The construction of an object in an empty variable. -/
theorem Calm.construct {h : Held} (hc : Calm leaks s t) (hid : h.id = t.next)
    (he : World.Extra (leaks.map (·.2)) w' w)
    (hstep : t.step op = .ok (out, t.enroll x h (fun _ => t.next) w)) :
    ∃ t', t.step op = .ok (out, t') ∧ Calm leaks (s.enroll x h (fun _ => t.next) w') t' := by
  have h := hc.enroll (Ledger.inv_step hc.inv hstep) (.of_extra he) hid (fun _ => Or.inl rfl)
    (by simp)
  rw [List.append_nil] at h
  exact ⟨_, hstep, h⟩

section
variable {h : Held} {T U : RustType} {v : Value T} {here tmp answer : Addr} {k : StorageKind}
  {D : DynTrait} {o : DynObject k.Carrier}

omit [FieldOffsets] in
theorem known_held (hx : t.vars x = some h) : Known t h.id := Or.inr ⟨x, h, hx, rfl⟩

/-- An operation on the object in `x`. -/
theorem Calm.use (hc : Calm leaks s t) (hx : t.vars x = some h) (hid : ∀ h' ∈ c, h'.id = h.id)
    (he : World.Extra (leaks.map (·.2)) w' w)
    (hstep : t.step op = .ok (out, t.commit x c (fun _ => h.id) w)) :
    ∃ t', t.step op = .ok (out, t') ∧ Calm leaks (s.commit x c (fun _ => h.id) w') t' := by
  have h := hc.commit (Ledger.inv_step hc.inv hstep) (.of_extra he)
    (fun h' hm => hid h' hm ▸ known_held hx) (fun _ => known_held hx) (by simp)
  rw [List.append_nil] at h
  exact ⟨_, hstep, h⟩

/-- The object that is built is the same over both heaps. -/
theorem Calm.new (hc : Calm leaks s t) (ho : DynObject.new D v here answer s.world = .ok (o, w')) :
    ∃ w, DynObject.new D v here answer t.world = .ok (o, w) ∧
      World.Extra (leaks.map (·.2)) w' w := by
  obtain ⟨w, hw⟩ := StorageKind.new_mono hc.world.fresh ho
  obtain ⟨-, hf, rfl⟩ := DynObject.new_ok ho
  obtain ⟨-, -, rfl⟩ := DynObject.new_ok hw
  exact ⟨_, hw, (hc.world.acquire fun b hb => ⟨(hf b hb).2, ownedBlock_size hb⟩).put _ _⟩

theorem Calm.fromBox (hc : Calm leaks s t) {b : StdBox T} {w₁' : World}
    (hb : StdBox.new v answer s.world = .ok (b, w₁')) (ho : k.fromBox D b here w₁' = .ok (o, w')) :
    ∃ w₁ w, StdBox.new v answer t.world = .ok (b, w₁) ∧ k.fromBox D b here w₁ = .ok (o, w) ∧
      World.Extra (leaks.map (·.2)) w' w := by
  obtain ⟨w₁, hb'⟩ := StdBox.new_mono hc.world.fresh hb
  obtain ⟨hf, rfl⟩ := StdBox.new_ok hb
  obtain ⟨-, rfl⟩ := StdBox.new_ok hb'
  have he : World.Extra (leaks.map (·.2)) ((s.world.acquire (boxBlock T b.ptr)).put b.ptr v)
      ((t.world.acquire (boxBlock T b.ptr)).put b.ptr v) := by
    refine (hc.world.acquire ?_).put _ _
    intro a ha
    obtain ⟨rfl, hn⟩ := boxBlock_layout ha
    exact ⟨(hf _ ha).2, hn⟩
  have hlive : ∀ a ∈ boxBlock T b.ptr,
      a ∈ ((t.world.acquire (boxBlock T b.ptr)).put b.ptr v).mem.blocks := by
    intro a ha
    simp only [World.mem_put, Memory.blocks_store, World.blocks_acquire]
    exact List.mem_append_left _ (Option.mem_toList.mpr ha)
  obtain ⟨w, ho'⟩ := StorageKind.fromBox_mono hlive ho
  refine ⟨_, w, hb', ho', ?_⟩
  obtain ⟨-, ⟨hp, rfl⟩ | ⟨hp, w₂', hw₂', rfl⟩⟩ := StorageKind.fromBox_ok ho
  · obtain ⟨-, ⟨-, rfl⟩ | ⟨hn, -⟩⟩ := StorageKind.fromBox_ok ho'
    · exact he
    · cases hp.symm.trans hn
  · obtain ⟨-, ⟨hn, -⟩ | ⟨-, w₂, hw₂, rfl⟩⟩ := StorageKind.fromBox_ok ho'
    · cases hp.symm.trans hn
    · obtain ⟨-, rfl⟩ := World.release_ok.mp hw₂'
      obtain ⟨-, rfl⟩ := World.release_ok.mp hw₂
      rw [he.read]
      exact ((he.record _).released hlive).put _ _

theorem extra_settle {more : List Block} {w' w : World} (he : World.Extra more w' w)
    (outcome : Outcome) : World.Extra more (o.settle T here tmp outcome w').2
      (o.settle T here tmp outcome w).2 := by
  cases outcome with
  | returns => exact (he.moveBytes _ _ _).record _
  | unwinds => exact he.moveBytes _ _ _

/-- What a drop of the object leaves behind. -/
def left (h : Held) (d : Outcome) : List (ℕ × Block) :=
  match DynObject.dropOutcome h.ty d with
  | .returns => []
  | .unwinds => (h.obj.block h.ty).toList.map (h.id, ·)

theorem left_returns (h : Held) : left h .returns = [] := by
  rw [left, DynObject.dropOutcome_returns]

omit [FieldOffsets] in
theorem endEvent_of_unwinds {d : Outcome} (hd : DynObject.dropOutcome T d = .unwinds) (p : Addr) :
    DynObject.endEvent T p = .destructor T p := by
  unfold DynObject.dropOutcome at hd
  split at hd
  · rename_i h
    simp [DynObject.endEvent, h.1]
  · cases hd

theorem Calm.drop (hc : Calm leaks s t) (hx : t.vars x = some h) (d : Outcome) :
    ∃ t', t.step (.drop x) = .ok (.returns, t') ∧
      Calm (leaks ++ left h d) (s.commit x none (fun _ => h.id)
        (h.obj.afterDrop h.ty h.addr d s.world)) t' := by
  have hlive := Ledger.live_of_held hc.inv hx
  have hstep : t.step (.drop x) = .ok (.returns, t.commit x none (fun _ => h.id)
      ((t.world.record (DynObject.endEvent h.ty (h.obj.place h.addr))).released
        (h.obj.block h.ty))) := by
    simp only [Ledger.step, hx]
    rw [DynObject.drop_live (hc.inv.built x h hx).1 (w := t.world) hlive,
      DynObject.dropOutcome_returns, DynObject.afterDrop_returns]
    rfl
  have hi := Ledger.inv_step hc.inv hstep
  cases hd : DynObject.dropOutcome h.ty d with
  | returns =>
    simp only [left, hd, List.append_nil, DynObject.afterDrop]
    exact hc.use hx (by rintro _ ⟨⟩) ((hc.world.record _).released hlive) hstep
  | unwinds =>
    rw [endEvent_of_unwinds hd] at hstep hi
    have he := hc.world.record (.destructor h.ty (h.obj.place h.addr))
    simp only [left, hd, DynObject.afterDrop]
    refine ⟨_, hstep, hc.commit hi ⟨he.wf, ?_, he.kept hlive h.id, ?_, ?_⟩
      (by rintro _ ⟨⟩) (fun _ => known_held hx) ?_⟩
    · rw [World.cells_released]
      exact he.cells
    · intro i
      rw [World.trace_released, ← he.trace, List.filter_append]
      exact List.sublist_append_left _ _
    · intro i
      rw [World.trace_released, ← he.trace]
      cases h.obj.block h.ty <;> by_cases hid : h.id = i <;>
        simp [leaksOf, Event.accesses, Ledger.world, hid]
    · intro l hl
      obtain ⟨b, -, rfl⟩ := List.mem_map.mp hl
      exact ⟨h, hx, rfl, by rintro _ ⟨⟩⟩

theorem Calm.insert_empty {d : Outcome} {p : Option Addr} (hc : Calm leaks s t)
    (ho : DynObject.insert D none v here tmp answer d s.world = .ok (p, o, w')) :
    ∃ w, DynObject.insert D none v here tmp answer .returns t.world = .ok (p, o, w) ∧
      World.Extra (leaks.map (·.2)) w' w := by
  obtain ⟨w₁', hn'⟩ := DynObject.new_of_insert ho
  obtain ⟨w₁, hn, he⟩ := hc.new hn'
  obtain ⟨-, -, rfl⟩ := DynObject.new_ok hn'
  obtain ⟨-, -, rfl⟩ := DynObject.new_ok hn
  obtain ⟨q, w, hi⟩ : ∃ q w, DynObject.insert D none v here tmp answer .returns t.world =
    .ok (q, o, w) := DynObject.insert_isOk hn rfl
  obtain ⟨-, -, outcome, w₂', hd', hset'⟩ := DynObject.insert_ok ho
  obtain ⟨-, -, outcome, w₂, hd, hset⟩ := DynObject.insert_ok hi
  obtain ⟨rfl, rfl⟩ := Prod.mk.inj (Except.ok.inj hd')
  obtain ⟨rfl, rfl⟩ := Prod.mk.inj (Except.ok.inj hd)
  obtain ⟨rfl, rfl⟩ := Prod.mk.inj hset'
  obtain ⟨rfl, rfl⟩ := Prod.mk.inj hset
  exact ⟨_, hi, extra_settle he .returns⟩

/-- What an insertion over an object comes to over the two heaps, once the new one is built. -/
theorem Calm.insert_built {d : Outcome} {p : Option Addr} {o : DynObject h.kind.Carrier}
    (hc : Calm leaks s t) (hx : t.vars x = some h)
    (ho : DynObject.insert h.dyn (some h.obj) v here tmp answer d s.world = .ok (p, o, w')) :
    ∃ w₁' w₁ q, World.Extra (leaks.map (·.2)) w₁' w₁ ∧
      w₁.trace = (o.block T).toList.map .alloc ++ [.stored T (o.place tmp)] ∧
      (∀ b ∈ h.obj.block h.ty, b ∈ w₁.mem.blocks) ∧
      (p, w') = o.settle T here tmp (DynObject.dropOutcome h.ty d)
        (h.obj.afterDrop h.ty (DynObject.someAt h.kind.Carrier here) d w₁') ∧
      DynObject.insert h.dyn (some h.obj) v here tmp answer .returns t.world =
        .ok (q, o, (o.settle T here tmp .returns ((w₁.record (DynObject.endEvent h.ty
          (h.obj.place (DynObject.someAt h.kind.Carrier here)))).released
            (h.obj.block h.ty))).2) := by
  have hb := (hc.inv.built x h hx).1
  obtain ⟨w₁', hn'⟩ := DynObject.new_of_insert ho
  obtain ⟨w₁, hn, he⟩ := hc.new hn'
  obtain ⟨-, -, rfl⟩ := DynObject.new_ok hn'
  obtain ⟨-, -, rfl⟩ := DynObject.new_ok hn
  have hlive := DynObject.live_acquire_put (w := t.world) (b := o.block T) (q := o.place tmp)
    (v := v) (Ledger.live_of_held hc.inv hx)
  have hd : DynObject.dropSlot (some h.obj) here .returns _ = .ok (_, _) :=
    DynObject.drop_live hb hlive .returns
  rw [DynObject.dropOutcome_returns, DynObject.afterDrop_returns] at hd
  obtain ⟨q, w, hi⟩ := DynObject.insert_isOk hn hd
  obtain ⟨-, -, outcome, w₂', hd₂', hset'⟩ := DynObject.insert_ok ho
  obtain ⟨-, -, outcome, w₂, hd₂, hset⟩ := DynObject.insert_ok hi
  rw [DynObject.dropSlot, DynObject.drop_live hb (he.live hlive)] at hd₂'
  obtain ⟨rfl, rfl⟩ := Prod.mk.inj (Except.ok.inj hd₂')
  obtain ⟨rfl, rfl⟩ := Prod.mk.inj (Except.ok.inj (hd.symm.trans hd₂))
  obtain ⟨-, rfl⟩ := Prod.mk.inj hset
  refine ⟨_, _, q, he, ?_, hlive, hset', hi⟩
  simp [World.trace_acquire, Ledger.world]

omit [FieldOffsets] in
/-- Of the events of an insertion, the old value misses those of its release and the new one
its access when the destructor unwinds. -/
theorem filter_unwound {old new : ℕ} (hne : old < new) (T T' : RustType) (b c : Option Block)
    (p q src dst n r i : ℕ) :
    let es := b.toList.map .alloc ++ [.stored T p, .destructor T' q]
    let calm := es ++ c.toList.map .dealloc ++ [.copied src dst n, .accessed T r]
    let unwound := es ++ [.copied src dst n]
    (unwound.filter (Ledger.aboutInsert old new · = i)).Sublist
        (calm.filter (Ledger.aboutInsert old new · = i)) ∧
      (calm.filter (Ledger.aboutInsert old new · = i)).filter (!·.accesses) =
        (unwound.filter (Ledger.aboutInsert old new · = i)).filter (!·.accesses) ++
          leaksOf (c.toList.map (old, ·)) i := by
  intro es calm unwound
  constructor
  · apply List.Sublist.filter
    refine List.Sublist.append (List.sublist_append_left _ _) ?_
    exact .cons_cons _ (List.nil_sublist _)
  · cases b <;> cases c <;> by_cases hi : old = i <;> by_cases hn : new = i <;>
      first
      | omega
      | simp [es, calm, unwound, Ledger.aboutInsert, Event.accesses, leaksOf, hi, hn]

theorem Calm.insert_over {d : Outcome} {p : Option Addr} {o : DynObject h.kind.Carrier}
    (hc : Calm leaks s t) (hx : t.vars x = some h)
    (haddr : h.addr = DynObject.someAt h.kind.Carrier here)
    (ho : DynObject.insert h.dyn (some h.obj) v here tmp answer d s.world = .ok (p, o, w'))
    (pinned : Bool) (k : StorageKind) (D : DynTrait) :
    (if p.isSome then Outcome.returns else .unwinds) = DynObject.dropOutcome h.ty d ∧
    ∃ t', t.step (.insert pinned x k D T v here tmp answer) = .ok (.returns, t') ∧
      Calm (leaks ++ left h d) (s.enroll x { h with obj := o, id := t.next, ty := T }
        (Ledger.aboutInsert h.id t.next) w') t' := by
  obtain ⟨w₁', w₁, q, he, htrace, hlive, hset, hi⟩ := hc.insert_built hx ho
  have hstep : t.step (.insert pinned x k D T v here tmp answer) = .ok (.returns,
      t.enroll x { h with obj := o, id := t.next, ty := T } (Ledger.aboutInsert h.id t.next)
        (o.settle T here tmp .returns ((w₁.record (DynObject.endEvent h.ty
          (h.obj.place (DynObject.someAt h.kind.Carrier here)))).released
            (h.obj.block h.ty))).2) := by
    simp only [Ledger.step, hx, haddr, if_true, Ledger.insertAt_eq, hi]
    rfl
  have hinv := Ledger.inv_step hc.inv hstep
  have habout : ∀ e, Known t (Ledger.aboutInsert h.id t.next e) := by
    intro e
    cases e with
    | dealloc | destructor | lapsed => exact known_held hx
    | _ => exact Or.inl rfl
  cases hout : DynObject.dropOutcome h.ty d with
  | returns =>
    simp only [hout, DynObject.afterDrop] at hset
    obtain ⟨rfl, rfl⟩ := Prod.mk.inj hset
    simp only [left, hout]
    refine ⟨rfl, _, hstep, hc.enroll hinv (.of_extra ?_) rfl habout (by simp)⟩
    exact extra_settle ((he.record _).released hlive) .returns
  | unwinds =>
    simp only [hout, DynObject.afterDrop] at hset
    obtain ⟨rfl, rfl⟩ := Prod.mk.inj hset
    rw [endEvent_of_unwinds hout] at hstep hinv
    simp only [left, hout]
    have hlt := (hc.inv.built x h hx).2
    have hfilter := filter_unwound hlt T h.ty (o.block T) (h.obj.block h.ty) (o.place tmp)
      (h.obj.place (DynObject.someAt h.kind.Carrier here)) tmp
      (DynObject.someAt h.kind.Carrier here) (DynObject.size h.kind.Carrier)
      (o.place (DynObject.someAt h.kind.Carrier here))
    simp only [List.append_assoc, List.cons_append, List.nil_append] at hfilter
    refine ⟨rfl, _, hstep, hc.enroll hinv ⟨?_, ?_, ?_, ?_, ?_⟩ rfl habout ?_⟩
    · exact ((he.record _).moveBytes _ _ _).wf
    · apply World.cells_moveBytes
      rw [World.cells_released]
      exact he.cells
    · exact (he.record _).kept hlive h.id
    · intro i
      simp only [DynObject.settle, World.trace_record, World.trace_moveBytes,
        World.trace_released, he.trace, htrace, List.append_assoc, List.cons_append,
        List.nil_append]
      exact (hfilter i).1
    · intro i
      simp only [DynObject.settle, World.trace_record, World.trace_moveBytes,
        World.trace_released, he.trace, htrace, List.append_assoc, List.cons_append,
        List.nil_append]
      exact (hfilter i).2
    · intro l hl
      obtain ⟨b, -, rfl⟩ := List.mem_map.mp hl
      exact ⟨h, hx, rfl⟩

end

/-- An operation whose destructor returns does the same over both heaps. -/
theorem step_calm (hc : Calm leaks s t) (h : s.step op = .ok (out, s')) :
    ∃ t', t.step op = .ok (out, t') ∧ Calm leaks s' t' := by
  have hs := hc.inv
  cases op with
  | new x k D T v here answer =>
    cases hx : t.vars x with
    | some _ => simp [Ledger.step, hc.vars, hx] at h
    | none =>
      simp only [Ledger.step, hc.vars, hx] at h
      obtain ⟨⟨o, w'⟩, ho, h⟩ := bind_ok.mp h
      obtain ⟨rfl, rfl⟩ := Prod.mk.inj (pure_ok.mp h)
      obtain ⟨w, hw, he⟩ := hc.new ho
      have hstep : t.step (.new x k D T v here answer) =
          .ok (.returns, t.enroll x ⟨k, D, o, here, t.next, T⟩ (fun _ => t.next) w) := by
        simp only [Ledger.step, hx]
        exact bind_ok.mpr ⟨_, hw, rfl⟩
      rw [hc.next]
      exact hc.construct rfl he hstep
  | fromBox x k D T v here answer =>
    cases hx : t.vars x with
    | some _ => simp [Ledger.step, hc.vars, hx] at h
    | none =>
      simp only [Ledger.step, hc.vars, hx] at h
      obtain ⟨⟨b, w₁'⟩, hb, h⟩ := bind_ok.mp h
      obtain ⟨⟨o, w'⟩, ho, h⟩ := bind_ok.mp h
      obtain ⟨rfl, rfl⟩ := Prod.mk.inj (pure_ok.mp h)
      obtain ⟨w₁, w, hb', ho', he⟩ := hc.fromBox hb ho
      have hstep : t.step (.fromBox x k D T v here answer) =
          .ok (.returns, t.enroll x ⟨k, D, o, here, t.next, T⟩ (fun _ => t.next) w) := by
        simp only [Ledger.step, hx]
        exact bind_ok.mpr ⟨_, hb', bind_ok.mpr ⟨_, ho', rfl⟩⟩
      rw [hc.next]
      exact hc.construct rfl he hstep
  | move x dst =>
    cases hx : t.vars x with
    | none => simp [Ledger.step, hc.vars, hx] at h
    | some h₀ =>
      simp only [Ledger.step, hc.vars, hx] at h
      obtain ⟨rfl, rfl⟩ := Prod.mk.inj (Except.ok.inj h)
      refine hc.use hx ?_ (hc.world.moveBytes _ _ _) (by simp only [Ledger.step, hx])
      rintro _ ⟨⟩
      rfl
  | call x name body =>
    cases hx : t.vars x with
    | none => simp [Ledger.step, hc.vars, hx] at h
    | some h₀ =>
      simp only [Ledger.step, hc.vars, hx, DynObject.call_eq (hs.built x h₀ hx).1] at h
      split at h
      · rename_i hname
        obtain ⟨rfl, rfl⟩ := Prod.mk.inj (pure_ok.mp h)
        rw [hc.world.read]
        refine hc.use hx ?_ ((hc.world.record _).write _ _) ?_
        · rintro _ ⟨⟩
          rfl
        · simp only [Ledger.step, hx, DynObject.call_eq (hs.built x h₀ hx).1, if_pos hname]
          rfl
      · cases h
  | downcastRef x U body =>
    cases hx : t.vars x with
    | none => simp [Ledger.step, hc.vars, hx] at h
    | some h₀ =>
      simp only [Ledger.step, hc.vars, hx, DynObject.downcastRef_eq (hs.built x h₀ hx).1] at h
      obtain ⟨rfl, rfl⟩ := Prod.mk.inj (pure_ok.mp h)
      refine hc.use hx ?_ (hc.world.useRef body _) ?_
      · rintro _ ⟨⟩
        rfl
      · simp only [Ledger.step, hx, DynObject.downcastRef_eq (hs.built x h₀ hx).1]
        rfl
  | downcastMut x U body =>
    cases hx : t.vars x with
    | none => simp [Ledger.step, hc.vars, hx] at h
    | some h₀ =>
      simp only [Ledger.step, hc.vars, hx, DynObject.downcastMut_eq (hs.built x h₀ hx).1] at h
      obtain ⟨rfl, rfl⟩ := Prod.mk.inj (pure_ok.mp h)
      refine hc.use hx ?_ (hc.world.useRef body _) ?_
      · rintro _ ⟨⟩
        rfl
      · simp only [Ledger.step, hx, DynObject.downcastMut_eq (hs.built x h₀ hx).1]
        rfl
  | downcast x U here =>
    cases hx : t.vars x with
    | none => simp [Ledger.step, hc.vars, hx] at h
    | some h₀ =>
      have hb := (hs.built x h₀ hx).1
      have hlive := Ledger.live_of_held hs hx
      have hmoved := hc.world.moveBytes h₀.addr here (DynObject.size h₀.kind.Carrier)
      simp only [Ledger.step, hc.vars, hx] at h
      by_cases hi : h₀.obj.is U = true
      · obtain rfl := DynObject.eq_of_is hb hi
        rw [DynObject.downcast_of_is hb hi (hmoved.live hlive)] at h
        obtain ⟨rfl, rfl⟩ := Prod.mk.inj (pure_ok.mp h)
        refine hc.use hx (by rintro _ ⟨⟩) ((hmoved.record _).released hlive) ?_
        simp only [Ledger.step, hx, DynObject.downcast_of_is hb hi (w := t.world.moveBytes _ _ _)
          hlive]
        rfl
      · have hi := Bool.eq_false_iff.mpr hi
        rw [DynObject.downcast_of_not_is hi] at h
        obtain ⟨rfl, rfl⟩ := Prod.mk.inj (pure_ok.mp h)
        refine hc.use hx ?_ hmoved ?_
        · rintro _ ⟨⟩
          rfl
        · simp only [Ledger.step, hx, DynObject.downcast_of_not_is hi]
          rfl
  | insert pinned x k D T v here tmp answer =>
    cases hx : t.vars x with
    | none =>
      simp only [Ledger.step, hc.vars, hx, Ledger.insertAt_eq] at h
      obtain ⟨⟨p, o, w'⟩, ho, h⟩ := bind_ok.mp h
      obtain ⟨rfl, rfl⟩ := Prod.mk.inj (pure_ok.mp h)
      obtain ⟨w, hw, he⟩ := hc.insert_empty ho
      rw [hc.next]
      refine hc.construct rfl he ?_
      simp only [Ledger.step, hx, Ledger.insertAt_eq, hw]
      rfl
    | some h₀ =>
      simp only [Ledger.step, hc.vars, hx, Ledger.insertAt_eq] at h
      split at h
      · rename_i haddr
        obtain ⟨⟨p, o, w'⟩, ho, h⟩ := bind_ok.mp h
        obtain ⟨rfl, rfl⟩ := Prod.mk.inj (pure_ok.mp h)
        obtain ⟨-, t', hstep, hc'⟩ := hc.insert_over hx haddr ho pinned k D
        rw [left_returns, List.append_nil] at hc'
        rw [hc.next]
        exact ⟨t', hstep, hc'⟩
      · cases h
  | drop x =>
    cases hx : t.vars x with
    | none => simp [Ledger.step, hc.vars, hx] at h
    | some h₀ =>
      simp only [Ledger.step, hc.vars, hx, DynObject.drop_live (hs.built x h₀ hx).1
        (hc.world.live (Ledger.live_of_held hs hx))] at h
      obtain ⟨rfl, rfl⟩ := Prod.mk.inj (pure_ok.mp h)
      obtain ⟨t', hstep, hc'⟩ := hc.drop hx .returns
      rw [left_returns, List.append_nil] at hc'
      rw [DynObject.dropOutcome_returns]
      exact ⟨t', hstep, hc'⟩

/-- The value `i` was stored, and is not any more. -/
def Gone (t : Ledger) (i : ℕ) : Prop := i < t.next ∧ ∀ x h, t.vars x = some h → h.id ≠ i

theorem Gone.step {i : ℕ} (hi : Gone t i) (hs : Inv t) (h : t.step op = .ok (out, t')) :
    Gone t' i := by
  obtain ⟨x, new, he⟩ := Ledger.step_exchange hs h
  refine ⟨Nat.lt_of_lt_of_le hi.1 he.next_le, ?_⟩
  intro y h hy
  by_cases hyx : y = x
  · subst hyx
    rw [he.vars_self] at hy
    rcases (he.new_id h hy).2 with hge | ⟨h₀, hm, hid⟩
    · have := hi.1
      omega
    · exact hid ▸ hi.2 y h₀ hm
  · rw [he.vars_ne hyx] at hy
    exact hi.2 y h hy

/-- The value that was in `x` before. -/
theorem gone_of_replaced {h : Held} (hs : Inv t) (hx : t.vars x = some h)
    (hv : t'.vars = Function.update t.vars x c) (hn : t.next ≤ t'.next)
    (hc : ∀ h' ∈ c, h'.id ≠ h.id) : Gone t' h.id := by
  refine ⟨Nat.lt_of_lt_of_le (hs.built x h hx).2 hn, ?_⟩
  intro y h' hy
  rw [hv] at hy
  by_cases hyx : y = x
  · subst hyx
    exact hc h' (by simpa using hy)
  · rw [Function.update_of_ne hyx] at hy
    exact fun he => hyx (hs.distinct y x h' h hy hx he)

/-- The state, and the ledger that the same operations lead to if all destructors return. -/
structure Related (leaks : List (ℕ × Block)) (s : State) (t : Ledger) : Prop where
  calm : Calm leaks s.ledger t
  left : ∀ l ∈ leaks, l.1 ∈ s.unwound
  gone : ∀ i ∈ s.unwound, Gone t i

theorem Related.settle {s : State} {s' : Ledger} {h : Held} {d : Outcome} (hr : Related leaks s t)
    (hstep : t.step op = .ok (out, t')) (hc : Calm (leaks ++ Panics.left h d) s' t')
    (hgone : Gone t' h.id) :
    Related (leaks ++ Panics.left h d) (s.settle h.id (DynObject.dropOutcome h.ty d) s') t' := by
  have hold : ∀ i ∈ s.unwound, Gone t' i := fun i hi => (hr.gone i hi).step hr.calm.inv hstep
  cases hout : DynObject.dropOutcome h.ty d with
  | returns =>
    simp only [Panics.left, hout, List.append_nil, State.settle] at hc ⊢
    exact ⟨hc, hr.left, hold⟩
  | unwinds =>
    simp only [Panics.left, hout, State.settle] at hc ⊢
    refine ⟨hc, ?_, ?_⟩
    · intro l hl
      rcases List.mem_append.mp hl with hl | hl
      · exact List.mem_append_left _ (hr.left l hl)
      · obtain ⟨b, -, rfl⟩ := List.mem_map.mp hl
        exact List.mem_append_right _ List.mem_cons_self
    · intro i hi
      rcases List.mem_append.mp hi with hi | hi
      · exact hold i hi
      · obtain rfl := List.mem_singleton.mp hi
        exact hgone

/-- Nothing that has been left behind is taken back, and a value whose destructor unwinds leaves
behind what it owns. -/
structure Grows (leaks leaks' : List (ℕ × Block)) (s s' : State) : Prop where
  mono : leaks ⊆ leaks'
  owned : ∀ i ∈ s'.unwound, i ∉ s.unwound → ∀ b, s.ledger.Owns i b → (i, b) ∈ leaks'

theorem Related.grows {s : State} {h : Held} {d : Outcome} (hr : Related leaks s t)
    (hx : t.vars x = some h) (s' : Ledger) : Grows leaks (leaks ++ Panics.left h d) s
      (s.settle h.id (DynObject.dropOutcome h.ty d) s') := by
  refine ⟨fun l => List.mem_append_left _, ?_⟩
  intro i hi hnew b ho
  cases hout : DynObject.dropOutcome h.ty d with
  | returns =>
    rw [hout] at hi
    exact absurd hi hnew
  | unwinds =>
    rw [hout] at hi
    obtain rfl : i = h.id := by simpa using (List.mem_append.mp hi).resolve_left hnew
    obtain ⟨y, h', hy, hid, hb⟩ := Ledger.owns_iff.mp ho
    rw [hr.calm.vars] at hy
    obtain rfl := hr.calm.inv.distinct y x h' h hy hx hid
    obtain rfl := Option.some.inj (hy.symm.trans hx)
    refine List.mem_append_right _ ?_
    simp only [Panics.left, hout]
    exact List.mem_map.mpr ⟨b, Option.mem_toList.mpr hb, rfl⟩

theorem insertAt_eq {k : StorageKind} {T : RustType} (pinned : Bool) (D : DynTrait)
    (this : Option (DynObject k.Carrier)) (v : Value T) (here tmp answer : Addr) (d : Outcome)
    (w : World) : insertAt pinned D this v here tmp answer d w =
      DynObject.insert D this v here tmp answer d w := by
  cases pinned <;> rfl

theorem step_related {s s' : State} {a : Op} (hr : Related leaks s t)
    (h : step s a = .ok (out, s')) : ∃ out' t' leaks', t.step a.op = .ok (out', t') ∧
      Related leaks' s' t' ∧ Grows leaks leaks' s s' := by
  have hplain : (s.ledger.step a.op).map (fun (out, t) => (out, (⟨t, s.unwound⟩ : State))) =
      .ok (out, s') → ∃ out' t' leaks', t.step a.op = .ok (out', t') ∧ Related leaks' s' t' ∧
        Grows leaks leaks' s s' := by
    intro hm
    cases hst : s.ledger.step a.op with
    | error e => simp [hst, Except.map] at hm
    | ok p =>
      obtain ⟨o, l⟩ := p
      obtain ⟨rfl, rfl⟩ : o = out ∧ ⟨l, s.unwound⟩ = s' := by simpa [hst, Except.map] using hm
      obtain ⟨t', hstep, hc⟩ := step_calm hr.calm hst
      exact ⟨_, t', leaks, hstep,
        ⟨hc, hr.left, fun i hi => (hr.gone i hi).step hr.calm.inv hstep⟩,
        ⟨fun _ => id, fun i hi hnew => absurd hi hnew⟩⟩
  obtain ⟨op, d⟩ := a
  cases op with
  | insert pinned x k D T v here tmp answer =>
    cases hx : t.vars x with
    | none =>
      simp only [step, hr.calm.vars, hx] at h
      exact hplain h
    | some h₀ =>
      have hlt := (hr.calm.inv.built x h₀ hx).2
      simp only [step, hr.calm.vars, hx, insertAt_eq] at h
      split at h
      · rename_i haddr
        obtain ⟨⟨p, o, w'⟩, ho, h⟩ := bind_ok.mp h
        obtain ⟨hout, t', hstep, hc⟩ := hr.calm.insert_over hx haddr ho pinned k D
        obtain ⟨-, rfl⟩ := Prod.mk.inj (pure_ok.mp h)
        rw [hr.calm.next, hout]
        refine ⟨_, t', _, hstep, hr.settle hstep hc ?_, hr.grows hx _⟩
        refine gone_of_replaced (c := some { h₀ with obj := o, id := t.next, ty := T })
          hr.calm.inv hx ?_ ?_ ?_
        · rw [← hc.vars, ← hr.calm.vars]
          rfl
        · rw [← hc.next, ← hr.calm.next]
          exact Nat.le_succ _
        · rintro _ ⟨⟩
          exact Nat.ne_of_gt hlt
      · cases h
  | drop x =>
    cases hx : t.vars x with
    | none => simp [step, hr.calm.vars, hx] at h
    | some h₀ =>
      simp only [step, hr.calm.vars, hx, DynObject.drop_live (hr.calm.inv.built x h₀ hx).1
        (hr.calm.world.live (Ledger.live_of_held hr.calm.inv hx))] at h
      obtain ⟨-, rfl⟩ := Prod.mk.inj (pure_ok.mp h)
      obtain ⟨t', hstep, hc⟩ := hr.calm.drop hx d
      refine ⟨_, t', _, hstep, hr.settle hstep hc ?_, hr.grows hx _⟩
      refine gone_of_replaced (c := none) hr.calm.inv hx ?_ ?_ (by rintro _ ⟨⟩)
      · rw [← hc.vars, ← hr.calm.vars]
        rfl
      · exact Nat.le_of_eq (hr.calm.next.symm.trans hc.next)
  | _ => exact hplain h

theorem related_empty : Related [] empty .empty where
  calm := ⟨Ledger.inv_empty, rfl, rfl, ⟨⟨.nil, nofun⟩, rfl, .refl _, rfl⟩, nofun,
    fun _ => .refl _, fun _ => rfl⟩
  left := nofun
  gone := nofun

/-- A value has left the block behind: its destructor unwound before the block was freed. -/
def Leaked (s : State) (i : ℕ) (b : Block) : Prop :=
  i ∈ s.unwound ∧ .alloc b ∈ s.ledger.history i ∧ .dealloc b ∉ s.ledger.history i

/-- `Ledger.Exact`, but for the blocks that have leaked. -/
structure Exact (s : State) : Prop where
  nodup : s.ledger.mem.blocks.Nodup
  blocks : ∀ b, b ∈ s.ledger.mem.blocks ↔ ∃ i, s.ledger.Owns i b ∨ Leaked s i b
  proper : ∀ i, ∃ T, ∀ e ∈ s.ledger.history i, e.Proper T
  ended : ∀ i < s.ledger.next,
    s.ledger.Live i ∧ (s.ledger.history i).countP Event.ends = 0 ∨
      ¬ s.ledger.Live i ∧ (s.ledger.history i).countP Event.ends = 1
  freed : ∀ i b, .alloc b ∈ s.ledger.history i →
    (s.ledger.Owns i b ∨ Leaked s i b) ∧ (s.ledger.history i).count (.dealloc b) = 0 ∨
      ¬ (s.ledger.Owns i b ∨ Leaked s i b) ∧ (s.ledger.history i).count (.dealloc b) = 1
  order : ∀ i pre b post, s.ledger.history i = pre ++ .dealloc b :: post →
    .alloc b ∈ pre ∧ ∃ e ∈ pre, e.empties = true
  unwound : ∀ i ∈ s.unwound, i < s.ledger.next ∧ ¬ s.ledger.Live i

/-- What a value owned when its destructor unwound has leaked from then on. -/
structure Keeps (s s' : State) : Prop where
  leaked : ∀ i b, Leaked s i b → Leaked s' i b
  owned : ∀ i ∈ s'.unwound, i ∉ s.unwound → ∀ b, s.ledger.Owns i b → Leaked s' i b

section
variable {s : State} (hr : Related leaks s t)

include hr

theorem owns_iff_calm (i : ℕ) (b : Block) : s.ledger.Owns i b ↔ t.Owns i b := by
  simp only [Ledger.Owns, hr.calm.vars]

theorem live_iff_calm (i : ℕ) : s.ledger.Live i ↔ t.Live i := by
  simp only [Ledger.Live, hr.calm.vars]

/-- Events that are no accesses happen as often as in the calm run, but for the releases. -/
theorem count_calm (i : ℕ) (p : Event → Bool) (hp : ∀ e, p e → e.accesses = false) :
    (t.history i).countP p = (s.ledger.history i).countP p + (leaksOf leaks i).countP p := by
  have hfilter : ∀ es : List Event, es.countP p = (es.filter (!·.accesses)).countP p := by
    intro es
    rw [List.countP_filter]
    apply List.countP_congr
    intro e _
    simp +contextual [hp e]
  rw [hfilter, hfilter (s.ledger.history i), hr.calm.history, List.countP_append]

theorem count_dealloc (i : ℕ) (b : Block) : (t.history i).count (.dealloc b) =
    (s.ledger.history i).count (.dealloc b) + (leaksOf leaks i).count (.dealloc b) := by
  apply count_calm hr
  intro e he
  obtain rfl : e = .dealloc b := by simpa using he
  rfl

theorem alloc_iff_calm (i : ℕ) (b : Block) :
    .alloc b ∈ s.ledger.history i ↔ .alloc b ∈ t.history i := by
  refine ⟨fun h => (hr.calm.sub i).subset h, ?_⟩
  intro h
  have hm : Event.alloc b ∈ (t.history i).filter (!·.accesses) := List.mem_filter.mpr ⟨h, rfl⟩
  rw [hr.calm.history] at hm
  rcases List.mem_append.mp hm with hm | hm
  · exact List.mem_of_mem_filter hm
  · obtain ⟨l, -, he⟩ := List.mem_map.mp hm
    cases he

theorem leaked_iff (i : ℕ) (b : Block) : Leaked s i b ↔ (i, b) ∈ leaks := by
  have hex := Ledger.exact_of_inv hr.calm.inv
  have hcount := count_dealloc hr i b
  constructor
  · rintro ⟨hu, ha, hd⟩
    have hnot : ¬ t.Owns i b := by
      intro ho
      obtain ⟨x, h, hx, hid⟩ := ho.live
      exact (hr.gone i hu).2 x h hx hid
    rcases hex.freed i b ((alloc_iff_calm hr i b).mp ha) with ⟨ho, -⟩ | ⟨-, h1⟩
    · exact absurd ho hnot
    · rw [h1, List.count_eq_zero.mpr hd] at hcount
      exact mem_leaksOf.mp (List.count_pos_iff.mp (by omega))
  · intro hl
    have hpos := List.count_pos_iff.mpr (mem_leaksOf.mpr hl)
    have hmem : .dealloc b ∈ t.history i := List.count_pos_iff.mp (by omega)
    obtain ⟨pre, post, heq⟩ := List.append_of_mem hmem
    have ha : .alloc b ∈ t.history i := heq ▸ List.mem_append_left _ (hex.order i pre b post heq).1
    refine ⟨hr.left _ hl, (alloc_iff_calm hr i b).mpr ha, ?_⟩
    apply List.count_eq_zero.mp
    rcases hex.freed i b ha with ⟨-, h0⟩ | ⟨-, h1⟩ <;> omega

theorem keeps_of_step {s' : State} {a : Op} (h : step s a = .ok (out, s')) : Keeps s s' := by
  obtain ⟨_, _, _, -, hr', hg⟩ := step_related hr h
  constructor
  · intro i b hl
    exact (leaked_iff hr' i b).mpr (hg.mono ((leaked_iff hr i b).mp hl))
  · intro i hi hnew b ho
    exact (leaked_iff hr' i b).mpr (hg.owned i hi hnew b ho)

theorem remains_iff (i : ℕ) (b : Block) :
    s.ledger.Owns i b ∨ Leaked s i b ↔ t.Owns i b ∨ (i, b) ∈ leaks := by
  rw [owns_iff_calm hr, leaked_iff hr]

theorem freed_of_related (i : ℕ) (b : Block) (ha : .alloc b ∈ s.ledger.history i) :
    (s.ledger.Owns i b ∨ Leaked s i b) ∧ (s.ledger.history i).count (.dealloc b) = 0 ∨
      ¬ (s.ledger.Owns i b ∨ Leaked s i b) ∧ (s.ledger.history i).count (.dealloc b) = 1 := by
  have hcount := count_dealloc hr i b
  by_cases hl : (i, b) ∈ leaks
  · have hleaked := (leaked_iff hr i b).mpr hl
    exact Or.inl ⟨Or.inr hleaked, List.count_eq_zero.mpr hleaked.2.2⟩
  · have hzero := List.count_eq_zero.mpr fun h => hl (mem_leaksOf.mp h)
    rw [remains_iff hr]
    rcases (Ledger.exact_of_inv hr.calm.inv).freed i b ((alloc_iff_calm hr i b).mp ha) with
      ⟨ho, h0⟩ | ⟨ho, h1⟩
    · exact Or.inl ⟨Or.inl ho, by omega⟩
    · exact Or.inr ⟨by tauto, by omega⟩

/-- The order of the events is that of the calm run, accesses left out. -/
theorem order_of_related (i : ℕ) (pre : List Event) (b : Block) (post : List Event)
    (heq : s.ledger.history i = pre ++ .dealloc b :: post) :
    .alloc b ∈ pre ∧ ∃ e ∈ pre, e.empties = true := by
  have hfilter : (t.history i).filter (!·.accesses) = pre.filter (!·.accesses) ++
      .dealloc b :: (post.filter (!·.accesses) ++ leaksOf leaks i) := by
    rw [hr.calm.history, heq]
    simp [Event.accesses]
  obtain ⟨pre', post', heq', hpre, hpost⟩ := List.filter_eq_append_iff.mp hfilter
  obtain ⟨mid, rest, rfl, hmid, -, -⟩ := List.filter_eq_cons_iff.mp hpost
  have heq'' : t.history i = (pre' ++ mid) ++ .dealloc b :: rest := by simp [heq']
  obtain ⟨ha, e, he, hempties⟩ := (Ledger.exact_of_inv hr.calm.inv).order i _ b rest heq''
  have hsub : ∀ e ∈ pre' ++ mid, e.accesses = false → e ∈ pre := by
    intro e he hacc
    rcases List.mem_append.mp he with he | he
    · have hm : e ∈ pre'.filter (!·.accesses) := List.mem_filter.mpr ⟨he, by simp [hacc]⟩
      exact List.mem_of_mem_filter (hpre ▸ hm)
    · exact absurd (by simp [hacc]) (hmid e he)
  refine ⟨hsub _ ha rfl, e, hsub e he ?_, hempties⟩
  cases e <;> simp_all [Event.accesses, Event.empties]

theorem blocks_of_related (b : Block) :
    b ∈ s.ledger.mem.blocks ↔ ∃ i, s.ledger.Owns i b ∨ Leaked s i b := by
  have hmem : b ∈ s.ledger.mem.blocks ↔ b ∈ t.mem.blocks ∨ ∃ i, (i, b) ∈ leaks := by
    simpa [Ledger.world] using hr.calm.world.blocks.mem_iff (a := b)
  rw [hmem, (Ledger.exact_of_inv hr.calm.inv).blocks]
  simp only [remains_iff hr, exists_or]

theorem exact_of_related : Exact s where
  nodup := hr.calm.world.wf.nodup
  blocks := blocks_of_related hr
  proper i := by
    obtain ⟨T, hT⟩ := (Ledger.exact_of_inv hr.calm.inv).proper i
    exact ⟨T, fun e he => hT e ((hr.calm.sub i).subset he)⟩
  ended i hi := by
    have hends : ∀ e : Event, e.ends → e.accesses = false := by
      intro e he
      cases e <;> simp_all [Event.ends, Event.accesses]
    have hcount := count_calm hr i Event.ends hends
    have hzero : (leaksOf leaks i).countP Event.ends = 0 := by
      simp [leaksOf, List.countP_map, Event.ends, List.countP_eq_zero]
    rw [live_iff_calm hr]
    rw [hzero, Nat.add_zero] at hcount
    rw [← hcount]
    exact (Ledger.exact_of_inv hr.calm.inv).ended i (hr.calm.next ▸ hi)
  freed := freed_of_related hr
  order := order_of_related hr
  unwound i hi := by
    obtain ⟨hlt, hgone⟩ := hr.gone i hi
    refine ⟨hr.calm.next ▸ hlt, ?_⟩
    rw [live_iff_calm hr]
    rintro ⟨x, h, hx, hid⟩
    exact hgone x h hx hid

/-- No operation is undefined behavior, whatever has leaked before. -/
theorem error_of_related {a : Op} {e : Fault} (h : step s a = .error e) : ¬ e.Undefined := by
  have howned : Ledger.Owned s.ledger := by
    intro x h hx
    rw [hr.calm.vars] at hx
    exact ⟨(hr.calm.inv.built x h hx).1, hr.calm.world.live (Ledger.live_of_held hr.calm.inv hx)⟩
  have hplain : (s.ledger.step a.op).map (fun (out, t) => (out, (⟨t, s.unwound⟩ : State))) =
      .error e → ¬ e.Undefined := by
    intro hm
    cases hst : s.ledger.step a.op with
    | ok p => simp [hst, Except.map] at hm
    | error e' =>
      obtain rfl : e' = e := by simpa [hst, Except.map] using hm
      exact Ledger.step_error_of_owned howned hst
  obtain ⟨op, d⟩ := a
  cases op with
  | insert pinned x k D T v here tmp answer =>
    cases hx : s.ledger.vars x with
    | none =>
      simp only [step, hx] at h
      exact hplain h
    | some h₀ =>
      simp only [step, hx, insertAt_eq] at h
      split at h
      · rcases bind_error.mp h with ho | ⟨_, _, h⟩
        · refine DynObject.insert_error ?_ ho
          rintro _ ⟨⟩
          exact ⟨_, _, howned x h₀ hx⟩
        · exact (pure_ne_error h).elim
      · cases h
        decide
  | drop x =>
    cases hx : s.ledger.vars x with
    | none =>
      simp only [step, hx] at h
      cases h
      decide
    | some h₀ =>
      obtain ⟨hb, hlive⟩ := howned x h₀ hx
      simp only [step, hx, DynObject.drop_live hb (w := s.ledger.world) hlive] at h
      exact (pure_ne_error h).elim
  | _ => exact hplain h

end

variable {s : State} {ops : List Op} {outs : List Outcome}

theorem related_of_run (h : run step empty ops = .ok (outs, s)) :
    ∃ outs' t, run Ledger.step .empty (ops.map (·.op)) = .ok (outs', t) ∧
      ∃ leaks, Related leaks s t := by
  refine run_related (R := fun s t => ∃ leaks, Related leaks s t) ?_ ⟨[], related_empty⟩ h
  rintro s t a o s' ⟨leaks, hr⟩ hstep
  obtain ⟨out', t', leaks', hstep', hr', -⟩ := step_related hr hstep
  exact ⟨out', t', hstep', leaks', hr'⟩

/-- Destructors may unwind in any drop and any replacement of a run: no operation is undefined
behavior, every value still ends once and no block is freed twice. What is left in the heap
besides the blocks of live objects are the blocks of values whose destructor unwound, and these
stay there. -/
theorem exact_of_panics (h : run step empty ops = .ok (outs, s)) :
    Exact s ∧ (∀ a out s', step s a = .ok (out, s') → Keeps s s') ∧
      ∀ a e, step s a = .error e → ¬ e.Undefined := by
  obtain ⟨_, t, -, leaks, hr⟩ := related_of_run h
  exact ⟨exact_of_related hr, fun _ _ _ hs => keeps_of_step hr hs,
    fun _ _ he => error_of_related hr he⟩

/-- Nothing else comes of it: had all the destructors returned, the same operations would have
led to the same objects and the same bytes, over a heap without the leaked blocks. -/
theorem calm_of_panics (h : run step empty ops = .ok (outs, s)) :
    ∃ outs' t, ∃ leaks : List (ℕ × Block),
      run Ledger.step .empty (ops.map (·.op)) = .ok (outs', t) ∧
      t.vars = s.ledger.vars ∧ t.mem.cells = s.ledger.mem.cells ∧
      s.ledger.mem.blocks.Perm (t.mem.blocks ++ leaks.map (·.2)) ∧
      ∀ i b, (i, b) ∈ leaks ↔ Leaked s i b := by
  obtain ⟨outs', t, hrun, leaks, hr⟩ := related_of_run h
  exact ⟨outs', t, leaks, hrun, hr.calm.vars.symm, hr.calm.world.cells.symm,
    hr.calm.world.blocks, fun i b => (leaked_iff hr i b).symm⟩

/-- A boxed value is replaced, and a boxed one dropped: both destructors unwind. -/
def replaceDrop : List Op :=
  [⟨.new 0 .box .any (.droppable 1 2) (fun _ => some 1) 64 4096, .returns⟩,
    ⟨.insert false 0 .box .any (.droppable 2 4) (fun _ => some 2) 64 128 8192, .unwinds⟩,
    ⟨.drop 0, .unwinds⟩]

omit [FieldOffsets] in
theorem exact_of_panics_replaceDrop :
    ∃ outs s, run (@step .tagFirst) empty replaceDrop = .ok (outs, s) ∧
      @Exact .tagFirst s ∧
      (∀ a out s', @step .tagFirst s a = .ok (out, s') → @Keeps .tagFirst s s') ∧
      ∀ a e, @step .tagFirst s a = .error e → ¬ e.Undefined := by
  have h : ∃ outs s, run (@step .tagFirst) empty replaceDrop = .ok (outs, s) := ⟨_, _, rfl⟩
  obtain ⟨outs, s, h⟩ := h
  exact ⟨outs, s, h, @exact_of_panics .tagFirst _ _ _ h⟩

omit [FieldOffsets] in
theorem calm_of_panics_replaceDrop :
    ∃ outs s, run (@step .tagFirst) empty replaceDrop = .ok (outs, s) ∧
      ∃ outs' t, ∃ leaks : List (ℕ × Block),
        run (@Ledger.step .tagFirst) .empty (replaceDrop.map (·.op)) = .ok (outs', t) ∧
        t.vars = s.ledger.vars ∧ t.mem.cells = s.ledger.mem.cells ∧
        s.ledger.mem.blocks.Perm (t.mem.blocks ++ leaks.map (·.2)) ∧
        ∀ i b, (i, b) ∈ leaks ↔ Leaked s i b := by
  have h : ∃ outs s, run (@step .tagFirst) empty replaceDrop = .ok (outs, s) := ⟨_, _, rfl⟩
  obtain ⟨outs, s, h⟩ := h
  exact ⟨outs, s, h, @calm_of_panics .tagFirst _ _ _ h⟩

end Panics

end DynUtils
