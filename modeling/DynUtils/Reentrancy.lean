import DynUtils.LedgerExact

/-! Code of the user that the crate calls, methods and destructors, and what that code does with
the crate in turn: ownership at every moment of every such run. -/
namespace DynUtils

open FlatMemory Machine LawfulStorage

namespace DynObject
variable [FieldOffsets] {S : Type} [Storage S]

/-! The functions of `DynObject` that call such code, in the parts before and after. -/

/-- The vtable entry of a method, and the reference that it is called with. -/
def enterCall (self : DynObject S) (here : Addr) (name : String) :
    Except Fault (ErasedFn × Addr) :=
  match self.vtable.methods name with
  | none => .error .notAvailable
  | some f => do
    let p ← self.project here f.ty f.receiver
    return (f, p)

/-- `Drop` up to the destructor, and whether there is one to run. -/
def enterDrop (self : DynObject S) (here : Addr) (w : World) : Bool × World :=
  let p := Storage.ptrMut self.storage (storageAt S here)
  match self.vtable.dropInPlace with
  | some T => (true, w.record (.destructor T p))
  | none => (false, w.record (.lapsed p))

def leaveDrop (self : DynObject S) (w : World) : Except Fault World :=
  Storage.dropInPlace self.storage self.vtable.layout w

/-- `Option::insert` after the drop of what was there. -/
def leaveInsert (T : RustType) (value : DynObject S) (here tmp : Addr) (outcome : Outcome)
    (w : World) : Except Fault (Option Addr × World) :=
  let w := w.moveBytes tmp (someAt S here) (size S)
  match outcome with
  | .unwinds => .ok (none, w)
  | .returns => do
    let p ← Storage.asMut T value.storage (storageAt S (someAt S here))
    return (some p, w.record (.accessed T p))

variable {T : RustType} {w : World}

theorem call_eq_enter {R : Type} (self : DynObject S) (here : Addr) (name : String)
    (body : (T : RustType) → Value T → R × Value T) :
    self.call here name body w = do
      let (f, p) ← self.enterCall here name
      return ((body f.ty (w.read f.ty p)).1,
        (w.record (.accessed f.ty p)).write p (body f.ty (w.read f.ty p)).2) := by
  unfold call enterCall
  cases self.vtable.methods name with
  | none => rfl
  | some f =>
    simp only [bind_assoc]
    rfl

theorem drop_eq_enter (self : DynObject S) (here : Addr) (d : Outcome) :
    self.drop here d w =
      if (self.enterDrop here w).1 ∧ d = .unwinds then .ok (.unwinds, (self.enterDrop here w).2)
      else do
        let w ← self.leaveDrop (self.enterDrop here w).2
        return (.returns, w) := by
  unfold drop enterDrop
  cases self.vtable.dropInPlace with
  | none => rfl
  | some T => cases d <;> rfl

theorem insert_eq_leave (D : DynTrait) (this : Option (DynObject S)) (v : Value T)
    (here tmp answer : Addr) (d : Outcome) :
    insert D this v here tmp answer d w = do
      let (value, w) ← new D v tmp answer w
      let (outcome, w) ← dropSlot this here d w
      let (p, w) ← leaveInsert T value here tmp outcome w
      return (p, value, w) := by
  refine bind_congr fun (value, w₁) => ?_
  refine bind_congr (x := dropSlot this here d w₁) fun (outcome, w₂) => ?_
  cases outcome with
  | unwinds => rfl
  | returns =>
    unfold leaveInsert
    simp only [bind_assoc]
    rfl

section
variable [LawfulStorage S] {D : DynTrait} {o : DynObject S} {here : Addr}

theorem enterCall_ok (h : o.BuiltFor D T) {name : String} {f : ErasedFn} {p : Addr}
    (hc : o.enterCall here name = .ok (f, p)) : f.ty = T ∧ p = o.place here := by
  unfold enterCall at hc
  rw [h.vtable_eq] at hc
  simp only [DynTrait.vtable] at hc
  cases hr : D.receiver name with
  | none => simp [hr] at hc
  | some r =>
    simp only [hr, Option.map_some, project_eq h] at hc
    obtain ⟨rfl, rfl⟩ := Prod.mk.inj (Except.ok.inj hc)
    exact ⟨rfl, rfl⟩

theorem enterCall_error (h : o.BuiltFor D T) {name : String} {e : Fault}
    (hc : o.enterCall here name = .error e) : e = .notAvailable := by
  unfold enterCall at hc
  rw [h.vtable_eq] at hc
  simp only [DynTrait.vtable] at hc
  cases hr : D.receiver name with
  | none => simpa [hr] using hc.symm
  | some r =>
    simp only [hr, Option.map_some, project_eq h] at hc
    cases hc

theorem enterDrop_eq (h : o.BuiltFor D T) :
    o.enterDrop here w = (T.needsDrop, w.record (endEvent T (o.place here))) := by
  unfold enterDrop
  rw [h.vtable_eq, DynTrait.vtable_dropInPlace, ptrMut_eq, DynTrait.dropInPlaceFn, endEvent]
  cases T.needsDrop <;> rfl

omit [FieldOffsets] in
theorem leaveDrop_eq (h : o.BuiltFor D T) : o.leaveDrop w = w.release (o.block T) := by
  rw [leaveDrop, h.vtable_eq, DynTrait.vtable_layout]
  exact LawfulStorage.dropInPlace_eq h.constructed w

theorem leaveInsert_eq (h : o.BuiltFor D T) (tmp : Addr) (outcome : Outcome) :
    leaveInsert T o here tmp outcome w = .ok (o.settle T here tmp outcome w) := by
  cases outcome with
  | unwinds => rfl
  | returns =>
    unfold leaveInsert
    rw [asMut_eq h.constructed]
    rfl

end

end DynObject

namespace Reentrancy

/-- What has been entered and is not over. -/
inductive Frame
  /-- A method runs with a reference to the value in `x`. -/
  | method (x : ℕ) (shared : Bool) (T : RustType) (p : Addr)
  /-- The destructor of the value in `old` runs. -/
  | destructor (old : Held)
  /-- `insert` has built `new`, and will move it into the slot `x` at `here`. -/
  | insertion (x : ℕ) (new : Held) (here : Addr)

namespace Frame

/-- The frame has a reference to the variable. -/
def mentions (x : ℕ) : Frame → Bool
  | method y _ _ _ | insertion y _ _ => y = x
  | destructor _ => false

def isShared : Frame → Bool
  | method _ shared _ _ => shared
  | _ => false

/-- The object that only the frame has, and whether its value is alive. -/
def aside : Frame → Option (Held × Bool)
  | method _ _ _ _ => none
  | destructor old => some (old, false)
  | insertion _ new _ => some (new, true)

end Frame

structure State where
  ledger : Ledger
  /-- The innermost first. -/
  frames : List Frame
  /-- The objects whose destructors have unwound. -/
  lost : List Held

inductive Op
  /-- One that calls no code of the user. -/
  | plain (op : Ledger.Op)
  | call (x : ℕ) (name : String)
  /-- Storage and trait are those of the slot: of its object when there is one. -/
  | insert (x : ℕ) (k : StorageKind) (D : DynTrait) (T : RustType) (v : Value T)
    (here tmp answer : Addr)
  | drop (x : ℕ)
  /-- The innermost frame is over. A method has had its way with the value. -/
  | finish (how : Outcome) (body : (T : RustType) → Value T → Value T)

def empty : State := ⟨.empty, [], []⟩

/-- The variable that an operation is about, and whether a shared reference will do. -/
def subject : Ledger.Op → Option (ℕ × Bool)
  | .new x _ _ _ _ _ _ | .fromBox x _ _ _ _ _ _ | .move x _ | .downcastMut x _ _
  | .downcast x _ _ => some (x, false)
  | .downcastRef x _ _ => some (x, true)
  | .call _ _ _ | .insert _ _ _ _ _ _ _ _ _ | .drop _ => none

/-- The references that are there leave room for one more. -/
def State.available (s : State) (x : ℕ) (shared : Bool) : Bool :=
  s.frames.all fun f => !f.mentions x || (shared && f.isShared)

/-- Takes over what happened to the value `i`. -/
def note (s : Ledger) (i : ℕ) (w : World) : Ledger :=
  { s with
    mem := w.mem
    log := s.log ++ w.trace.map fun e => (i, e) }

variable [FieldOffsets]

/-- The end of a drop. -/
def release (s : State) (h : Held) : Except Fault State := do
  let w ← h.obj.leaveDrop s.ledger.world
  return { s with ledger := note s.ledger h.id w }

/-- `Drop` of the object in `x`. -/
def enterDrop (s : State) (x : ℕ) (h : Held) : Except Fault State :=
  let (runs, w) := h.obj.enterDrop h.addr s.ledger.world
  let s := { s with ledger := s.ledger.commit x none (fun _ => h.id) w }
  if runs then .ok { s with frames := .destructor h :: s.frames } else release s h

/-- `insert` builds the new object. -/
def enterInsert (s : State) (x : ℕ) (k : StorageKind) (D : DynTrait) {T : RustType} (v : Value T)
    (here tmp answer : Addr) : Except Fault State := do
  let (o, w) ← DynObject.new D v tmp answer s.ledger.world
  return { s with
    ledger := { note s.ledger s.ledger.next w with next := s.ledger.next + 1 }
    frames := .insertion x ⟨k, D, o, tmp, s.ledger.next, T⟩ here :: s.frames }

def step (s : State) : Op → Except Fault (Unit × State)
  | .plain op =>
    match subject op with
    | none => .error .notAvailable
    | some (x, shared) =>
      if s.available x shared then do
        let (_, t) ← s.ledger.step op
        return ((), { s with ledger := t })
      else .error .notAvailable
  | .call x name =>
    match s.ledger.vars x with
    | none => .error .notAvailable
    | some h => do
      let (f, p) ← h.obj.enterCall h.addr name
      let shared := decide (f.receiver = .ref)
      if s.available x shared then
        return ((), { s with
          ledger := note s.ledger h.id (s.ledger.world.record (.accessed f.ty p))
          frames := .method x shared f.ty p :: s.frames })
      else .error .notAvailable
  | .insert x k D _ v here tmp answer =>
    if s.available x false then
      match s.ledger.vars x with
      | none => do
        let s ← enterInsert s x k D v here tmp answer
        return ((), s)
      | some h =>
        if h.addr = DynObject.someAt h.kind.Carrier here then do
          let s ← enterInsert s x h.kind h.dyn v here tmp answer
          let s ← enterDrop s x h
          return ((), s)
        else .error .notAvailable
    else .error .notAvailable
  | .drop x =>
    if s.available x false then
      match s.ledger.vars x with
      | none => .error .notAvailable
      | some h => do
        let s ← enterDrop s x h
        return ((), s)
    else .error .notAvailable
  | .finish how body =>
    match s.frames with
    | [] => .error .notAvailable
    | .method _ _ T p :: frames =>
      .ok ((), { s with
        ledger.mem := (s.ledger.world.write p (body T (s.ledger.world.read T p))).mem
        frames := frames })
    | .destructor h :: frames =>
      match how with
      | .unwinds => .ok ((), { s with frames := frames, lost := h :: s.lost })
      | .returns => do
        let s ← release { s with frames := frames } h
        return ((), s)
    | .insertion x new here :: frames => do
      let (_, w) ← new.obj.leaveInsert new.ty here new.addr how s.ledger.world
      let at' := DynObject.someAt new.kind.Carrier here
      return ((), { s with
        ledger := s.ledger.commit x (some { new with addr := at' }) (fun _ => new.id) w
        frames := frames })

/-- What frames rely on: a method on the value that it was called on, an insertion on its slot. -/
def Frame.Ok (vars : ℕ → Option Held) (below : List Frame) : Frame → Prop
  | .method x _ T p => ∃ h, vars x = some h ∧ h.ty = T ∧ h.obj.place h.addr = p
  | .destructor _ => True
  | .insertion x _ _ => vars x = none ∧ ∀ f ∈ below, f.mentions x = false

def StackOk (vars : ℕ → Option Held) : List Frame → Prop
  | [] => True
  | f :: fs => f.Ok vars fs ∧ StackOk vars fs

/-! Where the objects are, and what has happened to their values. -/

inductive Spot
  | var (x : ℕ)
  /-- Aside, in a frame with `depth` others below it. -/
  | frame (depth : ℕ) (alive : Bool)
  | lost

namespace Spot

def alive : Spot → Bool
  | var _ => true
  | frame _ alive => alive
  | lost => false

/-- The life of a value there, whose object owns the block `b`. -/
def life (p : Spot) (b : Option Block) : Life := if p.alive then .alive b else .past b

end Spot

omit [FieldOffsets] in
def State.Keeps (s : State) (h : Held) : Spot → Prop
  | .var x => s.ledger.vars x = some h
  | .frame depth alive => ∃ f, s.frames.reverse[depth]? = some f ∧ f.aside = some (h, alive)
  | .lost => h ∈ s.lost

structure Inv (s : State) : Prop where
  wf : s.ledger.mem.Wf
  built : ∀ h p, s.Keeps h p → h.obj.BuiltFor h.dyn h.ty ∧ h.id < s.ledger.next
  once : ∀ h h' p p', s.Keeps h p → s.Keeps h' p' → h.id = h'.id → h = h' ∧ p = p'
  blocks : ∀ b, b ∈ s.ledger.mem.blocks ↔ ∃ h p, s.Keeps h p ∧ b ∈ h.obj.block h.ty
  sole : ∀ h h' p p' b, s.Keeps h p → s.Keeps h' p' → b ∈ h.obj.block h.ty →
    b ∈ h'.obj.block h'.ty → h.id = h'.id
  kept : ∀ h p, s.Keeps h p →
    Life.Run h.ty .unborn (s.ledger.history h.id) (p.life (h.obj.block h.ty))
  gone : ∀ i < s.ledger.next, (∀ h p, s.Keeps h p → h.id ≠ i) →
    ∃ T, Life.Run T .unborn (s.ledger.history i) (.past none)
  fresh : ∀ i, s.ledger.next ≤ i → s.ledger.history i = []

/-- The block of what may be kept somewhere. -/
def blockOf (c : Option (Held × Spot)) : Option Block := c.bind fun c => c.1.obj.block c.1.ty

/-- The life of a value that was `old`, or was not. -/
def before (old : Option (Held × Spot)) : Life :=
  match old with
  | none => .unborn
  | some (h, p) => p.life (h.obj.block h.ty)

/-- The life of a value that is `new`, or is gone. -/
def after (new : Option (Held × Spot)) : Life :=
  match new with
  | none => .past none
  | some (h, p) => p.life (h.obj.block h.ty)

/-- One value was `old` and is `new`; nothing else changed. -/
structure Change (s s' : State) (i : ℕ) (old new : Option (Held × Spot)) : Prop where
  keeps : ∀ g r, s'.Keeps g r ↔ new = some (g, r) ∨ s.Keeps g r ∧ ∀ h, old ≠ some (h, r)
  was : ∀ h p, old = some (h, p) → s.Keeps h p ∧ p ≠ .lost ∧ h.id = i
  born : old = none → i = s.ledger.next
  becomes : ∀ h p, new = some (h, p) → h.obj.BuiltFor h.dyn h.ty ∧ h.id = i
  next : ∀ j, j < s'.ledger.next ↔ j < s.ledger.next ∨ j = i
  wf : s'.ledger.mem.Wf
  mem_iff : ∀ b, b ∈ s'.ledger.mem.blocks ↔
    b ∈ blockOf new ∨ b ∈ s.ledger.mem.blocks ∧ b ∉ blockOf old
  unowned : ∀ b ∈ blockOf new, b ∈ s.ledger.mem.blocks → b ∈ blockOf old
  quiet : ∀ j, j ≠ i → s'.ledger.history j = s.ledger.history j
  run : ∃ T es, (∀ h p, old = some (h, p) → h.ty = T) ∧ (∀ h p, new = some (h, p) → h.ty = T) ∧
    s'.ledger.history i = s.ledger.history i ++ es ∧ Life.Run T (before old) es (after new)

variable {s s' : State} {i : ℕ} {old new : Option (Held × Spot)}

omit [FieldOffsets] in
/-- There is one object in a place. -/
theorem keeps_unique {g h : Held} {p : Spot} (hg : s.Keeps g p) (hh : s.Keeps h p)
    (hp : p ≠ .lost) : g = h := by
  cases p with
  | var x => exact Option.some.inj (hg.symm.trans hh)
  | frame depth alive =>
    obtain ⟨f, hf, hg⟩ := hg
    obtain ⟨f', hf', hh⟩ := hh
    obtain rfl := Option.some.inj (hf.symm.trans hf')
    exact (Prod.mk.inj (Option.some.inj (hg.symm.trans hh))).1
  | lost => exact absurd rfl hp

/-- Only the one value was known by its number. -/
theorem Change.old_eq (hc : Change s s' i old new) (hs : Inv s) {g : Held} {r : Spot}
    (hg : s.Keeps g r) (hid : g.id = i) : old = some (g, r) := by
  cases old with
  | none =>
    have hlt := (hs.built g r hg).2
    have hi := hc.born rfl
    omega
  | some c =>
    obtain ⟨h, p⟩ := c
    obtain ⟨hk, -, rfl⟩ := hc.was h p rfl
    obtain ⟨rfl, rfl⟩ := hs.once g h r p hg hk hid
    rfl

/-- What the change leaves where it was. -/
theorem Change.stays (hc : Change s s' i old new) (hs : Inv s) {g : Held} {r : Spot} :
    s'.Keeps g r ↔ new = some (g, r) ∨ s.Keeps g r ∧ g.id ≠ i := by
  rw [hc.keeps g r]
  refine or_congr_right (and_congr_right fun hg => ⟨?_, ?_⟩)
  · intro hne hid
    exact hne g (hc.old_eq hs hg hid)
  · rintro hid h rfl
    obtain ⟨hk, hp, rfl⟩ := hc.was h r rfl
    exact hid (congrArg Held.id (keeps_unique hg hk hp))

theorem mem_blockOf {b : Block} :
    b ∈ blockOf new ↔ ∃ h p, new = some (h, p) ∧ b ∈ h.obj.block h.ty := by
  rcases new with _ | ⟨h, p⟩ <;> simp [blockOf]

/-- Another object owns none of the blocks. -/
theorem not_mem_old (hc : Change s s' i old new) (hs : Inv s) {g : Held} {r : Spot} {b : Block}
    (hg : s.Keeps g r) (hid : g.id ≠ i) (hb : b ∈ g.obj.block g.ty) : b ∉ blockOf old := by
  intro hold
  obtain ⟨h, p, rfl, hb'⟩ := mem_blockOf.mp hold
  obtain ⟨hk, -, rfl⟩ := hc.was h p rfl
  exact hid (hs.sole g h r p b hg hk hb hb')

theorem not_mem_new (hc : Change s s' i old new) (hs : Inv s) {g : Held} {r : Spot} {b : Block}
    (hg : s.Keeps g r) (hid : g.id ≠ i) (hb : b ∈ g.obj.block g.ty) : b ∉ blockOf new := by
  intro hnew
  exact not_mem_old hc hs hg hid hb (hc.unowned b hnew ((hs.blocks b).mpr ⟨g, r, hg, hb⟩))

theorem inv_change (hs : Inv s) (hc : Change s s' i old new) : Inv s' := by
  have hstays : ∀ {g r}, s'.Keeps g r ↔ new = some (g, r) ∨ s.Keeps g r ∧ g.id ≠ i :=
    hc.stays hs
  obtain ⟨T, es, hold, hnew, hhist, hrun⟩ := hc.run
  have hbefore : Life.Run T .unborn (s.ledger.history i) (before old) := by
    cases old with
    | none =>
      rw [hc.born rfl, hs.fresh _ (Nat.le_refl _)]
      exact .refl
    | some c =>
      obtain ⟨hk, -, hid⟩ := hc.was c.1 c.2 rfl
      rw [← hid, ← hold c.1 c.2 rfl]
      exact hs.kept c.1 c.2 hk
  have hafter : Life.Run T .unborn (s'.ledger.history i) (after new) := by
    rw [hhist]
    exact hbefore.append hrun
  constructor
  · exact hc.wf
  · intro h p hk
    rw [hc.next]
    rcases hstays.mp hk with he | ⟨hk, -⟩
    · exact ⟨(hc.becomes h p he).1, Or.inr (hc.becomes h p he).2⟩
    · exact ⟨(hs.built h p hk).1, Or.inl (hs.built h p hk).2⟩
  · intro h h' p p' hk hk' hid
    rcases hstays.mp hk with he | ⟨hk, hne⟩ <;> rcases hstays.mp hk' with he' | ⟨hk', hne'⟩
    · exact Prod.mk.inj (Option.some.inj (he.symm.trans he'))
    · exact absurd (hid.symm.trans (hc.becomes h p he).2) hne'
    · exact absurd (hid.trans (hc.becomes h' p' he').2) hne
    · exact hs.once h h' p p' hk hk' hid
  · intro b
    rw [hc.mem_iff, hs.blocks, mem_blockOf]
    constructor
    · rintro (⟨h, p, he, hb⟩ | ⟨⟨h, p, hk, hb⟩, hn⟩)
      · exact ⟨h, p, hstays.mpr (Or.inl he), hb⟩
      · refine ⟨h, p, hstays.mpr (Or.inr ⟨hk, fun hid => hn ?_⟩), hb⟩
        exact mem_blockOf.mpr ⟨h, p, hc.old_eq hs hk hid, hb⟩
    · rintro ⟨h, p, hk, hb⟩
      rcases hstays.mp hk with he | ⟨hk, hne⟩
      · exact Or.inl ⟨h, p, he, hb⟩
      · exact Or.inr ⟨⟨h, p, hk, hb⟩, not_mem_old hc hs hk hne hb⟩
  · intro h h' p p' b hk hk' hb hb'
    rcases hstays.mp hk with he | ⟨hk, hne⟩ <;> rcases hstays.mp hk' with he' | ⟨hk', hne'⟩
    · rw [(hc.becomes h p he).2, (hc.becomes h' p' he').2]
    · exact absurd (mem_blockOf.mpr ⟨h, p, he, hb⟩) (not_mem_new hc hs hk' hne' hb')
    · exact absurd (mem_blockOf.mpr ⟨h', p', he', hb'⟩) (not_mem_new hc hs hk hne hb)
    · exact hs.sole h h' p p' b hk hk' hb hb'
  · intro h p hk
    rcases hstays.mp hk with rfl | ⟨hk, hne⟩
    · obtain ⟨-, hid⟩ := hc.becomes h p rfl
      obtain rfl := hnew h p rfl
      rw [hid]
      exact hafter
    · rw [hc.quiet _ hne]
      exact hs.kept h p hk
  · intro j hj hnone
    by_cases hji : j = i
    · subst hji
      cases new with
      | none => exact ⟨T, hafter⟩
      | some c => exact absurd (hc.becomes c.1 c.2 rfl).2 (hnone c.1 c.2 (hstays.mpr (Or.inl rfl)))
    · rw [hc.quiet j hji]
      refine hs.gone j (((hc.next j).mp hj).resolve_right hji) ?_
      intro h p hk hid
      exact hnone h p (hstays.mpr (Or.inr ⟨hk, fun he => hji (hid ▸ he)⟩)) hid
  · intro j hj
    have hlt : ¬ j < s'.ledger.next := Nat.not_lt.mpr hj
    rw [hc.next] at hlt
    rw [hc.quiet j fun he => hlt (Or.inr he)]
    exact hs.fresh j (by omega)

/-! The places of the objects after each kind of operation. -/

section
omit [FieldOffsets]

theorem getElem?_reverse_cons (f : Frame) (fs : List Frame) (depth : ℕ) {f' : Frame} :
    (f :: fs).reverse[depth]? = some f' ↔
      depth = fs.length ∧ f = f' ∨ fs.reverse[depth]? = some f' := by
  rw [List.reverse_cons, List.getElem?_append, List.length_reverse]
  split
  · rename_i hlt
    exact ⟨Or.inr, fun h => h.resolve_left fun h => by omega⟩
  · rename_i hge
    have hnone : fs.reverse[depth]? = none := by
      rw [List.getElem?_eq_none_iff, List.length_reverse]
      omega
    rw [hnone, List.getElem?_singleton]
    split <;> simp <;> omega

theorem lt_of_frame {g : Held} {depth : ℕ} {a : Bool} (h : s.Keeps g (.frame depth a)) :
    depth < s.frames.length := by
  obtain ⟨f, hf, -⟩ := h
  simpa using (List.getElem?_eq_some_iff.mp hf).1

/-- A variable has a new content. -/
theorem keeps_update {x : ℕ} {c : Option Held} {l : Ledger}
    (hv : l.vars = Function.update s.ledger.vars x c) (g : Held) (r : Spot) :
    State.Keeps ⟨l, s.frames, s.lost⟩ g r ↔ c.map (·, Spot.var x) = some (g, r) ∨
      s.Keeps g r ∧ ∀ h, (s.ledger.vars x).map (·, Spot.var x) ≠ some (h, r) := by
  cases r with
  | var y =>
    by_cases hy : y = x
    · subst hy
      simp only [State.Keeps, hv, Function.update_self, Option.map_eq_some_iff, Prod.mk.injEq]
      constructor
      · intro hc
        exact Or.inl ⟨g, hc, rfl, trivial⟩
      · rintro (⟨_, hc, rfl, -⟩ | ⟨hg, hn⟩)
        · exact hc
        · exact absurd (by simp [hg]) (hn g)
    · simp [State.Keeps, hv, hy, Ne.symm hy]
  | frame depth alive => simp [State.Keeps]
  | lost => simp [State.Keeps]

/-- A frame more, with the object that it may have aside. -/
theorem keeps_cons {l : Ledger} (hv : l.vars = s.ledger.vars) (f : Frame) (g : Held) (r : Spot) :
    State.Keeps ⟨l, f :: s.frames, s.lost⟩ g r ↔
      f.aside.map (fun c => (c.1, Spot.frame s.frames.length c.2)) = some (g, r) ∨ s.Keeps g r := by
  cases r with
  | var y => simp [State.Keeps, hv]
  | frame depth alive =>
    simp only [State.Keeps, getElem?_reverse_cons, Option.map_eq_some_iff, Prod.mk.injEq,
      Spot.frame.injEq]
    constructor
    · rintro ⟨f', ⟨rfl, rfl⟩ | hf', ha⟩
      · exact Or.inl ⟨_, ha, rfl, rfl, rfl⟩
      · exact Or.inr ⟨f', hf', ha⟩
    · rintro (⟨c, ha, rfl, rfl, rfl⟩ | ⟨f', hf', ha⟩)
      · exact ⟨f, Or.inl ⟨rfl, rfl⟩, ha⟩
      · exact ⟨f', Or.inr hf', ha⟩
  | lost => simp [State.Keeps]

end

/-! One change for each kind of operation. -/

open Ledger (run_new run_end run_release run_unbox mem_released)

section
variable {x : ℕ} {h : Held} {w : World}

omit [FieldOffsets] in
theorem history_log {s t : Ledger} {i : ℕ} {es : List Event}
    (h : t.log = s.log ++ es.map fun e => (i, e)) :
    t.history i = s.history i ++ es ∧ ∀ j, j ≠ i → t.history j = s.history j := by
  simp only [Ledger.history, h, List.filter_append, List.map_append, List.filter_map, List.map_map,
    Function.comp_def]
  refine ⟨by simp, fun j hj => ?_⟩
  simp [Ne.symm hj]

theorem live_of_keeps (hs : Inv s) {p : Spot} (hk : s.Keeps h p) :
    ∀ b ∈ h.obj.block h.ty, b ∈ s.ledger.mem.blocks := fun b hb =>
  (hs.blocks b).mpr ⟨h, p, hk, hb⟩

/-- The value of an object goes on as `new`, or is gone. -/
theorem change_kept (hs : Inv s) {p : Spot} (hk : s.Keeps h p) (hp : p ≠ .lost)
    (hkeeps : ∀ g r, s'.Keeps g r ↔
      new = some (g, r) ∨ s.Keeps g r ∧ ∀ h', some (h, p) ≠ some (h', r))
    (hm : s'.ledger.mem = w.mem) (hlog : s'.ledger.log = s.ledger.log ++ w.trace.map (h.id, ·))
    (hnext : s'.ledger.next = s.ledger.next)
    (hnew : ∀ h' q, new = some (h', q) →
      h'.obj.BuiltFor h'.dyn h'.ty ∧ h'.id = h.id ∧ h'.ty = h.ty)
    (hwf : w.mem.Wf)
    (hmem : ∀ b, b ∈ w.mem.blocks ↔
      b ∈ blockOf new ∨ b ∈ s.ledger.mem.blocks ∧ b ∉ h.obj.block h.ty)
    (hun : ∀ b ∈ blockOf new, b ∈ h.obj.block h.ty)
    (hr : Life.Run h.ty (p.life (h.obj.block h.ty)) w.trace (after new)) :
    Change s s' h.id (some (h, p)) new := by
  constructor
  · exact hkeeps
  · intro h' q he
    obtain ⟨rfl, rfl⟩ := Prod.mk.inj (Option.some.inj he)
    exact ⟨hk, hp, rfl⟩
  · intro he
    cases he
  · exact fun h' q he => ⟨(hnew h' q he).1, (hnew h' q he).2.1⟩
  · intro j
    have hlt := (hs.built h p hk).2
    rw [hnext]
    exact ⟨Or.inl, fun hj => hj.elim id fun hj => hj ▸ hlt⟩
  · rwa [hm]
  · rw [hm]
    exact hmem
  · exact fun b hb _ => hun b hb
  · exact (history_log hlog).2
  · refine ⟨h.ty, w.trace, ?_, fun h' q he => (hnew h' q he).2.2, (history_log hlog).1, hr⟩
    intro h' q he
    obtain ⟨rfl, -⟩ := Prod.mk.inj (Option.some.inj he)
    rfl

/-- The value of an object is as it was, wherever the object is now. -/
theorem change_same (hs : Inv s) {p q : Spot} (hk : s.Keeps h p) (hp : p ≠ .lost) {addr : Addr}
    (hkeeps : ∀ g r, s'.Keeps g r ↔ some ({ h with addr := addr }, q) = some (g, r) ∨
      s.Keeps g r ∧ ∀ h', some (h, p) ≠ some (h', r))
    (hm : s'.ledger.mem = w.mem) (hlog : s'.ledger.log = s.ledger.log ++ w.trace.map (h.id, ·))
    (hnext : s'.ledger.next = s.ledger.next) (hb : w.mem.blocks = s.ledger.mem.blocks)
    (hr : Life.Run h.ty (p.life (h.obj.block h.ty)) w.trace (q.life (h.obj.block h.ty))) :
    Change s s' h.id (some (h, p)) (some ({ h with addr := addr }, q)) := by
  refine change_kept hs hk hp hkeeps hm hlog hnext ?_ (Memory.wf_of_blocks_eq hs.wf hb) ?_ ?_ hr
  · intro h' r he
    obtain ⟨rfl, -⟩ := Prod.mk.inj (Option.some.inj he)
    exact ⟨(hs.built h p hk).1, rfl, rfl⟩
  · intro b
    have hlive := live_of_keeps hs hk b
    simp only [hb, blockOf, Option.bind_some]
    tauto
  · exact fun b hb => hb

/-- The block of the value was released, and that was all that was left of it. -/
theorem change_over (hs : Inv s) {p : Spot} (hk : s.Keeps h p) (hp : p ≠ .lost)
    (hkeeps : ∀ g r, s'.Keeps g r ↔
      none = some (g, r) ∨ s.Keeps g r ∧ ∀ h', some (h, p) ≠ some (h', r))
    (hm : s'.ledger.mem = (w.released (h.obj.block h.ty)).mem)
    (hlog : s'.ledger.log =
      s.ledger.log ++ (w.released (h.obj.block h.ty)).trace.map (h.id, ·))
    (hnext : s'.ledger.next = s.ledger.next) (hb : w.mem.blocks = s.ledger.mem.blocks)
    (hr : Life.Run h.ty (p.life (h.obj.block h.ty)) w.trace (.past (h.obj.block h.ty))) :
    Change s s' h.id (some (h, p)) none := by
  have hwf : w.mem.Wf := Memory.wf_of_blocks_eq hs.wf hb
  refine change_kept hs hk hp hkeeps hm hlog hnext (by simp) (World.wf_released hwf) ?_
    (by simp [blockOf]) ?_
  · intro b
    simp [mem_released hwf, hb, blockOf]
  · rw [World.trace_released]
    exact hr.append (run_release h.ty _)

/-- A value is new. -/
theorem change_born {q : Spot} (hid : h.id = s.ledger.next)
    (hkeeps : ∀ g r, s'.Keeps g r ↔ some (h, q) = some (g, r) ∨ s.Keeps g r)
    (hm : s'.ledger.mem = w.mem)
    (hlog : s'.ledger.log = s.ledger.log ++ w.trace.map (s.ledger.next, ·))
    (hnext : s'.ledger.next = s.ledger.next + 1)
    (hbuilt : h.obj.BuiltFor h.dyn h.ty) (hwf : w.mem.Wf)
    (hmem : ∀ b, b ∈ w.mem.blocks ↔ b ∈ h.obj.block h.ty ∨ b ∈ s.ledger.mem.blocks)
    (hfresh : ∀ b ∈ h.obj.block h.ty, b ∉ s.ledger.mem.blocks)
    (hr : Life.Run h.ty .unborn w.trace (q.life (h.obj.block h.ty))) :
    Change s s' s.ledger.next none (some (h, q)) := by
  constructor
  · intro g r
    simpa using hkeeps g r
  · intro h' p he
    cases he
  · exact fun _ => rfl
  · intro h' p he
    obtain ⟨rfl, rfl⟩ := Prod.mk.inj (Option.some.inj he)
    exact ⟨hbuilt, hid⟩
  · intro j
    omega
  · rwa [hm]
  · intro b
    rw [hm]
    simpa [blockOf] using hmem b
  · exact fun b hb hin => absurd hin (hfresh b hb)
  · exact (history_log hlog).2
  · refine ⟨h.ty, w.trace, by simp, ?_, (history_log hlog).1, hr⟩
    intro h' p he
    obtain ⟨rfl, -⟩ := Prod.mk.inj (Option.some.inj he)
    rfl

omit [FieldOffsets] in
theorem keeps_commit (hx : s.ledger.vars x = some h) (c : Option Held) (about : Event → ℕ)
    (g : Held) (r : Spot) :
    State.Keeps { s with ledger := s.ledger.commit x c about w } g r ↔
      c.map (·, Spot.var x) = some (g, r) ∨
        s.Keeps g r ∧ ∀ h', some (h, Spot.var x) ≠ some (h', r) := by
  refine (keeps_update (c := c) rfl g r).trans ?_
  rw [hx]
  rfl

/-- The object stays in its variable: it is moved or its value is used. -/
theorem change_keep (hs : Inv s) (hx : s.ledger.vars x = some h) (addr : Addr)
    (hb : w.mem.blocks = s.ledger.mem.blocks)
    (hr : Life.Run h.ty (.alive (h.obj.block h.ty)) w.trace (.alive (h.obj.block h.ty))) :
    Change s { s with ledger := s.ledger.commit x (some { h with addr := addr }) (fun _ => h.id) w }
      h.id (some (h, .var x)) (some ({ h with addr := addr }, .var x)) :=
  change_same (p := .var x) (q := .var x) hs hx (by simp) (keeps_commit hx _ _) rfl rfl rfl hb hr

/-- The value left its variable for good, and its block was released. -/
theorem change_retire (hs : Inv s) (hx : s.ledger.vars x = some h)
    (hb : w.mem.blocks = s.ledger.mem.blocks)
    (hr : Life.Run h.ty (.alive (h.obj.block h.ty)) w.trace (.past (h.obj.block h.ty))) :
    Change s { s with ledger :=
        s.ledger.commit x none (fun _ => h.id) (w.released (h.obj.block h.ty)) }
      h.id (some (h, .var x)) none :=
  change_over (p := .var x) hs hx (by simp) (keeps_commit hx _ _) rfl rfl rfl hb hr

/-- A new value in an empty variable. -/
theorem change_enroll (hx : s.ledger.vars x = none) (hid : h.id = s.ledger.next)
    (hbuilt : h.obj.BuiltFor h.dyn h.ty) (hwf : w.mem.Wf)
    (hmem : ∀ b, b ∈ w.mem.blocks ↔ b ∈ h.obj.block h.ty ∨ b ∈ s.ledger.mem.blocks)
    (hfresh : ∀ b ∈ h.obj.block h.ty, b ∉ s.ledger.mem.blocks)
    (hr : Life.Run h.ty .unborn w.trace (.alive (h.obj.block h.ty))) :
    Change s { s with ledger := s.ledger.enroll x h (fun _ => s.ledger.next) w } s.ledger.next
      none (some (h, .var x)) := by
  refine change_born hid ?_ rfl rfl rfl hbuilt hwf hmem hfresh hr
  intro g r
  refine (keeps_update (x := x) (c := some h) rfl g r).trans ?_
  simp [hx]

end

/-! The operations that call no code of the user. -/

section
variable {S : Type} [Storage S] [LawfulStorage S] {o : DynObject S} {T : RustType} {w : World}

omit [FieldOffsets] in
/-- The heap after the allocator has answered, if it was asked. -/
theorem wf_acquired (hwf : w.mem.Wf) {answer : Addr}
    (hf : ∀ b ∈ o.block T, b.addr = answer ∧ w.mem.Fresh b.addr b.layout) :
    (w.acquire (o.block T)).mem.Wf ∧ ∀ b ∈ o.block T, b ∉ w.mem.blocks := by
  refine ⟨World.wf_acquire hwf fun b hb => ⟨(hf b hb).2, ownedBlock_size hb⟩, ?_⟩
  intro b hb hin
  exact Memory.Fresh.not_mem (hf b hb).2 hwf (ownedBlock_size hb) hin rfl

end

section
variable {x : ℕ} {T : RustType} {w : World} {k : StorageKind} {D : DynTrait} {v : Value T}
  {here answer : Addr} {o : DynObject k.Carrier}

theorem change_new (hs : Inv s) (hx : s.ledger.vars x = none)
    (ho : DynObject.new D v here answer s.ledger.world = .ok (o, w)) :
    Change s { s with ledger :=
        s.ledger.enroll x ⟨k, D, o, here, s.ledger.next, T⟩ (fun _ => s.ledger.next) w }
      s.ledger.next none (some (⟨k, D, o, here, s.ledger.next, T⟩, .var x)) := by
  obtain ⟨hb, hf, rfl⟩ := DynObject.new_ok ho
  obtain ⟨hwf, hfresh⟩ := wf_acquired hs.wf hf
  refine change_enroll hx rfl hb (Memory.wf_of_blocks_eq hwf rfl) ?_ hfresh ?_
  · simp [World.blocks_acquire, Ledger.world]
  · simpa [World.trace_acquire, Ledger.world] using run_new o T here

/-- The box is gone from the heap unless the storage has kept it. -/
theorem change_fromBox (hs : Inv s) (hx : s.ledger.vars x = none) {b : StdBox T} {w₀ : World}
    (hbox : StdBox.new v answer s.ledger.world = .ok (b, w₀))
    (ho : k.fromBox D b here w₀ = .ok (o, w)) :
    Change s { s with ledger :=
        s.ledger.enroll x ⟨k, D, o, here, s.ledger.next, T⟩ (fun _ => s.ledger.next) w }
      s.ledger.next none (some (⟨k, D, o, here, s.ledger.next, T⟩, .var x)) := by
  -- before `from_box` the box is as one that a storage `Box` owns
  let boxObj : DynObject Box := ⟨⟨b.ptr⟩, D.vtable T⟩
  obtain ⟨hf, rfl⟩ := StdBox.new_ok hbox
  have hacq : (s.ledger.world.acquire (boxBlock T b.ptr)).mem.Wf ∧
      ∀ c ∈ boxBlock T b.ptr, c ∉ s.ledger.world.mem.blocks := wf_acquired (o := boxObj) hs.wf hf
  obtain ⟨hwf, hfresh⟩ := hacq
  have hboxed : Life.Run T .unborn
      ((boxBlock T b.ptr).toList.map .alloc ++ [.stored T b.ptr]) (.alive (boxBlock T b.ptr)) :=
    run_new boxObj T here
  obtain ⟨hb, ⟨hp, rfl⟩ | ⟨hp, w₁, hw₁, rfl⟩⟩ := StorageKind.fromBox_ok ho
  · have hblock : o.block T = boxBlock T b.ptr := by simp [DynObject.block, ownedBlock, hp]
    refine change_enroll hx rfl hb (Memory.wf_of_blocks_eq hwf rfl) ?_ ?_ ?_
    · simp [hblock, World.blocks_acquire, Ledger.world]
    · exact hblock ▸ hfresh
    · simpa [World.trace_acquire, hblock, Ledger.world] using hboxed
  · have hblock : o.block T = none := by simp [DynObject.block, ownedBlock, hp]
    obtain ⟨-, rfl⟩ := World.release_ok.mp hw₁
    have hwf₁ : (((s.ledger.world.acquire (boxBlock T b.ptr)).put b.ptr v).record
      (.unboxed T b.ptr)).mem.Wf := Memory.wf_of_blocks_eq hwf rfl
    refine change_enroll hx rfl hb ?_ ?_ ?_ ?_
    · exact Memory.wf_of_blocks_eq (World.wf_released hwf₁) rfl
    · intro c
      have hc := hfresh c
      rw [World.mem_put, Memory.blocks_store, mem_released hwf₁]
      simp [hblock, World.blocks_acquire, Ledger.world] at hc ⊢
      tauto
    · simp [hblock]
    · simpa [World.trace_released, World.trace_acquire, hblock, Ledger.world] using
        hboxed.append (run_unbox T (boxBlock T b.ptr) b.ptr (o.place here))

end

/-- What a plain operation can do. -/
theorem plain_change (hs : Inv s) {op : Ledger.Op} {x : ℕ} {shared : Bool}
    (hop : subject op = some (x, shared)) {out : Outcome} {t : Ledger}
    (h : s.ledger.step op = .ok (out, t)) :
    (∃ i old new, Change s { s with ledger := t } i old new) ∧
      ∀ y, y ≠ x ∨ shared = true → t.vars y = s.ledger.vars y := by
  have hupdate : ∀ {x y : ℕ} {c : Option Held}, y ≠ x ∨ false = true →
      Function.update s.ledger.vars x c y = s.ledger.vars y := fun hy =>
    Function.update_of_ne (hy.resolve_right Bool.false_ne_true) _ _
  cases op with
  | new x k D T v here answer =>
    obtain ⟨rfl, rfl⟩ := Prod.mk.inj (Option.some.inj hop)
    cases hx : s.ledger.vars x with
    | some _ => simp [Ledger.step, hx] at h
    | none =>
      simp only [Ledger.step, hx] at h
      obtain ⟨⟨o, w⟩, ho, h⟩ := bind_ok.mp h
      obtain ⟨-, rfl⟩ := Prod.mk.inj (pure_ok.mp h)
      exact ⟨⟨_, _, _, change_new hs hx ho⟩, fun _ => hupdate⟩
  | fromBox x k D T v here answer =>
    obtain ⟨rfl, rfl⟩ := Prod.mk.inj (Option.some.inj hop)
    cases hx : s.ledger.vars x with
    | some _ => simp [Ledger.step, hx] at h
    | none =>
      simp only [Ledger.step, hx] at h
      obtain ⟨⟨b, w₀⟩, hb, h⟩ := bind_ok.mp h
      obtain ⟨⟨o, w⟩, ho, h⟩ := bind_ok.mp h
      obtain ⟨-, rfl⟩ := Prod.mk.inj (pure_ok.mp h)
      exact ⟨⟨_, _, _, change_fromBox hs hx hb ho⟩, fun _ => hupdate⟩
  | move x dst =>
    obtain ⟨rfl, rfl⟩ := Prod.mk.inj (Option.some.inj hop)
    cases hx : s.ledger.vars x with
    | none => simp [Ledger.step, hx] at h
    | some held =>
      simp only [Ledger.step, hx] at h
      obtain ⟨-, rfl⟩ := Prod.mk.inj (Except.ok.inj h)
      exact ⟨⟨_, _, _, change_keep hs hx dst rfl (.step .copy .refl)⟩, fun _ => hupdate⟩
  | downcastRef x U body =>
    obtain ⟨rfl, rfl⟩ := Prod.mk.inj (Option.some.inj hop)
    cases hx : s.ledger.vars x with
    | none => simp [Ledger.step, hx] at h
    | some held =>
      simp only [Ledger.step, hx] at h
      obtain ⟨p, hp, h⟩ := bind_ok.mp h
      obtain ⟨-, rfl⟩ := Prod.mk.inj (pure_ok.mp h)
      have hU := DynObject.downcastRef_some (hs.built held (.var x) hx).1 hp
      refine ⟨⟨_, _, _, change_keep hs hx held.addr (Ledger.blocks_useRef body _ p)
        (Ledger.run_useRef body s.ledger p hU _)⟩, fun y _ => ?_⟩
      exact congrFun ((congrArg _ hx.symm).trans (Function.update_eq_self x s.ledger.vars)) y
  | downcastMut x U body =>
    obtain ⟨rfl, rfl⟩ := Prod.mk.inj (Option.some.inj hop)
    cases hx : s.ledger.vars x with
    | none => simp [Ledger.step, hx] at h
    | some held =>
      simp only [Ledger.step, hx] at h
      obtain ⟨p, hp, h⟩ := bind_ok.mp h
      obtain ⟨-, rfl⟩ := Prod.mk.inj (pure_ok.mp h)
      have hU := DynObject.downcastMut_some (hs.built held (.var x) hx).1 hp
      exact ⟨⟨_, _, _, change_keep hs hx held.addr (Ledger.blocks_useRef body _ p)
        (Ledger.run_useRef body s.ledger p hU _)⟩, fun _ => hupdate⟩
  | downcast x U here =>
    obtain ⟨rfl, rfl⟩ := Prod.mk.inj (Option.some.inj hop)
    cases hx : s.ledger.vars x with
    | none => simp [Ledger.step, hx] at h
    | some held =>
      simp only [Ledger.step, hx] at h
      obtain ⟨⟨res, w⟩, hd, h⟩ := bind_ok.mp h
      have hbuilt := (hs.built held (.var x) hx).1
      by_cases hi : held.obj.is U = true
      · obtain rfl := DynObject.eq_of_is hbuilt hi
        rw [DynObject.downcast_of_is hbuilt hi (live_of_keeps (p := .var x) hs hx)] at hd
        obtain ⟨rfl, rfl⟩ := Prod.mk.inj (Except.ok.inj hd)
        obtain ⟨-, rfl⟩ := Prod.mk.inj (pure_ok.mp h)
        exact ⟨⟨_, _, _, change_retire hs hx rfl (.step .copy (.step .moveOut .refl))⟩, fun _ => hupdate⟩
      · rw [DynObject.downcast_of_not_is (Bool.eq_false_iff.mpr hi)] at hd
        obtain ⟨rfl, rfl⟩ := Prod.mk.inj (Except.ok.inj hd)
        obtain ⟨-, rfl⟩ := Prod.mk.inj (pure_ok.mp h)
        exact ⟨⟨_, _, _, change_keep hs hx here rfl (.step .copy .refl)⟩, fun _ => hupdate⟩
  | call x name body => cases hop
  | insert pinned x k D T v here tmp answer => cases hop
  | drop x => cases hop

/-! The operations that enter code of the user, and the ends of those. -/

section
variable {x : ℕ} {h : Held} {w : World}

omit [FieldOffsets] in
/-- The innermost frame is over. -/
theorem keeps_pop {l : Ledger} (hv : l.vars = s.ledger.vars) {f : Frame} {fs : List Frame}
    (hf : s.frames = f :: fs) {a : Bool} (ha : f.aside = some (h, a)) (g : Held) (r : Spot) :
    State.Keeps ⟨l, fs, s.lost⟩ g r ↔
      s.Keeps g r ∧ ∀ h', some (h, Spot.frame fs.length a) ≠ some (h', r) := by
  have hcons := keeps_cons (s := ⟨l, fs, s.lost⟩) hv.symm f g r
  rw [← hf, ha, Option.map_some] at hcons
  rw [hcons]
  constructor
  · intro hg
    refine ⟨Or.inr hg, ?_⟩
    rintro h' he
    obtain ⟨-, rfl⟩ := Prod.mk.inj (Option.some.inj he)
    exact absurd (lt_of_frame hg) (Nat.lt_irrefl _)
  · rintro ⟨he | hg, hn⟩
    · obtain ⟨-, rfl⟩ := Prod.mk.inj (Option.some.inj he)
      exact absurd rfl (hn h)
    · exact hg

omit [FieldOffsets] in
/-- The object that the innermost frame has aside. -/
theorem keeps_top {f : Frame} {fs : List Frame} {a : Bool} (hf : s.frames = f :: fs)
    (ha : f.aside = some (h, a)) : s.Keeps h (.frame fs.length a) := by
  refine ⟨f, ?_, ha⟩
  rw [hf, getElem?_reverse_cons]
  exact Or.inl ⟨rfl, rfl⟩

omit [FieldOffsets] in
theorem keeps_lost (h g : Held) (r : Spot) : State.Keeps { s with lost := h :: s.lost } g r ↔
    some (h, Spot.lost) = some (g, r) ∨ s.Keeps g r := by
  cases r <;> simp [State.Keeps, eq_comm]

omit [FieldOffsets] in
/-- An object that goes back to the same place. -/
theorem keeps_same {p : Spot} (hk : s.Keeps h p) (hp : p ≠ .lost) (g : Held) (r : Spot) :
    s.Keeps g r ↔ some (h, p) = some (g, r) ∨ s.Keeps g r ∧ ∀ h', some (h, p) ≠ some (h', r) := by
  constructor
  · intro hg
    by_cases hr : p = r
    · subst hr
      exact Or.inl (by rw [keeps_unique hg hk hp])
    · exact Or.inr ⟨hg, fun h' he => hr (Prod.mk.inj (Option.some.inj he)).2⟩
  · rintro (he | ⟨hg, -⟩)
    · obtain ⟨rfl, rfl⟩ := Prod.mk.inj (Option.some.inj he)
      exact hk
    · exact hg

theorem change_call (hs : Inv s) (hx : s.ledger.vars x = some h) {name : String} {f : ErasedFn}
    {p : Addr} {shared : Bool} (hc : h.obj.enterCall h.addr name = .ok (f, p)) :
    Change s { s with
        ledger := note s.ledger h.id (s.ledger.world.record (.accessed f.ty p))
        frames := .method x shared f.ty p :: s.frames } h.id
      (some (h, .var x)) (some (h, .var x)) := by
  obtain ⟨hty, -⟩ := DynObject.enterCall_ok (hs.built h (.var x) hx).1 hc
  refine change_same (p := .var x) (q := .var x) hs hx (by simp) ?_ rfl rfl rfl rfl ?_
  · intro g r
    refine (keeps_cons rfl _ g r).trans ?_
    simpa [Frame.aside] using keeps_same (p := .var x) hx (by simp) g r
  · rw [hty]
    exact .step .access .refl

theorem change_enterInsert (hs : Inv s) {k : StorageKind} {D : DynTrait} {T : RustType}
    {v : Value T} {here tmp answer : Addr}
    (he : enterInsert s x k D v here tmp answer = .ok s') :
    ∃ o : DynObject k.Carrier, s'.ledger.vars = s.ledger.vars ∧
      s'.frames = .insertion x ⟨k, D, o, tmp, s.ledger.next, T⟩ here :: s.frames ∧
      Change s s' s.ledger.next none
        (some (⟨k, D, o, tmp, s.ledger.next, T⟩, .frame s.frames.length true)) := by
  obtain ⟨⟨o, w⟩, ho, he⟩ := bind_ok.mp he
  obtain rfl := pure_ok.mp he
  obtain ⟨hb, hf, rfl⟩ := DynObject.new_ok ho
  obtain ⟨hwf, hfresh⟩ := wf_acquired hs.wf hf
  refine ⟨o, rfl, rfl, ?_⟩
  refine change_born rfl ?_ rfl rfl rfl hb (Memory.wf_of_blocks_eq hwf rfl) ?_ hfresh ?_
  · exact keeps_cons rfl _
  · simp [World.blocks_acquire, Ledger.world]
  · simpa [World.trace_acquire, Ledger.world, Spot.life, Spot.alive] using run_new o T tmp

/-- The object leaves its variable for the frame of its destructor. -/
theorem change_enterDrop (hs : Inv s) (hx : s.ledger.vars x = some h)
    (hw : w = s.ledger.world.record (DynObject.endEvent h.ty (h.obj.place h.addr))) :
    Change s { s with
        ledger := s.ledger.commit x none (fun _ => h.id) w
        frames := .destructor h :: s.frames } h.id
      (some (h, .var x)) (some (h, .frame s.frames.length false)) := by
  subst hw
  refine change_same (p := .var x) (q := .frame s.frames.length false) hs hx (by simp) ?_ rfl rfl
    rfl rfl (run_end h.ty _ _)
  intro g r
  refine (keeps_cons (s := { s with ledger := s.ledger.commit x none _ _ }) rfl _ g r).trans ?_
  rw [keeps_commit hx]
  simp [Frame.aside]

/-- The storage of a value whose destructor has returned is released. -/
theorem change_release (hs : Inv s) {fs : List Frame} (hf : s.frames = .destructor h :: fs)
    (hr : release { s with frames := fs } h = .ok s') :
    s'.ledger.vars = s.ledger.vars ∧ s'.frames = fs ∧
      Change s s' h.id (some (h, .frame fs.length false)) none := by
  have hk : s.Keeps h (.frame fs.length false) := keeps_top hf rfl
  obtain ⟨w, hw, hr⟩ := bind_ok.mp hr
  obtain rfl := pure_ok.mp hr
  rw [DynObject.leaveDrop_eq (hs.built h _ hk).1] at hw
  obtain ⟨-, rfl⟩ := World.release_ok.mp hw
  refine ⟨rfl, rfl, ?_⟩
  refine change_over (w := s.ledger.world) hs hk (by simp) ?_ rfl rfl rfl rfl .refl
  intro g r
  exact (keeps_pop rfl hf rfl g r).trans (by simp)

/-- The storage of a value whose destructor has unwound is not. -/
theorem change_lose (hs : Inv s) {fs : List Frame} (hf : s.frames = .destructor h :: fs) :
    Change s { s with frames := fs, lost := h :: s.lost } h.id
      (some (h, .frame fs.length false)) (some (h, .lost)) := by
  refine change_same (w := s.ledger.world) (q := .lost) hs (keeps_top hf rfl) (by simp) ?_ rfl
    (by simp [Ledger.world]) rfl rfl .refl
  intro g r
  refine (keeps_lost (s := { s with frames := fs }) h g r).trans (or_congr_right ?_)
  exact keeps_pop rfl hf rfl g r

/-- The new object moves into its slot. -/
theorem change_leaveInsert (hs : Inv s) {fs : List Frame} {new : Held} {here : Addr}
    (hf : s.frames = .insertion x new here :: fs) (hx : s.ledger.vars x = none)
    {how : Outcome} {q : Option Addr}
    (hw : new.obj.leaveInsert new.ty here new.addr how s.ledger.world = .ok (q, w)) :
    Change s { s with
        ledger := s.ledger.commit x
          (some { new with addr := DynObject.someAt new.kind.Carrier here }) (fun _ => new.id) w
        frames := fs } new.id
      (some (new, .frame fs.length true))
      (some ({ new with addr := DynObject.someAt new.kind.Carrier here }, .var x)) := by
  have hk := keeps_top hf rfl
  rw [DynObject.leaveInsert_eq (hs.built new _ hk).1] at hw
  obtain ⟨-, hw⟩ := Prod.mk.inj (Except.ok.inj hw)
  have hkeeps : ∀ g r, State.Keeps { s with
      ledger := s.ledger.commit x
        (some { new with addr := DynObject.someAt new.kind.Carrier here }) (fun _ => new.id) w
      frames := fs } g r ↔
      some ({ new with addr := DynObject.someAt new.kind.Carrier here }, Spot.var x) = some (g, r) ∨
        s.Keeps g r ∧ ∀ h', some (new, Spot.frame fs.length true) ≠ some (h', r) := by
    intro g r
    refine (keeps_update (s := { s with frames := fs }) (x := x)
      (c := some { new with addr := DynObject.someAt new.kind.Carrier here }) rfl g r).trans ?_
    refine or_congr_right ?_
    have hpop := keeps_pop (l := s.ledger) rfl hf rfl g r
    simpa [hx] using hpop
  refine change_same hs hk (by simp) hkeeps rfl rfl rfl ?_ ?_
  · rw [← hw]
    cases how <;> rfl
  · rw [← hw]
    cases how with
    | unwinds => exact .step .copy .refl
    | returns => exact .step .copy (.step .access .refl)

/-- A method is over. -/
theorem inv_leaveCall (hs : Inv s) {fs : List Frame} {shared : Bool} {T : RustType} {p : Addr}
    (hf : s.frames = .method x shared T p :: fs) {m : Memory Cell}
    (hb : m.blocks = s.ledger.mem.blocks) :
    Inv { s with ledger.mem := m, frames := fs } := by
  have hkeeps : ∀ g r, State.Keeps { s with ledger.mem := m, frames := fs } g r ↔ s.Keeps g r := by
    intro g r
    have hcons := keeps_cons (s := { s with ledger.mem := m, frames := fs }) (l := s.ledger) rfl
      (.method x shared T p) g r
    rw [← hf] at hcons
    simpa [Frame.aside] using hcons.symm
  constructor <;> simp only [hkeeps]
  · exact Memory.wf_of_blocks_eq hs.wf hb
  · exact hs.built
  · exact hs.once
  · simpa only [hb] using hs.blocks
  · exact hs.sole
  · exact hs.kept
  · exact hs.gone
  · exact hs.fresh

end

/-! Runs. -/

section
variable {x : ℕ} {h : Held} {shared : Bool} {vars vars' : ℕ → Option Held} {fs : List Frame}

/-- Frames rely on the variables that they mention. -/
theorem stackOk_congr (hv : ∀ f ∈ fs, ∀ x, f.mentions x = true → vars' x = vars x)
    (hs : StackOk vars fs) : StackOk vars' fs := by
  induction fs with
  | nil => trivial
  | cons f fs ih =>
    obtain ⟨hf, hfs⟩ := hs
    obtain ⟨hvf, hv⟩ := List.forall_mem_cons.mp hv
    refine ⟨?_, ih hv hfs⟩
    cases f with
    | method x shared T p =>
      obtain ⟨h, hx, hty, hp⟩ := hf
      exact ⟨h, (hvf x (by simp [Frame.mentions])).trans hx, hty, hp⟩
    | destructor old => trivial
    | insertion x new here =>
      obtain ⟨hx, hbelow⟩ := hf
      exact ⟨(hvf x (by simp [Frame.mentions])).trans hx, hbelow⟩

omit [FieldOffsets] in
theorem free_of_available (ha : s.available x false = true) :
    ∀ f ∈ s.frames, f.mentions x = false := by
  simpa [State.available] using ha

/-- What may be done to a variable is nothing that frames rely on. -/
theorem stackOk_of_available (ha : s.available x shared = true)
    (hv : ∀ y, y ≠ x ∨ shared = true → vars' y = s.ledger.vars y)
    (hs : StackOk s.ledger.vars s.frames) : StackOk vars' s.frames := by
  refine stackOk_congr (fun f hf y hy => hv y ?_) hs
  by_cases hyx : y = x
  · subst hyx
    have hfa := List.all_eq_true.mp ha f hf
    simp only [hy, Bool.not_true, Bool.false_or, Bool.and_eq_true] at hfa
    exact Or.inr hfa.1
  · exact Or.inl hyx

theorem stackOk_update (hfree : ∀ f ∈ fs, f.mentions x = false) (c : Option Held)
    (hs : StackOk vars fs) : StackOk (Function.update vars x c) fs := by
  refine stackOk_congr (fun f hf y hy => Function.update_of_ne ?_ _ _) hs
  rintro rfl
  rw [hfree f hf] at hy
  cases hy

end

/-- A drop leaves its frame, or is over already. -/
theorem enterDrop_ok (hs : Inv s) {x : ℕ} {h : Held} (hx : s.ledger.vars x = some h)
    (hd : enterDrop s x h = .ok s') : Inv s' ∧
      s'.ledger.vars = Function.update s.ledger.vars x none ∧
      (s'.frames = .destructor h :: s.frames ∨ s'.frames = s.frames) := by
  have hc := change_enterDrop hs hx rfl
  unfold enterDrop at hd
  rw [DynObject.enterDrop_eq (hs.built h (.var x) hx).1] at hd
  cases hn : h.ty.needsDrop with
  | true =>
    simp only [hn, ↓reduceIte] at hd
    obtain rfl := Except.ok.inj hd
    exact ⟨inv_change hs hc, rfl, Or.inl rfl⟩
  | false =>
    simp only [hn, Bool.false_eq_true, ↓reduceIte] at hd
    obtain ⟨hv, hf, hr⟩ := change_release (inv_change hs hc) rfl hd
    exact ⟨inv_change (inv_change hs hc) hr, hv, Or.inr hf⟩

/-- All that holds between two operations. -/
structure Good (s : State) : Prop where
  inv : Inv s
  stack : StackOk s.ledger.vars s.frames

theorem good_enterDrop (hs : Inv s) {x : ℕ} {h : Held} (hx : s.ledger.vars x = some h)
    (hd : enterDrop s x h = .ok s')
    (hstack : StackOk (Function.update s.ledger.vars x none) s.frames) : Good s' := by
  obtain ⟨hinv, hv, hf⟩ := enterDrop_ok hs hx hd
  refine ⟨hinv, ?_⟩
  rw [hv]
  rcases hf with hf | hf <;> rw [hf]
  · exact ⟨trivial, hstack⟩
  · exact hstack

theorem good_step (hs : Good s) {op : Op} {out : Unit} (h : step s op = .ok (out, s')) :
    Good s' := by
  cases op with
  | plain op =>
    simp only [step] at h
    cases hop : subject op with
    | none => simp [hop] at h
    | some c =>
      obtain ⟨x, shared⟩ := c
      simp only [hop] at h
      split at h
      · rename_i ha
        obtain ⟨⟨_, t⟩, ht, h⟩ := bind_ok.mp h
        obtain ⟨-, rfl⟩ := Prod.mk.inj (pure_ok.mp h)
        obtain ⟨⟨i, old, new, hc⟩, hv⟩ := plain_change hs.inv hop ht
        exact ⟨inv_change hs.inv hc, stackOk_of_available (s := s) ha hv hs.stack⟩
      · cases h
  | call x name =>
    cases hx : s.ledger.vars x with
    | none => simp [step, hx] at h
    | some held =>
      simp only [step, hx] at h
      obtain ⟨⟨f, p⟩, hc, h⟩ := bind_ok.mp h
      split at h
      · obtain ⟨-, rfl⟩ := Prod.mk.inj (pure_ok.mp h)
        refine ⟨inv_change hs.inv (change_call hs.inv hx hc), ?_, hs.stack⟩
        obtain ⟨hty, hp⟩ := DynObject.enterCall_ok (hs.inv.built held (.var x) hx).1 hc
        exact ⟨held, hx, hty.symm, hp.symm⟩
      · cases h
  | insert x k D T v here tmp answer =>
    simp only [step] at h
    split at h
    · rename_i ha
      have hfree := free_of_available ha
      cases hx : s.ledger.vars x with
      | none =>
        simp only [hx] at h
        obtain ⟨s₁, h₁, h⟩ := bind_ok.mp h
        obtain ⟨-, rfl⟩ := Prod.mk.inj (pure_ok.mp h)
        obtain ⟨o, hv, hf, hc⟩ := change_enterInsert hs.inv h₁
        refine ⟨inv_change hs.inv hc, ?_⟩
        rw [hv, hf]
        exact ⟨⟨hx, hfree⟩, hs.stack⟩
      | some held =>
        simp only [hx] at h
        split at h
        · obtain ⟨s₁, h₁, h⟩ := bind_ok.mp h
          obtain ⟨s₂, h₂, h⟩ := bind_ok.mp h
          obtain ⟨-, rfl⟩ := Prod.mk.inj (pure_ok.mp h)
          obtain ⟨o, hv, hf, hc⟩ := change_enterInsert hs.inv h₁
          refine good_enterDrop (inv_change hs.inv hc) (by rw [hv, hx]) h₂ ?_
          rw [hv, hf]
          exact ⟨⟨Function.update_self _ _ _, hfree⟩, stackOk_update hfree none hs.stack⟩
        · cases h
    · cases h
  | drop x =>
    simp only [step] at h
    split at h
    · rename_i ha
      cases hx : s.ledger.vars x with
      | none => simp [hx] at h
      | some held =>
        simp only [hx] at h
        obtain ⟨s₁, h₁, h⟩ := bind_ok.mp h
        obtain ⟨-, rfl⟩ := Prod.mk.inj (pure_ok.mp h)
        exact good_enterDrop hs.inv hx h₁ (stackOk_update (free_of_available ha) none hs.stack)
    · cases h
  | finish how body =>
    have hstack := hs.stack
    cases hf : s.frames with
    | nil => simp [step, hf] at h
    | cons f fs =>
      rw [hf] at hstack
      obtain ⟨hok, hstack⟩ := hstack
      cases f with
      | method x shared T p =>
        simp only [step, hf] at h
        obtain ⟨-, rfl⟩ := Prod.mk.inj (Except.ok.inj h)
        exact ⟨inv_leaveCall hs.inv hf rfl, hstack⟩
      | destructor held =>
        cases how with
        | unwinds =>
          simp only [step, hf] at h
          obtain ⟨-, rfl⟩ := Prod.mk.inj (Except.ok.inj h)
          exact ⟨inv_change hs.inv (change_lose hs.inv hf), hstack⟩
        | returns =>
          simp only [step, hf] at h
          obtain ⟨s₁, h₁, h⟩ := bind_ok.mp h
          obtain ⟨-, rfl⟩ := Prod.mk.inj (pure_ok.mp h)
          obtain ⟨hv, hf', hc⟩ := change_release hs.inv hf h₁
          refine ⟨inv_change hs.inv hc, ?_⟩
          rw [hv, hf']
          exact hstack
      | insertion x new here =>
        obtain ⟨hx, hbelow⟩ := hok
        simp only [step, hf] at h
        obtain ⟨⟨q, w⟩, hw, h⟩ := bind_ok.mp h
        obtain ⟨-, rfl⟩ := Prod.mk.inj (pure_ok.mp h)
        exact ⟨inv_change hs.inv (change_leaveInsert hs.inv hf hx hw),
          stackOk_update hbelow _ hstack⟩

theorem good_empty : Good empty := by
  have hnone : ∀ h p, ¬ empty.Keeps h p := by
    intro h p hk
    cases p with
    | var x => cases hk
    | frame depth alive =>
      obtain ⟨f, hf, -⟩ := hk
      simp [empty] at hf
    | lost => cases hk
  refine ⟨?_, trivial⟩
  constructor
  · exact Ledger.inv_empty.wf
  · exact fun h p hk => (hnone h p hk).elim
  · exact fun h _ p _ hk => (hnone h p hk).elim
  · intro b
    refine iff_of_false List.not_mem_nil ?_
    rintro ⟨h, p, hk, -⟩
    exact hnone h p hk
  · exact fun h _ p _ _ hk => (hnone h p hk).elim
  · exact fun h p hk => (hnone h p hk).elim
  · intro i hi
    cases hi
  · exact fun _ _ => rfl

theorem good_run {ops : List Op} {outs : List Unit} (h : run step empty ops = .ok (outs, s)) :
    Good s :=
  run_invariant (fun _ _ _ _ hs h => good_step hs h) good_empty h

theorem release_isOk (hs : Inv s) {h : Held} {p : Spot} (hk : s.Keeps h p) (fs : List Frame) :
    ∃ s', release { s with frames := fs } h = .ok s' := by
  have hlive : ∀ b ∈ h.obj.block h.ty, b ∈ s.ledger.world.mem.blocks := live_of_keeps hs hk
  have hl : h.obj.leaveDrop s.ledger.world = .ok (s.ledger.world.released (h.obj.block h.ty)) := by
    rw [DynObject.leaveDrop_eq (hs.built h p hk).1, World.release_of_live hlive]
  exact ⟨_, bind_ok.mpr ⟨_, hl, rfl⟩⟩

theorem enterDrop_isOk (hs : Inv s) {x : ℕ} {h : Held} (hx : s.ledger.vars x = some h) :
    ∃ s', enterDrop s x h = .ok s' := by
  have hc := change_enterDrop hs hx rfl
  unfold enterDrop
  rw [DynObject.enterDrop_eq (hs.built h (.var x) hx).1]
  cases hn : h.ty.needsDrop with
  | true => exact ⟨_, if_pos rfl⟩
  | false =>
    have hk := (hc.stays hs (g := h) (r := .frame s.frames.length false)).mpr (Or.inl rfl)
    obtain ⟨s', hs'⟩ := release_isOk (inv_change hs hc) hk s.frames
    exact ⟨s', hs'⟩

theorem enterInsert_error {x : ℕ} {k : StorageKind} {D : DynTrait} {T : RustType} {v : Value T}
    {here tmp answer : Addr} {e : Fault}
    (h : enterInsert s x k D v here tmp answer = .error e) : ¬ e.Undefined := by
  rcases bind_error.mp h with ho | ⟨_, _, h⟩
  · exact DynObject.new_error ho
  · exact (pure_ne_error h).elim

/-- No operation is undefined behavior, whatever is going on. -/
theorem step_error (hs : Good s) {op : Op} {e : Fault} (h : step s op = .error e) :
    ¬ e.Undefined := by
  have hna : step s op = .error .notAvailable → ¬ e.Undefined := by
    intro hn
    obtain rfl := Except.error.inj (hn.symm.trans h)
    decide
  cases op with
  | plain op =>
    cases hop : subject op with
    | none => exact hna (by simp [step, hop])
    | some c =>
      by_cases ha : s.available c.1 c.2 = true
      · simp only [step, hop, ha, ↓reduceIte] at h
        rcases bind_error.mp h with ho | ⟨_, _, h⟩
        · refine Ledger.step_error_of_owned ?_ ho
          intro x held hx
          exact ⟨(hs.inv.built held (.var x) hx).1, live_of_keeps (p := .var x) hs.inv hx⟩
        · exact (pure_ne_error h).elim
      · exact hna (by simp [step, hop, ha])
  | call x name =>
    cases hx : s.ledger.vars x with
    | none => exact hna (by simp [step, hx])
    | some held =>
      simp only [step, hx] at h
      rcases bind_error.mp h with hc | ⟨⟨f, p⟩, -, h⟩
      · rw [DynObject.enterCall_error (hs.inv.built held (.var x) hx).1 hc]
        decide
      · split at h
        · exact (pure_ne_error h).elim
        · cases h
          decide
  | insert x k D T v here tmp answer =>
    by_cases ha : s.available x false = true
    · cases hx : s.ledger.vars x with
      | none =>
        simp only [step, ha, hx, ↓reduceIte] at h
        rcases bind_error.mp h with ho | ⟨_, _, h⟩
        · exact enterInsert_error ho
        · exact (pure_ne_error h).elim
      | some held =>
        by_cases hat : held.addr = DynObject.someAt held.kind.Carrier here
        · simp only [step, ha, hx, hat, ↓reduceIte] at h
          rcases bind_error.mp h with ho | ⟨s₁, h₁, h⟩
          · exact enterInsert_error ho
          obtain ⟨o, hv, -, hc⟩ := change_enterInsert hs.inv h₁
          obtain ⟨s₂, h₂⟩ := enterDrop_isOk (x := x) (inv_change hs.inv hc) (by rw [hv, hx])
          rw [h₂] at h
          exact (pure_ne_error h).elim
        · exact hna (by simp [step, ha, hx, hat])
    · exact hna (by simp [step, ha])
  | drop x =>
    by_cases ha : s.available x false = true
    · cases hx : s.ledger.vars x with
      | none => exact hna (by simp [step, ha, hx])
      | some held =>
        simp only [step, ha, hx, ↓reduceIte] at h
        obtain ⟨s₁, h₁⟩ := enterDrop_isOk hs.inv hx
        rw [h₁] at h
        exact (pure_ne_error h).elim
    · exact hna (by simp [step, ha])
  | finish how body =>
    cases hf : s.frames with
    | nil => exact hna (by simp [step, hf])
    | cons f fs =>
      cases f with
      | method x shared T p => simp [step, hf] at h
      | destructor held =>
        cases how with
        | unwinds => simp [step, hf] at h
        | returns =>
          simp only [step, hf] at h
          obtain ⟨s₁, h₁⟩ := release_isOk hs.inv (keeps_top hf rfl) fs
          rw [h₁] at h
          exact (pure_ne_error h).elim
      | insertion x new here =>
        simp only [step, hf] at h
        rw [DynObject.leaveInsert_eq (hs.inv.built new _ (keeps_top hf rfl)).1] at h
        exact (pure_ne_error h).elim

/-! Code that returns at once: the runs of the ledger are among these. -/

def idle (l : Ledger) : State := ⟨l, [], []⟩

def Reaches (s t : State) : Prop := ∃ ops outs, run step s ops = .ok (outs, t)

theorem Reaches.refl (s : State) : Reaches s s := ⟨[], [], rfl⟩

theorem Reaches.trans {t u : State} (h : Reaches s t) (h' : Reaches t u) : Reaches s u := by
  obtain ⟨ops, outs, hr⟩ := h
  obtain ⟨ops', outs', hr'⟩ := h'
  exact ⟨ops ++ ops', outs ++ outs', run_append hr hr'⟩

theorem Reaches.one {t : State} (op : Op) (h : step s op = .ok ((), t)) : Reaches s t :=
  ⟨[op], [()], by simp [run, h]⟩

/-- After a drop whose destructor has returned. -/
def dropped (s : State) (x : ℕ) (h : Held) : State :=
  let w := h.obj.afterDrop h.ty h.addr .returns s.ledger.world
  { s with ledger := s.ledger.commit x none (fun _ => h.id) w }

theorem reaches_drop (hs : Inv s) {x : ℕ} {h : Held} (hx : s.ledger.vars x = some h) :
    ∃ s₁, enterDrop s x h = .ok s₁ ∧ Reaches s₁ (dropped s x h) := by
  have hb := (hs.built h (.var x) hx).1
  have hlive : ∀ b ∈ h.obj.block h.ty, b ∈ s.ledger.mem.blocks :=
    live_of_keeps (p := .var x) hs hx
  let w := s.ledger.world.record (DynObject.endEvent h.ty (h.obj.place h.addr))
  have hrelease : release { s with ledger := s.ledger.commit x none (fun _ => h.id) w } h =
      .ok (dropped s x h) := by
    unfold release
    rw [DynObject.leaveDrop_eq hb, World.release_of_live hlive]
    unfold dropped
    rw [DynObject.afterDrop_returns]
    cases h.obj.block h.ty <;>
      simp [bind, Except.bind, pure, Except.pure, note, Ledger.commit, Ledger.world,
        World.released, w]
  unfold enterDrop
  rw [DynObject.enterDrop_eq hb]
  cases hn : h.ty.needsDrop with
  | true =>
    refine ⟨_, if_pos rfl, .one (.finish .returns fun _ v => v) ?_⟩
    exact bind_ok.mpr ⟨_, hrelease, rfl⟩
  | false => exact ⟨_, hrelease, .refl _⟩

/-- After an insertion, where nothing has unwound. -/
def inserted (s : State) (x : ℕ) (new : Held) (here : Addr) (fs : List Frame) : State :=
  let w := (new.obj.settle new.ty here new.addr .returns s.ledger.world).2
  let content := { new with addr := DynObject.someAt new.kind.Carrier here }
  { s with ledger := s.ledger.commit x (some content) (fun _ => new.id) w, frames := fs }

theorem reaches_leaveInsert {x : ℕ} {new : Held} {here : Addr} {fs : List Frame}
    (hb : new.obj.BuiltFor new.dyn new.ty) (hf : s.frames = .insertion x new here :: fs) :
    Reaches s (inserted s x new here fs) := by
  refine .one (.finish .returns fun _ v => v) ?_
  simp only [step, hf]
  rw [DynObject.leaveInsert_eq hb]
  rfl

/-- With the object that `insert` has built. -/
def entered (s : State) (x : ℕ) (new : Held) (here : Addr) (w : World) : State :=
  { s with
    ledger := { note s.ledger s.ledger.next w with next := s.ledger.next + 1 }
    frames := .insertion x new here :: s.frames }

theorem enterInsert_ok {x : ℕ} {k : StorageKind} {D : DynTrait} {T : RustType} {v : Value T}
    {here tmp answer : Addr} {o : DynObject k.Carrier} {w : World}
    (hn : DynObject.new D v tmp answer s.ledger.world = .ok (o, w)) :
    enterInsert s x k D v here tmp answer =
      .ok (entered s x ⟨k, D, o, tmp, s.ledger.next, T⟩ here w) :=
  bind_ok.mpr ⟨_, hn, rfl⟩

variable {l : Ledger} {x : ℕ} {T : RustType} {v : Value T} {here tmp answer : Addr} {w : World}

theorem reaches_insert_empty (hx : l.vars x = none) {k : StorageKind}
    {D : DynTrait} {p : Option Addr} {o : DynObject k.Carrier}
    (ho : DynObject.insert D none v here tmp answer .returns l.world = .ok (p, o, w)) :
    Reaches (idle l) (idle (l.enroll x ⟨k, D, o, DynObject.someAt k.Carrier here, l.next, T⟩
      (fun _ => l.next) w)) := by
  obtain ⟨w₁, hn⟩ := DynObject.new_of_insert ho
  obtain ⟨-, -, outcome, w₂, hd, hset⟩ := DynObject.insert_ok ho
  obtain ⟨hb, -, hw₁⟩ := DynObject.new_ok hn
  rw [← hw₁] at hd
  obtain ⟨rfl, rfl⟩ := Prod.mk.inj (Except.ok.inj hd)
  obtain ⟨-, rfl⟩ := Prod.mk.inj hset
  have he : enterInsert (idle l) x _ _ v here tmp answer = .ok _ := enterInsert_ok hn
  have hstep : step (idle l) (.insert x k D T v here tmp answer) =
      .ok ((), entered (idle l) x ⟨k, D, o, tmp, l.next, T⟩ here w₁) := by
    simp only [step, idle, hx]
    exact bind_ok.mpr ⟨_, he, rfl⟩
  have hend := (Reaches.one _ hstep).trans (reaches_leaveInsert hb rfl)
  convert hend using 1
  simp [idle, inserted, entered, note, Ledger.enroll, Ledger.commit, DynObject.settle,
    Ledger.world]

theorem reaches_insert_over (hs : Inv (idle l)) {h : Held} (hx : l.vars x = some h)
    (hat : h.addr = DynObject.someAt h.kind.Carrier here)
    {p : Option Addr} {o : DynObject h.kind.Carrier}
    (ho : DynObject.insert h.dyn (some h.obj) v here tmp answer .returns l.world =
      .ok (p, o, w)) :
    Reaches (idle l) (idle (l.enroll x { h with obj := o, id := l.next, ty := T }
      (Ledger.aboutInsert h.id l.next) w)) := by
  have hb := (hs.built h (.var x) hx).1
  have hlive := live_of_keeps (p := .var x) hs hx
  obtain ⟨w₁, hn⟩ := DynObject.new_of_insert ho
  obtain ⟨-, -, outcome, w₂, hd, hset⟩ := DynObject.insert_ok ho
  obtain ⟨hnew, -, hw₁⟩ := DynObject.new_ok hn
  rw [DynObject.dropSlot, DynObject.drop_live hb (DynObject.live_acquire_put hlive), ← hw₁] at hd
  obtain ⟨rfl, rfl⟩ := Prod.mk.inj (Except.ok.inj hd)
  simp only [DynObject.dropOutcome_returns] at hset
  obtain ⟨-, rfl⟩ := Prod.mk.inj hset
  have he : enterInsert (idle l) x _ _ v here tmp answer = .ok _ := enterInsert_ok hn
  obtain ⟨_, -, -, hc⟩ := change_enterInsert hs he
  obtain ⟨s₂, hd, hdropped⟩ := reaches_drop (x := x) (inv_change hs hc) hx
  have hstep : step (idle l) (.insert x h.kind h.dyn T v here tmp answer) = .ok ((), s₂) := by
    simp only [step, idle, hx, hat, if_true]
    exact bind_ok.mpr ⟨_, he, bind_ok.mpr ⟨_, hd, rfl⟩⟩
  have hslot : (dropped (entered (idle l) x ⟨h.kind, h.dyn, o, tmp, l.next, T⟩ here w₁) x h).frames =
    [.insertion x ⟨h.kind, h.dyn, o, tmp, l.next, T⟩ here] := rfl
  have hend := ((Reaches.one _ hstep).trans hdropped).trans (reaches_leaveInsert hnew hslot)
  convert hend using 1
  simp [idle, inserted, entered, dropped, note, Ledger.enroll, Ledger.commit, DynObject.settle,
    Ledger.world, hat]
  -- of the two logs, the ledger's is sorted by what the events are
  rw [hw₁, DynObject.afterDrop_returns, DynObject.afterDrop_returns]
  unfold DynObject.endEvent
  cases h.ty.needsDrop <;> cases h.obj.block h.ty <;> cases o.block T <;>
    simp [World.released, World.acquire, Ledger.aboutInsert, Ledger.world, World.record]

theorem reaches_plain {op : Ledger.Op} {x : ℕ} {shared : Bool} (hop : subject op = some (x, shared))
    {out : Outcome} {t : Ledger} (h : l.step op = .ok (out, t)) : Reaches (idle l) (idle t) := by
  refine .one (.plain op) ?_
  simp only [step, hop]
  exact bind_ok.mpr ⟨_, h, rfl⟩

theorem reaches_call {h : Held} (hx : l.vars x = some h) {name : String}
    {body : (T : RustType) → Value T → Outcome × Value T} {out : Outcome}
    (hc : h.obj.call h.addr name body l.world = .ok (out, w)) :
    Reaches (idle l) (idle (l.commit x (some h) (fun _ => h.id) w)) := by
  rw [DynObject.call_eq_enter] at hc
  obtain ⟨⟨f, p⟩, he, hc⟩ := bind_ok.mp hc
  obtain ⟨-, rfl⟩ := Prod.mk.inj (pure_ok.mp hc)
  have henter : step (idle l) (.call x name) = .ok ((), {
      ledger := note l h.id (l.world.record (.accessed f.ty p))
      frames := [.method x (decide (f.receiver = .ref)) f.ty p]
      lost := [] }) := by
    simp only [step, idle, hx]
    exact bind_ok.mpr ⟨_, he, rfl⟩
  refine (Reaches.one _ henter).trans (.one (.finish .returns fun T v => (body T v).2) ?_)
  simp [step, idle, note, Ledger.commit, Ledger.world, ← hx, World.write, World.read]

/-- An operation of the ledger, as one of this machine and what ends its frames. -/
theorem reaches_of_step (hs : Inv (idle l)) {op : Ledger.Op} {out : Outcome} {t : Ledger}
    (h : l.step op = .ok (out, t)) : Reaches (idle l) (idle t) := by
  cases op with
  | new | fromBox | move | downcastRef | downcastMut | downcast => exact reaches_plain rfl h
  | call x name body =>
    cases hx : l.vars x with
    | none => simp [Ledger.step, hx] at h
    | some held =>
      simp only [Ledger.step, hx] at h
      obtain ⟨⟨ends, w⟩, hc, h⟩ := bind_ok.mp h
      obtain ⟨-, rfl⟩ := Prod.mk.inj (pure_ok.mp h)
      exact reaches_call hx hc
  | insert pinned x k D T v here tmp answer =>
    cases hx : l.vars x with
    | none =>
      simp only [Ledger.step, hx, Ledger.insertAt_eq] at h
      obtain ⟨⟨p, o, w⟩, ho, h⟩ := bind_ok.mp h
      obtain ⟨-, rfl⟩ := Prod.mk.inj (pure_ok.mp h)
      exact reaches_insert_empty hx ho
    | some held =>
      simp only [Ledger.step, hx, Ledger.insertAt_eq] at h
      split at h
      · rename_i hat
        obtain ⟨⟨p, o, w⟩, ho, h⟩ := bind_ok.mp h
        obtain ⟨-, rfl⟩ := Prod.mk.inj (pure_ok.mp h)
        exact reaches_insert_over hs hx hat ho
      · cases h
  | drop x =>
    cases hx : l.vars x with
    | none => simp [Ledger.step, hx] at h
    | some held =>
      simp only [Ledger.step, hx] at h
      obtain ⟨⟨outcome, w⟩, hd, h⟩ := bind_ok.mp h
      obtain ⟨-, rfl⟩ := Prod.mk.inj (pure_ok.mp h)
      rw [DynObject.drop_live (hs.built held (.var x) hx).1
        (live_of_keeps (p := .var x) hs hx)] at hd
      obtain ⟨-, rfl⟩ := Prod.mk.inj (Except.ok.inj hd)
      obtain ⟨s₁, hd, hr⟩ := reaches_drop (x := x) hs hx
      refine (Reaches.one (.drop x) ?_).trans hr
      simp only [step, idle, hx]
      exact bind_ok.mpr ⟨_, hd, rfl⟩

theorem reaches_of_run {ops : List Ledger.Op} {outs : List Outcome}
    (h : run Ledger.step .empty ops = .ok (outs, l)) : Reaches empty (idle l) := by
  let Inv l := Reaches empty (idle l)
  have hstep : ∀ l op out t, Inv l → Ledger.step l op = .ok (out, t) → Inv t := by
    intro l op out t hr ht
    obtain ⟨ops, outs, hrun⟩ := hr
    exact Reaches.trans ⟨ops, outs, hrun⟩ (reaches_of_step (good_run hrun).inv ht)
  have hempty : Inv .empty := .refl empty
  have hl := run_invariant hstep hempty h
  exact hl

/-! What this says of ownership. -/

/-- The object is in a variable, or in a frame that will put it there or drop it, or its
destructor has unwound. -/
def Holds (s : State) (h : Held) : Prop :=
  (∃ x, s.ledger.vars x = some h) ∨ (∃ f ∈ s.frames, ∃ a, f.aside = some (h, a)) ∨ h ∈ s.lost

/-- The value `i` is alive, in a variable or on its way into one. -/
def Live (s : State) (i : ℕ) : Prop :=
  ∃ h, h.id = i ∧ ((∃ x, s.ledger.vars x = some h) ∨ ∃ f ∈ s.frames, f.aside = some (h, true))

/-- The object of the value `i` owns the block `b`: its storage is a box, of a value that is
not zero-sized. -/
def Owns (s : State) (i : ℕ) (b : Block) : Prop :=
  ∃ h, Holds s h ∧ h.id = i ∧ boxed h.obj.storage = some b.addr ∧ b.layout = h.ty.layout ∧
    h.ty.size ≠ 0

/-- The ledger is exact, in the midst of whatever is going on. -/
structure Exact (s : State) : Prop where
  nodup : s.ledger.mem.blocks.Nodup
  blocks : ∀ b, b ∈ s.ledger.mem.blocks ↔ ∃ i, Owns s i b
  sole : ∀ i j b, Owns s i b → Owns s j b → i = j
  proper : ∀ i, ∃ T, ∀ e ∈ s.ledger.history i, e.Proper T
  ended : ∀ i < s.ledger.next, Live s i ∧ (s.ledger.history i).countP Event.ends = 0 ∨
    ¬ Live s i ∧ (s.ledger.history i).countP Event.ends = 1
  freed : ∀ i b, .alloc b ∈ s.ledger.history i →
    Owns s i b ∧ (s.ledger.history i).count (.dealloc b) = 0 ∨
      ¬ Owns s i b ∧ (s.ledger.history i).count (.dealloc b) = 1
  order : ∀ i pre b post, s.ledger.history i = pre ++ .dealloc b :: post →
    .alloc b ∈ pre ∧ ∃ e ∈ pre, e.empties = true
  /-- A method that runs has its reference to the value that is there. -/
  refs : ∀ x shared T p, .method x shared T p ∈ s.frames → ∃ h, s.ledger.vars x = some h ∧
    h.ty = T ∧ p = h.obj.place h.addr ∧ ∀ b ∈ h.obj.block h.ty, b ∈ s.ledger.mem.blocks

omit [FieldOffsets] in
theorem holds_iff {h : Held} : Holds s h ↔ ∃ p, s.Keeps h p := by
  constructor
  · rintro (⟨x, hx⟩ | ⟨f, hf, a, ha⟩ | hl)
    · exact ⟨.var x, hx⟩
    · obtain ⟨depth, hd⟩ := List.mem_iff_getElem?.mp (List.mem_reverse.mpr hf)
      exact ⟨.frame depth a, f, hd, ha⟩
    · exact ⟨.lost, hl⟩
  · rintro ⟨p, hk⟩
    cases p with
    | var x => exact Or.inl ⟨x, hk⟩
    | frame depth a =>
      obtain ⟨f, hf, ha⟩ := hk
      exact Or.inr (Or.inl ⟨f, List.mem_reverse.mp (List.mem_iff_getElem?.mpr ⟨_, hf⟩), a, ha⟩)
    | lost => exact Or.inr (Or.inr hk)

omit [FieldOffsets] in
theorem live_iff {i : ℕ} : Live s i ↔ ∃ h p, s.Keeps h p ∧ h.id = i ∧ p.alive = true := by
  constructor
  · rintro ⟨h, hid, ⟨x, hx⟩ | ⟨f, hf, ha⟩⟩
    · exact ⟨h, .var x, hx, hid, rfl⟩
    · obtain ⟨depth, hd⟩ := List.mem_iff_getElem?.mp (List.mem_reverse.mpr hf)
      exact ⟨h, .frame depth true, ⟨f, hd, ha⟩, hid, rfl⟩
  · rintro ⟨h, p, hk, hid, hp⟩
    refine ⟨h, hid, ?_⟩
    cases p with
    | var x => exact Or.inl ⟨x, hk⟩
    | frame depth a =>
      obtain ⟨f, hf, ha⟩ := hk
      obtain rfl : a = true := hp
      exact Or.inr ⟨f, List.mem_reverse.mp (List.mem_iff_getElem?.mpr ⟨_, hf⟩), ha⟩
    | lost => cases hp

theorem owns_iff {i : ℕ} {b : Block} :
    Owns s i b ↔ ∃ h p, s.Keeps h p ∧ h.id = i ∧ b ∈ h.obj.block h.ty := by
  simp only [Owns, holds_iff, Ledger.mem_block_iff]
  constructor
  · rintro ⟨h, ⟨p, hk⟩, hb⟩
    exact ⟨h, p, hk, hb⟩
  · rintro ⟨h, p, hk, hb⟩
    exact ⟨h, ⟨p, hk⟩, hb⟩

/-- A history is that of a value that is kept somewhere, of one that is gone, or empty. -/
theorem life_cases (hs : Inv s) (i : ℕ) :
    (∃ h p, s.Keeps h p ∧ h.id = i ∧
      Life.Sound h.ty (s.ledger.history i) (p.life (h.obj.block h.ty))) ∨
    (∀ h p, s.Keeps h p → h.id ≠ i) ∧
      ((∃ T, Life.Sound T (s.ledger.history i) (.past none)) ∨
        s.ledger.next ≤ i ∧ s.ledger.history i = []) := by
  by_cases hk : ∃ h p, s.Keeps h p ∧ h.id = i
  · obtain ⟨h, p, hk, rfl⟩ := hk
    exact Or.inl ⟨h, p, hk, rfl, Life.sound_run Life.sound_unborn (hs.kept h p hk)⟩
  · have hnone : ∀ h p, s.Keeps h p → h.id ≠ i := fun h p hkeep hid => hk ⟨h, p, hkeep, hid⟩
    refine Or.inr ⟨hnone, ?_⟩
    by_cases hi : i < s.ledger.next
    · obtain ⟨T, hT⟩ := hs.gone i hi hnone
      exact Or.inl ⟨T, Life.sound_run Life.sound_unborn hT⟩
    · exact Or.inr ⟨Nat.le_of_not_lt hi, hs.fresh i (Nat.le_of_not_lt hi)⟩

theorem ended_of_inv (hs : Inv s) (i : ℕ) (hi : i < s.ledger.next) :
    Live s i ∧ (s.ledger.history i).countP Event.ends = 0 ∨
      ¬ Live s i ∧ (s.ledger.history i).countP Event.ends = 1 := by
  rw [live_iff]
  rcases life_cases hs i with ⟨h, p, hk, hid, hsound⟩ | ⟨hnone, ⟨T, hsound⟩ | ⟨hge, -⟩⟩
  · have hends := hsound.ends
    unfold Spot.life at hends
    cases hp : p.alive with
    | true =>
      rw [hp] at hends
      exact Or.inl ⟨⟨h, p, hk, hid, hp⟩, hends⟩
    | false =>
      rw [hp] at hends
      refine Or.inr ⟨?_, hends⟩
      rintro ⟨h', p', hk', hid', hp'⟩
      obtain ⟨-, rfl⟩ := hs.once h h' p p' hk hk' (hid.trans hid'.symm)
      rw [hp] at hp'
      cases hp'
  · refine Or.inr ⟨?_, hsound.ends⟩
    rintro ⟨h, p, hk, hid, -⟩
    exact hnone h p hk hid
  · omega

theorem freed_of_inv (hs : Inv s) (i : ℕ) (b : Block) (hb : .alloc b ∈ s.ledger.history i) :
    Owns s i b ∧ (s.ledger.history i).count (.dealloc b) = 0 ∨
      ¬ Owns s i b ∧ (s.ledger.history i).count (.dealloc b) = 1 := by
  rw [owns_iff]
  rcases life_cases hs i with ⟨h, p, hk, hid, hsound⟩ | ⟨hnone, ⟨T, hsound⟩ | ⟨-, hnil⟩⟩
  · have hblock : (p.life (h.obj.block h.ty)).block = h.obj.block h.ty := by
      unfold Spot.life
      split <;> rfl
    by_cases hm : b ∈ h.obj.block h.ty
    · exact Or.inl ⟨⟨h, p, hk, hid, hm⟩, hsound.kept b (hblock.trans hm)⟩
    · refine Or.inr ⟨?_, hsound.freed b hb fun he => hm (hblock.symm.trans he)⟩
      rintro ⟨h', p', hk', hid', hm'⟩
      obtain ⟨rfl, -⟩ := hs.once h h' p p' hk hk' (hid.trans hid'.symm)
      exact hm hm'
  · refine Or.inr ⟨?_, hsound.freed b hb (by simp [Life.block])⟩
    rintro ⟨h, p, hk, hid, -⟩
    exact hnone h p hk hid
  · simp [hnil] at hb

theorem refs_of_stack {vars : ℕ → Option Held} {fs : List Frame} (hs : StackOk vars fs) {x : ℕ}
    {shared : Bool} {T : RustType} {p : Addr} (hf : .method x shared T p ∈ fs) :
    ∃ h, vars x = some h ∧ h.ty = T ∧ h.obj.place h.addr = p := by
  induction fs with
  | nil => cases hf
  | cons f fs ih =>
    rcases List.mem_cons.mp hf with rfl | hf
    · exact hs.1
    · exact ih hs.2 hf

theorem exact_of_good (hs : Good s) : Exact s where
  nodup := hs.inv.wf.nodup
  blocks b := by
    simp only [hs.inv.blocks b, owns_iff]
    constructor
    · rintro ⟨h, p, hk, hb⟩
      exact ⟨h.id, h, p, hk, rfl, hb⟩
    · rintro ⟨_, h, p, hk, -, hb⟩
      exact ⟨h, p, hk, hb⟩
  sole i j b hi hj := by
    obtain ⟨h, p, hk, rfl, hb⟩ := owns_iff.mp hi
    obtain ⟨h', p', hk', rfl, hb'⟩ := owns_iff.mp hj
    exact hs.inv.sole h h' p p' b hk hk' hb hb'
  proper i := by
    rcases life_cases hs.inv i with ⟨h, _, -, -, hsound⟩ | ⟨-, ⟨T, hsound⟩ | ⟨-, hnil⟩⟩
    · exact ⟨h.ty, hsound.proper⟩
    · exact ⟨T, hsound.proper⟩
    · exact ⟨.bytes 0, by simp [hnil]⟩
  ended := ended_of_inv hs.inv
  freed := freed_of_inv hs.inv
  order i pre b post heq := by
    rcases life_cases hs.inv i with ⟨h, _, -, -, hsound⟩ | ⟨-, ⟨T, hsound⟩ | ⟨-, hnil⟩⟩
    · exact hsound.order pre b post heq
    · exact hsound.order pre b post heq
    · simp [hnil] at heq
  refs x shared T p hf := by
    obtain ⟨h, hx, hty, hp⟩ := refs_of_stack hs.stack hf
    exact ⟨h, hx, hty, hp.symm, live_of_keeps (p := .var x) hs.inv hx⟩

omit [FieldOffsets] in
theorem holds_settled (hf : s.frames = []) (hl : s.lost = []) {h : Held} :
    Holds s h ↔ ∃ x, s.ledger.vars x = some h := by
  simp [Holds, hf, hl]

/-- When all calls are over and nothing has unwound, this is what the ledger says. -/
theorem exact_settled (hs : Good s) (hf : s.frames = []) (hl : s.lost = []) : s.ledger.Exact := by
  have hlive : ∀ i, Live s i ↔ s.ledger.Live i := by
    intro i
    simp only [Live, Ledger.Live, hf, List.not_mem_nil, false_and, exists_false, or_false]
    constructor
    · rintro ⟨h, hid, x, hx⟩
      exact ⟨x, h, hx, hid⟩
    · rintro ⟨x, h, hx, hid⟩
      exact ⟨h, hid, x, hx⟩
  have howns : ∀ i b, Owns s i b ↔ s.ledger.Owns i b := by
    intro i b
    simp only [Owns, Ledger.Owns, holds_settled hf hl]
    constructor
    · rintro ⟨h, ⟨x, hx⟩, hb⟩
      exact ⟨x, h, hx, hb⟩
    · rintro ⟨x, h, hx, hb⟩
      exact ⟨h, ⟨x, hx⟩, hb⟩
  have he := exact_of_good hs
  constructor
  · exact he.nodup
  · simpa only [howns] using he.blocks
  · simpa only [howns] using he.sole
  · exact he.proper
  · simpa only [hlive] using he.ended
  · simpa only [howns] using he.freed
  · exact he.order

/-- Whatever user code does in the methods and destructors that the crate calls, which may use
any object that no reference is in the way of, and may unwind: at every moment the heap is what
the objects own, every value has ended at most once, every block was freed at most once and
after that, the references of running methods are good, and no operation is undefined
behavior. -/
theorem exact_of_nested {ops : List Op} {outs : List Unit}
    (h : run step empty ops = .ok (outs, s)) :
    Exact s ∧ ∀ op e, step s op = .error e → ¬ e.Undefined :=
  ⟨exact_of_good (good_run h), fun _ _ he => step_error (good_run h) he⟩

/-- A value whose `touch` takes `&mut self`. -/
def touching : DynTrait := .trait fun name => if name = "touch" then some .mut else none

/-- A boxed value is replaced, whose destructor calls a method of another object, where a third
one is made and dropped: its destructor unwinds, and then the first one does. -/
def replaceTouchDrop : List Op :=
  [.plain (.new 0 .box .any (.droppable 1 2) (fun _ => some 1) 64 4096),
    .plain (.new 1 (.raw 8 8) touching (.bytes 2) (fun _ => some 2) 192 4096),
    .insert 0 .box .any (.droppable 2 4) (fun _ => some 3) 64 128 8192,
    .call 1 "touch",
    .plain (.new 2 .box .any (.droppable 4 4) (fun _ => some 4) 256 12288),
    .drop 2,
    .finish .unwinds fun _ v => v,
    .finish .returns fun _ _ _ => some 5,
    .finish .unwinds fun _ v => v,
    .finish .unwinds fun _ v => v]

omit [FieldOffsets] in
theorem exact_of_nested_replaceTouchDrop :
    ∃ outs s, run (@step .tagFirst) empty replaceTouchDrop = .ok (outs, s) ∧
      @Exact .tagFirst s ∧ ∀ op e, @step .tagFirst s op = .error e → ¬ e.Undefined := by
  have h : ∃ outs s, run (@step .tagFirst) empty replaceTouchDrop = .ok (outs, s) := ⟨_, _, rfl⟩
  obtain ⟨outs, s, h⟩ := h
  exact ⟨outs, s, h, @exact_of_nested .tagFirst _ _ _ h⟩

end Reentrancy

end DynUtils
