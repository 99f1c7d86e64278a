import DynUtils.Pinning

/-! Destructors that unwind: what a drop leaves undone, and what it does in any case. -/
namespace DynUtils.Unwinding

open FlatMemory Machine LawfulStorage

variable [FieldOffsets] {k : StorageKind}

/-- An object that holds a value of type `T`: it was built, and the rest of the program
has freed no block of it since. -/
inductive Stored : DynTrait → RustType → DynObject k.Carrier → World → Prop
  | new {D : DynTrait} {T : RustType} {v : Value T} {here answer : Addr} {w w' : World}
    {o : DynObject k.Carrier} : DynObject.new D v here answer w = .ok (o, w') → Stored D T o w'
  | fromBox {D : DynTrait} {T : RustType} {b : StdBox T} {here : Addr} {w w' : World}
    {o : DynObject k.Carrier} : (∀ c ∈ boxBlock T b.ptr, c ∈ w.mem.blocks) →
      k.fromBox D b here w = .ok (o, w') → Stored D T o w'
  | insert {D : DynTrait} {T T' : RustType} {v : Value T} {here tmp answer : Addr}
    {destructor : Outcome} {p : Option Addr} {w w' : World} {this : Option (DynObject k.Carrier)}
    {o : DynObject k.Carrier} : (∀ old, this = some old → Stored D T' old w) →
      DynObject.insert D this v here tmp answer destructor w = .ok (p, o, w') → Stored D T o w'
  | elsewhere {D : DynTrait} {T : RustType} {o : DynObject k.Carrier} {w w' : World} :
      Stored D T o w → (∀ b ∈ o.block T, b ∈ w.mem.blocks → b ∈ w'.mem.blocks) → Stored D T o w'

/-- How an object comes to its end. -/
inductive Op
  | drop (here : Addr)
  | insert (pinned : Bool) (T : RustType) (v : Value T) (here tmp answer : Addr)

namespace Op

/-- Where the object is that comes to its end. -/
def addr (k : StorageKind) : Op → Addr
  | drop here => here
  | insert _ _ _ here _ _ => DynObject.someAt k.Carrier here

/-- The operation, with what its slot then holds. -/
def run (D : DynTrait) (destructor : Outcome) (o : DynObject k.Carrier) (w : World) :
    Op → Except Fault (Option (DynObject k.Carrier) × World)
  | drop here => do
    let (_, w) ← o.drop here destructor w
    return (none, w)
  | insert pinned T v here tmp answer =>
    -- the allocator does not answer with the memory of the slot
    if Apart answer T.size (DynObject.someAt k.Carrier here) (DynObject.size k.Carrier) then do
      let (_, new, w) ←
        if pinned then DynObject.insertPinned D (some o) v here tmp answer destructor w
        else DynObject.insert D (some o) v here tmp answer destructor w
      return (some new, w)
    else .error .notFresh

/-- What the operation puts into the slot is there. -/
def Filled (D : DynTrait) (slot : Option (DynObject k.Carrier)) (w : World) : Op → Prop
  | drop _ => slot = none
  | insert _ T v here _ _ => ∃ new, slot = some new ∧ new.BuiltFor D T ∧
      (∀ b ∈ new.block T, b ∈ w.mem.blocks) ∧
      w.read T (new.place (DynObject.someAt k.Carrier here)) = v

end Op

/-- The block that the event frees. -/
def freed : Event → Option Block
  | .dealloc b => some b
  | _ => none

/-- The value of `o`, which is at `here`, ends once in its place, and its block, if there
is one, is freed once. -/
structure Released (T : RustType) (o : DynObject k.Carrier) (here : Addr) (es : List Event) :
    Prop where
  ends : es.filter Event.ends = [DynObject.endEvent T (o.place here)]
  frees : es.filterMap freed = (o.block T).toList
  layout : ∀ b ∈ es.filterMap freed, b.layout = T.layout

/-- The operation ends the old value, releases its storage and fills the slot. -/
def Handled (D : DynTrait) (T : RustType) (o : DynObject k.Carrier) (op : Op)
    (slot : Option (DynObject k.Carrier)) (w w' : World) : Prop :=
  (∃ es, w'.trace = w.trace ++ es ∧ Released T o (op.addr k) es) ∧ op.Filled D slot w'

/-- The destructor returns, or there is none, or there is nothing to free. -/
def Safe (T : RustType) (o : DynObject k.Carrier) (destructor : Outcome) : Prop :=
  T.needsDrop → destructor = .unwinds → o.block T = none

variable {D : DynTrait} {T T' : RustType} {o old : DynObject k.Carrier} {w w' : World}
  {here tmp answer : Addr} {d : Outcome}

/-- A new object keeps its block while the old one is dropped. -/
theorem live_afterDrop {b : Block} (hb : b ∈ o.block T)
    (hf : b.addr = answer ∧ w.mem.Fresh b.addr b.layout)
    (hlive : ∀ c ∈ old.block T', c ∈ w.mem.blocks) {w₁ : World}
    (hb₁ : b ∈ w₁.mem.blocks) (p : Addr) : b ∈ (old.afterDrop T' p d w₁).mem.blocks := by
  unfold DynObject.afterDrop
  split
  · exact hb₁
  · exact Pinning.mem_released_of_ne hb₁ (Pinning.not_mem_block_of_fresh hb hf hlive)

theorem live_new {b : Block} (hb : b ∈ o.block T) : b ∈ (w.acquire (o.block T)).mem.blocks := by
  rw [World.blocks_acquire]
  exact List.mem_append_left _ (Option.mem_toList.mpr hb)

/-- What an insertion into an occupied slot leaves. -/
theorem insert_live {v : Value T} {p : Option Addr} (hold : old.BuiltFor D T')
    (hlive : ∀ b ∈ old.block T', b ∈ w.mem.blocks)
    (h : DynObject.insert D (some old) v here tmp answer d w = .ok (p, o, w')) :
    o.BuiltFor D T ∧ (∀ b ∈ o.block T, b.addr = answer ∧ w.mem.Fresh b.addr b.layout) ∧
      w' = (o.settle T here tmp (DynObject.dropOutcome T' d)
        (old.afterDrop T' (DynObject.someAt k.Carrier here) d
          ((w.acquire (o.block T)).put (o.place tmp) v))).2 := by
  obtain ⟨hb, hf, outcome, w₂, hd, hset⟩ := DynObject.insert_ok h
  rw [DynObject.dropSlot, DynObject.drop_live hold (DynObject.live_acquire_put hlive)] at hd
  obtain ⟨rfl, rfl⟩ := Prod.mk.inj (Except.ok.inj hd)
  exact ⟨hb, hf, congrArg Prod.snd hset⟩

theorem settle_blocks {outcome : Outcome} :
    (o.settle T here tmp outcome w).2.mem.blocks = w.mem.blocks := by
  cases outcome <;> rfl

theorem mem_settle {outcome : Outcome} : (o.settle T here tmp outcome w).2.mem =
    (w.moveBytes tmp (DynObject.someAt k.Carrier here) (DynObject.size k.Carrier)).mem := by
  cases outcome <;> rfl

/-- Its trace goes on without an end of a value. -/
theorem trace_settle (T : RustType) (o : DynObject k.Carrier) (here tmp : Addr)
    (outcome : Outcome) (w : World) :
    ∃ es, (o.settle T here tmp outcome w).2.trace = w.trace ++ es ∧
      es.filter Event.ends = [] ∧ es.filterMap freed = [] := by
  cases outcome with
  | returns => exact ⟨_, List.append_assoc _ _ _, rfl, rfl⟩
  | unwinds => exact ⟨_, rfl, rfl, rfl⟩

/-- A stored object is complete, and the block that it owns is allocated. -/
theorem stored_live (h : Stored D T o w) :
    o.BuiltFor D T ∧ ∀ b ∈ o.block T, b ∈ w.mem.blocks := by
  induction h with
  | new h =>
    obtain ⟨hb, -, rfl⟩ := DynObject.new_ok h
    exact ⟨hb, fun b hm => live_new hm⟩
  | fromBox hlive h =>
    obtain ⟨hb, ⟨hp, rfl⟩ | ⟨hp, w₁, -, rfl⟩⟩ := StorageKind.fromBox_ok h
    · exact ⟨hb, fun b hm => hlive b (by simpa [DynObject.block, ownedBlock, hp] using hm)⟩
    · exact ⟨hb, fun b hm => by simp [DynObject.block, ownedBlock, hp] at hm⟩
  | insert hold h ih =>
    rename_i this o
    cases this with
    | none =>
      obtain ⟨hb, -, outcome, w₂, hd, hset⟩ := DynObject.insert_ok h
      obtain ⟨-, rfl⟩ := Prod.mk.inj (Except.ok.inj hd)
      obtain rfl : _ = (o.settle _ _ _ outcome _).2 := congrArg Prod.snd hset
      refine ⟨hb, ?_⟩
      intro b hm
      rw [settle_blocks]
      exact live_new hm
    | some old =>
      obtain ⟨hbo, hlive⟩ := ih old rfl
      obtain ⟨hb, hf, rfl⟩ := insert_live hbo hlive h
      refine ⟨hb, ?_⟩
      intro b hm
      rw [settle_blocks]
      refine live_afterDrop hm (hf b hm) hlive ?_ _
      exact live_new hm
  | elsewhere _ hkeep ih => exact ⟨ih.1, fun b hm => hkeep b hm (ih.2 b hm)⟩

/-- What a drop adds to the trace. -/
def dropEvents (T : RustType) (o : DynObject k.Carrier) (here : Addr) (d : Outcome) : List Event :=
  match DynObject.dropOutcome T d with
  | .unwinds => [.destructor T (o.place here)]
  | .returns => DynObject.endEvent T (o.place here) :: (o.block T).toList.map .dealloc

theorem trace_afterDrop :
    (o.afterDrop T here d w).trace = w.trace ++ dropEvents T o here d := by
  unfold DynObject.afterDrop dropEvents
  cases DynObject.dropOutcome T d with
  | returns => simp [World.trace_released]
  | unwinds => rfl

omit [FieldOffsets] in
theorem ends_endEvent (T : RustType) (p : Addr) : (DynObject.endEvent T p).ends = true := by
  unfold DynObject.endEvent
  split <;> rfl

omit [FieldOffsets] in
theorem freed_endEvent (T : RustType) (p : Addr) : freed (DynObject.endEvent T p) = none := by
  unfold DynObject.endEvent
  split <;> rfl

/-- The value ends in any case. -/
theorem ends_dropEvents :
    (dropEvents T o here d).filter Event.ends = [DynObject.endEvent T (o.place here)] := by
  unfold dropEvents DynObject.dropOutcome
  split
  · rename_i h
    have hn : T.needsDrop = true := by
      by_contra hn
      simp [hn] at h
    simp [DynObject.endEvent, hn, Event.ends]
  · cases o.block T with
    | none => simp [ends_endEvent]
    | some b => simp [ends_endEvent, show (Event.dealloc b).ends = false from rfl]

/-- Its block is freed exactly if the destructor lets the drop go on. -/
theorem frees_dropEvents (here : Addr) :
    (dropEvents T o here d).filterMap freed = (o.block T).toList ↔ Safe T o d := by
  unfold dropEvents DynObject.dropOutcome Safe
  by_cases hu : T.needsDrop ∧ d = .unwinds
  · simp only [hu, and_self, ↓reduceIte, forall_const]
    cases o.block T <;> simp [List.filterMap_cons, freed]
  · have hsafe : T.needsDrop = true → d = .unwinds → o.block T = none :=
      fun hn hd => absurd ⟨hn, hd⟩ hu
    simp only [hu, ↓reduceIte]
    refine iff_of_true ?_ hsafe
    cases o.block T with
    | none => simp [freed_endEvent]
    | some b => simp [freed_endEvent, show freed (.dealloc b) = some b from rfl]

/-- The drop among events that neither end a value nor free a block. -/
theorem released_iff (here : Addr) {pre post : List Event} (hpre : pre.filter Event.ends = [])
    (hpre' : pre.filterMap freed = []) (hpost : post.filter Event.ends = [])
    (hpost' : post.filterMap freed = []) :
    Released T o here (pre ++ dropEvents T o here d ++ post) ↔ Safe T o d := by
  rw [← frees_dropEvents here]
  constructor
  · rintro ⟨-, hf, -⟩
    simpa [hpre', hpost'] using hf
  · intro hf
    refine ⟨by simp [hpre, hpost, ends_dropEvents], by simp [hpre', hpost', hf], ?_⟩
    intro b hb
    have hm : b ∈ o.block T := by simpa [hpre', hpost', hf] using hb
    exact (ownedBlock_layout hm).1

theorem exists_released_iff (pre post : List Event) (hw : w'.trace = w.trace ++ (pre ++
    dropEvents T o here d ++ post)) (hpre : pre.filter Event.ends = [])
    (hpre' : pre.filterMap freed = []) (hpost : post.filter Event.ends = [])
    (hpost' : post.filterMap freed = []) :
    (∃ es, w'.trace = w.trace ++ es ∧ Released T o here es) ↔ Safe T o d := by
  rw [← released_iff here hpre hpre' hpost hpost', hw]
  constructor
  · rintro ⟨es, he, hr⟩
    rwa [List.append_cancel_left he]
  · exact fun hr => ⟨_, rfl, hr⟩

/-- The bytes of a new object reach its slot, whatever the drop of the old one does. -/
theorem read_settle {v : Value T} {outcome : Outcome} (hb : o.BuiltFor D T)
    (hf : ∀ b ∈ o.block T, b.addr = answer)
    (hsep : Apart answer T.size (DynObject.someAt k.Carrier here) (DynObject.size k.Carrier))
    (p : Addr) : (o.settle T here tmp outcome (old.afterDrop T' p d
      ((w.acquire (o.block T)).put (o.place tmp) v))).2.read T
        (o.place (DynObject.someAt k.Carrier here)) = v := by
  have hapart : ∀ b ∈ ownedBlock T o.storage,
      b.Apart (DynObject.someAt k.Carrier here) (DynObject.size k.Carrier) := by
    intro b hm
    obtain ⟨hl, -, -⟩ := ownedBlock_layout hm
    unfold Block.Apart
    rw [hf b hm, hl]
    exact hsep
  have hcells : ∀ q n, (old.afterDrop T' p d ((w.acquire (o.block T)).put (o.place tmp) v)).mem.load
      q n = ((w.acquire (o.block T)).put (o.place tmp) v).mem.load q n := by
    intro q n
    unfold DynObject.afterDrop
    split <;> simp
  unfold World.read
  rw [mem_settle]
  apply (load_ptr_moveBytes hb.constructed _ (Nat.le_refl _) hapart).trans
  exact (hcells _ _).trans (World.read_put v)

theorem handled_drop (hb : o.BuiltFor D T) (hlive : ∀ b ∈ o.block T, b ∈ w.mem.blocks)
    {slot : Option (DynObject k.Carrier)} (h : (Op.drop here).run D d o w = .ok (slot, w')) :
    Handled D T o (.drop here) slot w w' ↔ Safe T o d := by
  obtain ⟨⟨outcome, w₁⟩, hd, h⟩ := bind_ok.mp h
  obtain ⟨rfl, rfl⟩ := Prod.mk.inj (pure_ok.mp h)
  rw [DynObject.drop_live hb hlive] at hd
  obtain ⟨-, rfl⟩ := Prod.mk.inj (Except.ok.inj hd)
  have hw : (o.afterDrop T here d w).trace = w.trace ++ ([] ++ dropEvents T o here d ++ []) := by
    simp [trace_afterDrop]
  exact (and_iff_left rfl).trans (exists_released_iff [] [] hw rfl rfl rfl rfl)

theorem handled_insert (hb : o.BuiltFor D T) (hlive : ∀ b ∈ o.block T, b ∈ w.mem.blocks)
    {pinned : Bool} {v : Value T'} {slot : Option (DynObject k.Carrier)}
    (h : (Op.insert pinned T' v here tmp answer).run D d o w = .ok (slot, w')) :
    Handled D T o (.insert pinned T' v here tmp answer) slot w w' ↔ Safe T o d := by
  simp only [Op.run, DynObject.insertPinned, ite_self] at h
  split at h
  swap
  · cases h
  rename_i hsep
  obtain ⟨⟨p, new, w₁⟩, hi, h⟩ := bind_ok.mp h
  obtain ⟨rfl, rfl⟩ := Prod.mk.inj (pure_ok.mp h)
  obtain ⟨hbn, hf, rfl⟩ := insert_live hb hlive hi
  obtain ⟨post, htrace, hpost, hpost'⟩ := trace_settle T' new here tmp
    (DynObject.dropOutcome T d) (o.afterDrop T (DynObject.someAt k.Carrier here) d
      ((w.acquire (new.block T')).put (new.place tmp) v))
  refine (and_iff_left ⟨new, rfl, hbn, fun b hm => ?_, ?_⟩).trans (exists_released_iff
    ((new.block T').toList.map .alloc ++ [.stored T' (new.place tmp)]) post ?_ ?_ ?_ hpost hpost')
  · rw [settle_blocks]
    refine live_afterDrop hm (hf b hm) hlive ?_ _
    exact live_new hm
  · exact read_settle hbn (fun b hm => (hf b hm).1) hsep _
  · rw [htrace, trace_afterDrop, World.trace_put, World.trace_acquire]
    simp [Op.addr]
  · cases new.block T' <;> rfl
  · cases new.block T' <;> rfl

/-- A drop, and an insertion that replaces an object, end the old value exactly once and
leave the new object in the slot in any case. They release the storage exactly if the
destructor does not unwind out of the drop of a boxed value. -/
theorem handled_iff_safe {op : Op} {slot : Option (DynObject k.Carrier)} (hs : Stored D T o w)
    (h : op.run D d o w = .ok (slot, w')) : Handled D T o op slot w w' ↔ Safe T o d := by
  obtain ⟨hb, hlive⟩ := stored_live hs
  cases op with
  | drop here => exact handled_drop hb hlive h
  | insert pinned U v here tmp answer => exact handled_insert hb hlive h

omit [FieldOffsets] in
/-- A value that takes the place of one whose destructor returns. -/
theorem handled_iff_safe_returns :
    let D : DynTrait := .any
    let op : Op := .insert true (.bytes 1) (fun _ => some 1) 64 256 8192
    ∃ (o : DynObject StorageKind.box.Carrier) (w : World)
      (slot : Option (DynObject StorageKind.box.Carrier)) (w' : World),
      @Op.run .tagFirst .box D .returns o w op = .ok (slot, w') ∧
        @Handled .tagFirst .box D (.droppable 1 4) o op slot w w' := by
  intro D op
  have h : ∃ (o : DynObject StorageKind.box.Carrier) (w : World),
      @DynObject.new .tagFirst _ (.droppable 1 4) _ D (fun _ => some 0) 64 4096 .empty = .ok (o, w) ∧
        ∃ slot w', @Op.run .tagFirst .box D .returns o w op = .ok (slot, w') :=
    ⟨_, _, rfl, _, _, rfl⟩
  obtain ⟨o, w, hn, slot, w', hr⟩ := h
  have hs := @Stored.new .tagFirst .box _ _ _ _ _ _ _ _ hn
  exact ⟨o, w, slot, w', hr, (@handled_iff_safe .tagFirst _ _ _ _ _ _ _ _ _ hs hr).mpr
    fun _ hd => nomatch hd⟩

omit [FieldOffsets] in
/-- A destructor that unwinds leaks the box. -/
theorem box_leaks :
    ¬ ∀ (d : Outcome) (o : DynObject StorageKind.box.Carrier) (op : Op)
      (slot : Option (DynObject StorageKind.box.Carrier)) (w w' : World),
      @Stored .tagFirst .box .any (.droppable 1 4) o w →
      @Op.run .tagFirst .box .any d o w op = .ok (slot, w') →
      @Handled .tagFirst .box .any (.droppable 1 4) o op slot w w' := by
  intro hall
  have h : ∃ (o : DynObject StorageKind.box.Carrier) (w : World), @DynObject.new .tagFirst _
      (.droppable 1 4) _ .any (fun _ => some 0) 64 4096 .empty = .ok (o, w) ∧
        (@DynObject.block StorageKind.box.Carrier _ _ (.droppable 1 4) o).isSome ∧
        ∃ slot w', @Op.run .tagFirst .box .any .unwinds o w (.drop 64) = .ok (slot, w') :=
    ⟨_, _, rfl, rfl, _, _, rfl⟩
  obtain ⟨o, w, hn, hb, slot, w', hr⟩ := h
  have hs := @Stored.new .tagFirst .box _ _ _ _ _ _ _ _ hn
  obtain ⟨hbuilt, hlive⟩ := @stored_live .tagFirst _ _ _ _ _ hs
  have hsafe := (@handled_drop .tagFirst _ _ _ _ _ _ _ _ hbuilt hlive _ hr).mp
    (hall _ _ _ _ _ _ hs hr)
  simp [hsafe rfl rfl] at hb

end DynUtils.Unwinding
