import DynUtils.LedgerSteps

/-! No leak, no double free, no double drop: the ledger is exact in every reachable state. -/
namespace DynUtils.Ledger

open FlatMemory Machine LawfulStorage

variable [FieldOffsets] {s : Ledger}

/-- The value `i` is stored in a live object. -/
def Live (s : Ledger) (i : ℕ) : Prop := ∃ x h, s.vars x = some h ∧ h.id = i

/-- The live object of the value `i` owns the block `b`: its storage is a box, of a
value that is not zero-sized. -/
def Owns (s : Ledger) (i : ℕ) (b : Block) : Prop :=
  ∃ x h, s.vars x = some h ∧ h.id = i ∧ boxed h.obj.storage = some b.addr ∧
    b.layout = h.ty.layout ∧ h.ty.size ≠ 0

structure Exact (s : Ledger) : Prop where
  nodup : s.mem.blocks.Nodup
  blocks : ∀ b, b ∈ s.mem.blocks ↔ ∃ i, s.Owns i b
  sole : ∀ i j b, s.Owns i b → s.Owns j b → i = j
  /-- All that is done to a value is right for its type. -/
  proper : ∀ i, ∃ T, ∀ e ∈ s.history i, e.Proper T
  /-- A value has ended exactly once if it is not live. -/
  ended : ∀ i < s.next, s.Live i ∧ (s.history i).countP Event.ends = 0 ∨
    ¬ s.Live i ∧ (s.history i).countP Event.ends = 1
  /-- A block is deallocated exactly once if it is not owned any more. -/
  freed : ∀ i b, .alloc b ∈ s.history i → s.Owns i b ∧ (s.history i).count (.dealloc b) = 0 ∨
    ¬ s.Owns i b ∧ (s.history i).count (.dealloc b) = 1
  /-- That comes after its allocation, and after the value in it has ended or left. -/
  order : ∀ i pre b post, s.history i = pre ++ .dealloc b :: post →
    .alloc b ∈ pre ∧ ∃ e ∈ pre, e.empties = true

theorem Owns.live {i : ℕ} {b : Block} (h : s.Owns i b) : s.Live i := by
  obtain ⟨x, held, hx, hid, -⟩ := h
  exact ⟨x, held, hx, hid⟩

theorem mem_block_iff {held : Held} {b : Block} : b ∈ held.obj.block held.ty ↔
    boxed held.obj.storage = some b.addr ∧ b.layout = held.ty.layout ∧ held.ty.size ≠ 0 := by
  constructor
  · intro hb
    obtain ⟨hl, hn, hboxed⟩ := ownedBlock_layout hb
    exact ⟨hboxed, hl, hn⟩
  · rintro ⟨hboxed, hl, hn⟩
    rw [DynObject.block, ownedBlock_of_boxed hboxed hn, ← hl]
    rfl

theorem owns_iff {i : ℕ} {b : Block} :
    s.Owns i b ↔ ∃ x h, s.vars x = some h ∧ h.id = i ∧ b ∈ h.obj.block h.ty := by
  simp only [Owns, mem_block_iff]

theorem mem_blockOf {x : ℕ} {b : Block} :
    b ∈ blockOf (s.vars x) ↔ ∃ h, s.vars x = some h ∧ b ∈ h.obj.block h.ty := by
  simp [blockOf, Option.bind_eq_some_iff]

/-- A history is that of a live value, of one that is gone, or empty. -/
theorem life_cases (hs : Inv s) (i : ℕ) :
    (∃ x h, s.vars x = some h ∧ h.id = i ∧
      Life.Sound h.ty (s.history i) (.alive (h.obj.block h.ty))) ∨
    (¬ s.Live i ∧ ∃ T, Life.Sound T (s.history i) (.past none)) ∨
    (¬ s.Live i ∧ s.next ≤ i ∧ s.history i = []) := by
  by_cases hl : s.Live i
  · obtain ⟨x, h, hx, rfl⟩ := hl
    exact Or.inl ⟨x, h, hx, rfl, Life.sound_run Life.sound_unborn (hs.alive x h hx)⟩
  · apply Or.inr
    by_cases hi : i < s.next
    · obtain ⟨T, hT⟩ := hs.past i hi fun x h hx hid => hl ⟨x, h, hx, hid⟩
      exact Or.inl ⟨hl, T, Life.sound_run Life.sound_unborn hT⟩
    · exact Or.inr ⟨hl, Nat.le_of_not_lt hi, hs.fresh i (Nat.le_of_not_lt hi)⟩

theorem freed_of_inv (hs : Inv s) (i : ℕ) (b : Block) (hb : .alloc b ∈ s.history i) :
    s.Owns i b ∧ (s.history i).count (.dealloc b) = 0 ∨
      ¬ s.Owns i b ∧ (s.history i).count (.dealloc b) = 1 := by
  rcases life_cases hs i with ⟨x, h, hx, hid, hsound⟩ | ⟨hl, T, hsound⟩ | ⟨-, -, hnil⟩
  · by_cases hm : b ∈ h.obj.block h.ty
    · exact Or.inl ⟨owns_iff.mpr ⟨x, h, hx, hid, hm⟩, hsound.kept b hm⟩
    · refine Or.inr ⟨?_, hsound.freed b hb hm⟩
      intro ho
      obtain ⟨y, h', hy, hid', hm'⟩ := owns_iff.mp ho
      obtain rfl := hs.distinct x y h h' hx hy (hid.trans hid'.symm)
      obtain rfl := Option.some.inj (hx.symm.trans hy)
      exact hm hm'
  · exact Or.inr ⟨fun ho => hl ho.live, hsound.freed b hb (by simp [Life.block])⟩
  · simp [hnil] at hb

theorem exact_of_inv (hs : Inv s) : Exact s where
  nodup := hs.wf.nodup
  blocks b := by
    simp only [hs.blocks b, mem_blockOf, owns_iff]
    constructor
    · rintro ⟨x, h, hx, hb⟩
      exact ⟨h.id, x, h, hx, rfl, hb⟩
    · rintro ⟨_, x, h, hx, -, hb⟩
      exact ⟨x, h, hx, hb⟩
  sole i j b hi hj := by
    obtain ⟨x, h, hx, rfl, hb⟩ := owns_iff.mp hi
    obtain ⟨y, h', hy, rfl, hb'⟩ := owns_iff.mp hj
    obtain rfl := hs.sole x y b (mem_blockOf.mpr ⟨h, hx, hb⟩) (mem_blockOf.mpr ⟨h', hy, hb'⟩)
    obtain rfl := Option.some.inj (hx.symm.trans hy)
    rfl
  proper i := by
    rcases life_cases hs i with ⟨_, h, -, -, hsound⟩ | ⟨-, T, hsound⟩ | ⟨-, -, hnil⟩
    · exact ⟨h.ty, hsound.proper⟩
    · exact ⟨T, hsound.proper⟩
    · exact ⟨⟨0, ⟨0, 1⟩, false, ⟨0, rfl⟩, by decide⟩, by simp [hnil]⟩
  ended i hi := by
    rcases life_cases hs i with ⟨x, h, hx, hid, hsound⟩ | ⟨hl, T, hsound⟩ | ⟨-, hge, -⟩
    · exact Or.inl ⟨⟨x, h, hx, hid⟩, hsound.ends⟩
    · exact Or.inr ⟨hl, hsound.ends⟩
    · omega
  freed := freed_of_inv hs
  order i pre b post heq := by
    rcases life_cases hs i with ⟨_, _, -, -, hsound⟩ | ⟨-, T, hsound⟩ | ⟨-, -, hnil⟩
    · exact hsound.order pre b post heq
    · exact hsound.order pre b post heq
    · simp [hnil] at heq

/-- After any operations, on any number of objects in any of the storages, the
heap is what the live objects own, every value has ended at most once and every
block was freed once, and no further operation is undefined behavior. -/
theorem exact_of_run {ops : List Op} {outs : List Outcome}
    (h : run step empty ops = .ok (outs, s)) :
    Exact s ∧ ∀ op e, step s op = .error e → ¬ e.Undefined :=
  ⟨exact_of_inv (inv_run h), fun _ _ he => step_error (inv_run h) he⟩

/-- A value is moved out of its box into a `RawOrBox<8>`; in its slot a larger one
replaces it, and is dropped. -/
def insertDrop : List Op :=
  [.fromBox 0 (.rawOrBox true 8 8) .any (.droppable 1 2) (fun _ => some 1) 64 4096,
    .insert true 0 .box .any (.droppable 2 4) (fun _ => some 2) 64 128 8192, .drop 0]

omit [FieldOffsets] in
theorem exact_of_run_insertDrop :
    ∃ outs s, run (@step .tagFirst) empty insertDrop = .ok (outs, s) ∧
      @Exact .tagFirst s ∧ ∀ op e, @step .tagFirst s op = .error e → ¬ e.Undefined := by
  have h : ∃ outs s, run (@step .tagFirst) empty insertDrop = .ok (outs, s) := ⟨_, _, rfl⟩
  obtain ⟨outs, s, h⟩ := h
  exact ⟨outs, s, h, @exact_of_run .tagFirst _ _ _ h⟩

end DynUtils.Ledger
