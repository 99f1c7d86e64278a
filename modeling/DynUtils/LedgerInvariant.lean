import DynUtils.Ledger

/-! The invariant of the ledger, and the one kind of change that all operations are. -/
namespace DynUtils.Ledger

open FlatMemory Machine LawfulStorage

variable [FieldOffsets] {s s' : Ledger} {x : ℕ} {h : Held} {new : Option Held} {w : World}
  {about : Event → ℕ} {T : RustType}

omit [FieldOffsets] in
theorem history_commit (i : ℕ) (c : Option Held) :
    (s.commit x c about w).history i =
      s.history i ++ w.trace.filter (fun e => about e = i) := by
  simp only [history, commit, List.filter_append, List.map_append, List.append_cancel_left_eq,
    List.filter_map, List.map_map]
  exact List.map_id _

omit [FieldOffsets] in
theorem history_enroll (i : ℕ) :
    (s.enroll x h about w).history i = s.history i ++ w.trace.filter (fun e => about e = i) :=
  history_commit (x := x) i (some h)

omit [FieldOffsets] in
@[simp] theorem history_commit_self (i : ℕ) (c : Option Held) :
    (s.commit x c (fun _ => i) w).history i = s.history i ++ w.trace := by
  rw [history_commit]
  simp

omit [FieldOffsets] in
theorem history_commit_ne {i j : ℕ} (c : Option Held) (hij : j ≠ i) :
    (s.commit x c (fun _ => j) w).history i = s.history i := by
  rw [history_commit]
  simp [hij]

/-- The heap block of what a variable holds. -/
def blockOf (c : Option Held) : Option Block := c.bind fun h => h.obj.block h.ty

structure Inv (s : Ledger) : Prop where
  wf : s.mem.Wf
  built : ∀ x h, s.vars x = some h → h.obj.BuiltFor h.dyn h.ty ∧ h.id < s.next
  distinct : ∀ x y h h', s.vars x = some h → s.vars y = some h' → h.id = h'.id → x = y
  blocks : ∀ b, b ∈ s.mem.blocks ↔ ∃ x, b ∈ blockOf (s.vars x)
  sole : ∀ x y b, b ∈ blockOf (s.vars x) → b ∈ blockOf (s.vars y) → x = y
  alive : ∀ x h, s.vars x = some h →
    Life.Run h.ty .unborn (s.history h.id) (.alive (h.obj.block h.ty))
  past : ∀ i < s.next, (∀ x h, s.vars x = some h → h.id ≠ i) →
    ∃ T, Life.Run T .unborn (s.history i) (.past none)
  fresh : ∀ i, s.next ≤ i → s.history i = []

/-- The operation replaced the content of `x` by `new`, and settled all that this
changes in the heap and in the histories. -/
structure Exchange (s s' : Ledger) (x : ℕ) (new : Option Held) : Prop where
  vars_eq : s'.vars = Function.update s.vars x new
  wf : s'.mem.Wf
  mem_iff : ∀ b, b ∈ s'.mem.blocks ↔
    b ∈ blockOf new ∨ b ∈ s.mem.blocks ∧ b ∉ blockOf (s.vars x)
  unowned : ∀ b ∈ blockOf new, b ∈ s.mem.blocks → b ∈ blockOf (s.vars x)
  next_le : s.next ≤ s'.next
  new_id : ∀ h ∈ new, h.id < s'.next ∧ (s.next ≤ h.id ∨ ∃ h₀ ∈ s.vars x, h₀.id = h.id)
  numbered : ∀ i, s.next ≤ i → i < s'.next → ∃ h ∈ new, h.id = i
  quiet : ∀ i, (∀ h ∈ s.vars x, h.id ≠ i) → (∀ h ∈ new, h.id ≠ i) → s'.history i = s.history i
  holds : ∀ h ∈ new, h.obj.BuiltFor h.dyn h.ty ∧
    Life.Run h.ty .unborn (s'.history h.id) (.alive (h.obj.block h.ty))
  gone : ∀ h ∈ s.vars x, (∀ h' ∈ new, h'.id ≠ h.id) →
    ∃ T, Life.Run T .unborn (s'.history h.id) (.past none)

theorem Exchange.vars_self (he : Exchange s s' x new) : s'.vars x = new := by
  simp [he.vars_eq]

theorem Exchange.vars_ne (he : Exchange s s' x new) {y : ℕ} (hy : y ≠ x) :
    s'.vars y = s.vars y := by
  simp [he.vars_eq, hy]

/-- The identity of another variable's value is neither the old nor the new one. -/
theorem Exchange.id_ne (hs : Inv s) (he : Exchange s s' x new) {y : ℕ} (hy : y ≠ x)
    {h : Held} (hh : s.vars y = some h) :
    (∀ h₀ ∈ s.vars x, h₀.id ≠ h.id) ∧ ∀ h' ∈ new, h'.id ≠ h.id := by
  have hold : ∀ h₀ ∈ s.vars x, h₀.id ≠ h.id := fun h₀ h₀m hid =>
    hy (hs.distinct x y h₀ h h₀m hh hid).symm
  refine ⟨hold, ?_⟩
  intro h' hm hid
  rcases (he.new_id h' hm).2 with hge | ⟨h₀, hm₀, hid₀⟩
  · have := (hs.built y h hh).2
    omega
  · exact hold h₀ hm₀ (hid₀.trans hid)

theorem inv_exchange_sole (hs : Inv s) (he : Exchange s s' x new) (y z : ℕ) (b : Block)
    (hy : b ∈ blockOf (s'.vars y)) (hz : b ∈ blockOf (s'.vars z)) : y = z := by
  -- a block of the new object that another variable owned would be the old object's
  have hother : ∀ u, u ≠ x → b ∈ blockOf new → b ∉ blockOf (s'.vars u) := by
    intro u hu hb hbu
    rw [he.vars_ne hu] at hbu
    have hold := he.unowned b hb ((hs.blocks b).mpr ⟨u, hbu⟩)
    exact hu (hs.sole u x b hbu hold)
  by_cases hyx : y = x <;> by_cases hzx : z = x
  · exact hyx.trans hzx.symm
  · subst hyx
    exact (hother z hzx (he.vars_self ▸ hy) hz).elim
  · subst hzx
    exact (hother y hyx (he.vars_self ▸ hz) hy).elim
  · rw [he.vars_ne hyx] at hy
    rw [he.vars_ne hzx] at hz
    exact hs.sole y z b hy hz

theorem inv_exchange_blocks (hs : Inv s) (he : Exchange s s' x new) (b : Block) :
    b ∈ s'.mem.blocks ↔ ∃ y, b ∈ blockOf (s'.vars y) := by
  rw [he.mem_iff]
  constructor
  · rintro (hb | ⟨hb, hold⟩)
    · exact ⟨x, he.vars_self ▸ hb⟩
    · obtain ⟨y, hy⟩ := (hs.blocks b).mp hb
      have hne : y ≠ x := by
        rintro rfl
        exact hold hy
      exact ⟨y, he.vars_ne hne ▸ hy⟩
  · rintro ⟨y, hy⟩
    by_cases hyx : y = x
    · subst hyx
      exact Or.inl (he.vars_self ▸ hy)
    · rw [he.vars_ne hyx] at hy
      exact Or.inr ⟨(hs.blocks b).mpr ⟨y, hy⟩, fun hold => hyx (hs.sole y x b hy hold)⟩

theorem inv_exchange (hs : Inv s) (he : Exchange s s' x new) : Inv s' := by
  constructor
  · exact he.wf
  · intro y h hy
    by_cases hyx : y = x
    · subst hyx
      rw [he.vars_self] at hy
      exact ⟨(he.holds h hy).1, (he.new_id h hy).1⟩
    · rw [he.vars_ne hyx] at hy
      obtain ⟨hb, hlt⟩ := hs.built y h hy
      exact ⟨hb, Nat.lt_of_lt_of_le hlt he.next_le⟩
  · intro y z h h' hy hz hid
    by_cases hyx : y = x <;> by_cases hzx : z = x
    · exact hyx.trans hzx.symm
    · subst hyx
      rw [he.vars_self] at hy
      rw [he.vars_ne hzx] at hz
      exact ((he.id_ne hs hzx hz).2 h hy hid).elim
    · subst hzx
      rw [he.vars_ne hyx] at hy
      rw [he.vars_self] at hz
      exact ((he.id_ne hs hyx hy).2 h' hz hid.symm).elim
    · rw [he.vars_ne hyx] at hy
      rw [he.vars_ne hzx] at hz
      exact hs.distinct y z h h' hy hz hid
  · exact inv_exchange_blocks hs he
  · exact inv_exchange_sole hs he
  · intro y h hy
    by_cases hyx : y = x
    · subst hyx
      rw [he.vars_self] at hy
      exact (he.holds h hy).2
    · rw [he.vars_ne hyx] at hy
      obtain ⟨hold, hnew⟩ := he.id_ne hs hyx hy
      rw [he.quiet h.id hold hnew]
      exact hs.alive y h hy
  · intro i hi hnone
    have hnew : ∀ h ∈ new, h.id ≠ i := fun h hm => hnone x h (he.vars_self ▸ hm)
    by_cases hold : ∃ h ∈ s.vars x, h.id = i
    · obtain ⟨h, hm, rfl⟩ := hold
      exact he.gone h hm hnew
    · have hold' : ∀ h ∈ s.vars x, h.id ≠ i := fun h hm hid => hold ⟨h, hm, hid⟩
      rw [he.quiet i hold' hnew]
      refine hs.past i ?_ ?_
      · by_contra hge
        obtain ⟨h, hm, hid⟩ := he.numbered i (Nat.le_of_not_lt hge) hi
        exact hnew h hm hid
      · intro y h hy
        by_cases hyx : y = x
        · exact hold' h (hyx ▸ hy)
        · exact hnone y h (he.vars_ne hyx ▸ hy)
  · intro i hi
    have hnew : ∀ h ∈ new, h.id ≠ i := by
      intro h hm hid
      have := (he.new_id h hm).1
      omega
    have hold : ∀ h ∈ s.vars x, h.id ≠ i := by
      intro h hm hid
      have := (hs.built x h hm).2
      have := he.next_le
      omega
    rw [he.quiet i hold hnew]
    exact hs.fresh i (Nat.le_trans he.next_le hi)

/-! The lives that the operations add to. -/

section
variable {S : Type} [Storage S] [LawfulStorage S] {o : DynObject S}

/-- The value of an object is at the address of its block, if it has one. -/
theorem place_of_block {b : Block} (hb : b ∈ o.block T) (here : Addr) :
    b.layout = T.layout ∧ o.place here = b.addr := by
  obtain ⟨hl, -, hboxed⟩ := ownedBlock_layout hb
  exact ⟨hl, by simp [DynObject.place, ptr_eq, hboxed]⟩

theorem run_new (o : DynObject S) (T : RustType) (here : Addr) :
    Life.Run T .unborn ((o.block T).toList.map .alloc ++ [.stored T (o.place here)])
      (.alive (o.block T)) := by
  cases hb : o.block T with
  | none => exact .step .store .refl
  | some b =>
    obtain ⟨hl, hp⟩ := place_of_block (T := T) hb here
    rw [hp]
    exact .step (.alloc hl) (.step .storeBoxed .refl)

end

omit [FieldOffsets] in
theorem run_end (T : RustType) (b : Option Block) (p : Addr) :
    Life.Run T (.alive b) [DynObject.endEvent T p] (.past b) := by
  unfold DynObject.endEvent
  cases hn : T.needsDrop with
  | true => exact .step (.destroy hn) .refl
  | false => exact .step (.lapse hn) .refl

omit [FieldOffsets] in
theorem run_release (T : RustType) (b : Option Block) :
    Life.Run T (.past b) (b.toList.map .dealloc) (.past none) := by
  cases b with
  | none => exact .refl
  | some b => exact .step .free .refl

omit [FieldOffsets] in
/-- The way from a box into a storage. -/
theorem run_unbox (T : RustType) (b : Option Block) (p q : Addr) :
    Life.Run T (.alive b) (.unboxed T p :: (b.toList.map .dealloc ++ [.stored T q]))
      (.alive none) := by
  cases b with
  | none => exact .step .unbox (.step .settle .refl)
  | some b => exact .step .unbox (.step .freeTransit (.step .settle .refl))

omit [FieldOffsets] in
theorem mem_released {c : Block} {own : Option Block} (hw : w.mem.Wf) :
    c ∈ (w.released own).mem.blocks ↔ c ∈ w.mem.blocks ∧ c ∉ own := by
  cases own with
  | none => simp [World.released]
  | some b =>
    have := Memory.mem_dealloc hw (b := b) (c := c)
    simp only [World.released, this, Option.mem_some_iff]
    tauto

/-! One exchange for each kind of operation. -/

/-- The object stays: it is moved or its value is used. -/
theorem exchange_keep (hs : Inv s) (hx : s.vars x = some h) (addr : Addr)
    (hb : w.mem.blocks = s.mem.blocks)
    (hr : Life.Run h.ty (.alive (h.obj.block h.ty)) w.trace (.alive (h.obj.block h.ty))) :
    Exchange s (s.commit x (some { h with addr := addr }) (fun _ => h.id) w) x
      (some { h with addr := addr }) := by
  obtain ⟨hbuilt, hlt⟩ := hs.built x h hx
  have hlive : ∀ b ∈ h.obj.block h.ty, b ∈ s.mem.blocks := fun b hm =>
    (hs.blocks b).mpr ⟨x, by simpa [blockOf, hx] using hm⟩
  constructor
  · rfl
  · exact Memory.wf_of_blocks_eq hs.wf hb
  · intro b
    simp only [commit, hb, blockOf, hx, Option.bind_some]
    have := hlive b
    tauto
  · intro b hm _
    simpa [blockOf, hx] using hm
  · exact Nat.le_refl _
  · intro h' hm
    obtain rfl := Option.mem_some_iff.mp hm
    exact ⟨hlt, Or.inr ⟨h, hx, rfl⟩⟩
  · intro i hge hlt'
    exact absurd hlt' (Nat.not_lt.mpr hge)
  · intro i hold _
    exact history_commit_ne _ (hold h hx)
  · intro h' hm
    obtain rfl := Option.mem_some_iff.mp hm
    refine ⟨hbuilt, ?_⟩
    simpa using (hs.alive x h hx).append hr
  · intro h' hm hne
    obtain rfl : h = h' := by simpa [hx] using hm
    exact absurd rfl (hne { h with addr := addr } rfl)

/-- The value ended and its block, if any, was released. -/
theorem exchange_retire (hs : Inv s) (hx : s.vars x = some h) (hb : w.mem.blocks = s.mem.blocks)
    (hr : Life.Run h.ty (.alive (h.obj.block h.ty)) w.trace (.past (h.obj.block h.ty))) :
    Exchange s (s.commit x none (fun _ => h.id) (w.released (h.obj.block h.ty))) x none := by
  have hwf : w.mem.Wf := Memory.wf_of_blocks_eq hs.wf hb
  constructor
  · rfl
  · exact World.wf_released hwf
  · intro b
    simp [commit, mem_released hwf, hb, blockOf, hx]
  · intro b hm
    cases hm
  · exact Nat.le_refl _
  · intro h' hm
    cases hm
  · intro i hge hlt'
    exact absurd hlt' (Nat.not_lt.mpr hge)
  · intro i hold _
    exact history_commit_ne _ (hold h hx)
  · intro h' hm
    cases hm
  · intro h' hm _
    obtain rfl : h = h' := by simpa [hx] using hm
    refine ⟨h.ty, ?_⟩
    simpa [World.trace_released] using
      (hs.alive x h hx).append (hr.append (run_release h.ty _))

/-- An object was constructed in `x`, and took the place of what was there. -/
theorem exchange_enroll (hs : Inv s) (hid : h.id = s.next) (hbuilt : h.obj.BuiltFor h.dyn h.ty)
    (hwf : w.mem.Wf)
    (hmem : ∀ b, b ∈ w.mem.blocks ↔
      b ∈ h.obj.block h.ty ∨ b ∈ s.mem.blocks ∧ b ∉ blockOf (s.vars x))
    (hfresh : ∀ b ∈ h.obj.block h.ty, b ∉ s.mem.blocks)
    (habout : ∀ e, about e = s.next ∨ ∃ h₀ ∈ s.vars x, about e = h₀.id)
    (hnew : Life.Run h.ty .unborn (w.trace.filter (about · = s.next))
      (.alive (h.obj.block h.ty)))
    (hold : ∀ h₀ ∈ s.vars x, Life.Run h₀.ty (.alive (h₀.obj.block h₀.ty))
      (w.trace.filter (about · = h₀.id)) (.past none)) :
    Exchange s (s.enroll x h about w) x (some h) := by
  constructor
  · rfl
  · exact hwf
  · exact hmem
  · intro b hm hin
    exact absurd hin (hfresh b hm)
  · exact Nat.le_succ _
  · intro h' hm
    obtain rfl := Option.mem_some_iff.mp hm
    exact ⟨Nat.lt_succ_of_le (Nat.le_of_eq hid), Or.inl (Nat.le_of_eq hid.symm)⟩
  · intro i hge hlt
    refine ⟨h, rfl, ?_⟩
    simp only [enroll] at hlt
    omega
  · intro i hnold hnnew
    have hnone : w.trace.filter (about · = i) = [] := by
      apply List.filter_eq_nil_iff.mpr
      intro e _
      rcases habout e with he | ⟨h₀, hm, he⟩
      · simpa [he, hid] using hnnew h rfl
      · simpa [he] using hnold h₀ hm
    rw [history_enroll, hnone, List.append_nil]
  · intro h' hm
    obtain rfl := Option.mem_some_iff.mp hm
    refine ⟨hbuilt, ?_⟩
    rw [history_enroll, hid, hs.fresh s.next (Nat.le_refl _)]
    exact hnew
  · intro h₀ hm _
    refine ⟨h₀.ty, ?_⟩
    rw [history_enroll]
    exact (hs.alive x h₀ hm).append (hold h₀ hm)

/-- The case of an empty variable. -/
theorem exchange_enroll_empty (hs : Inv s) (hx : s.vars x = none) (hid : h.id = s.next)
    (hbuilt : h.obj.BuiltFor h.dyn h.ty) (hwf : w.mem.Wf)
    (hmem : ∀ b, b ∈ w.mem.blocks ↔ b ∈ h.obj.block h.ty ∨ b ∈ s.mem.blocks)
    (hfresh : ∀ b ∈ h.obj.block h.ty, b ∉ s.mem.blocks)
    (hnew : Life.Run h.ty .unborn w.trace (.alive (h.obj.block h.ty))) :
    Exchange s (s.enroll x h (fun _ => s.next) w) x (some h) := by
  refine exchange_enroll hs hid hbuilt hwf ?_ hfresh (fun _ => Or.inl rfl) ?_ ?_
  · simpa [hx, blockOf] using hmem
  · rw [List.filter_eq_self.mpr (by simp)]
    exact hnew
  · simp [hx]

end DynUtils.Ledger
