import DynUtils.Transparency
import DynUtils.Unwinding

/-! A `DynObject<dyn Any>` is a cell of the type that it was made with. -/
namespace DynUtils.TypedCell

open FlatMemory Machine LawfulStorage

/-- One object, until a downcast takes the value out of it. -/
structure State (k : StorageKind) where
  obj : Option (DynObject k.Carrier)
  here : Addr
  w : World

inductive Op
  | is (U : RustType)
  | downcastRef (U : RustType)
  /-- The reference is used to write `v`. -/
  | downcastMut (U : RustType) (v : Value U)
  | move (dst : Addr)
  /-- `dst` is where the parameter `self` lies. -/
  | downcast (U : RustType) (dst : Addr)

inductive Out
  | is (res : Bool)
  | read (res : Option ((T : RustType) × Value T))
  | wrote (res : Bool)
  | moved
  | downcast (res : Option ((T : RustType) × Value T))

variable [FieldOffsets] {k : StorageKind}

def moveTo (s : State k) (dst : Addr) : State k :=
  { s with here := dst, w := s.w.moveBytes s.here dst (DynObject.size k.Carrier) }

def step (s : State k) (op : Op) : Except Fault (Out × State k) :=
  match s.obj with
  | none => .error .notAvailable
  | some o =>
    match op with
    | .is U => .ok (.is (o.is U), s)
    | .downcastRef U => do
      match ← o.downcastRef s.here U with
      | none => return (.read none, s)
      | some p => return (.read (some ⟨U, s.w.read U p⟩), { s with w := s.w.record (.accessed U p) })
    | .downcastMut U v => do
      match ← o.downcastMut s.here U with
      | none => return (.wrote false, s)
      | some p => return (.wrote true, { s with w := (s.w.record (.accessed U p)).write p v })
    | .move dst => .ok (.moved, moveTo s dst)
    | .downcast U dst => do
      let s := moveTo s dst
      match ← o.downcast dst U s.w with
      | (.inl v, w) => return (.downcast (some ⟨U, v⟩), ⟨none, dst, w⟩)
      | (.inr o, w) => return (.downcast none, ⟨some o, dst, w⟩)

/-- What the language and its allocator promise: nothing is done with an object that
was consumed, and objects move to aligned places that are nobody else's. -/
def Allowed (T : RustType) (s : State k) (op : Op) : Prop :=
  ∃ o, s.obj = some o ∧ match op with
    | .move dst | .downcast _ dst => (Storage.layout k.Carrier).align ∣ dst ∧
        ∀ b ∈ o.block T, b.Apart dst (DynObject.size k.Carrier)
    | _ => True

/-- The object was just constructed to hold `v`. -/
def Started {T : RustType} (v : Value T) (s : State k) : Prop :=
  ∃ o, s.obj = some o ∧ Transparency.Started .any v ⟨o, s.here, false, s.w⟩

/-- A cell of type `T`, with the value that was last written to it, and the answers
that it gives. -/
def cell (T : RustType) : Option (Value T) → Op → Out × Option (Value T)
  | v, .is U => (.is (U = T), v)
  | v, .downcastRef U => (.read (if U = T then v.map (⟨T, ·⟩) else none), v)
  | v, .downcastMut U v' =>
    if h : U = T then (.wrote true, v.map fun _ => h ▸ v') else (.wrote false, v)
  | v, .move _ => (.moved, v)
  | v, .downcast U _ =>
    if U = T then (.downcast (v.map (⟨T, ·⟩)), none) else (.downcast none, v)

/-- The object holds what the cell holds. -/
def Holds (T : RustType) (s : State k) (v : Option (Value T)) : Prop :=
  match s.obj, v with
  | some o, some v => o.BuiltFor .any T ∧ (∀ b ∈ o.block T, b ∈ s.w.mem.blocks) ∧
      s.w.read T (o.place s.here) = v
  | none, none => True
  | _, _ => False

/-- How often a value that is there, or not any more, has left. -/
def taken {T : RustType} (v : Option (Value T)) : ℕ := if v.isNone then 1 else 0

/-- The trace goes on without a destructor, and the value leaves at most once. -/
def Extends {T : RustType} (s t : State k) (v v' : Option (Value T)) : Prop :=
  ∃ es, t.w.trace = s.w.trace ++ es ∧ (∀ e ∈ es, ∀ U p, e ≠ .destructor U p) ∧
    taken v + es.countP Event.ends = taken v'

variable {T U : RustType} {v : Value T} {s t : State k} {o : DynObject k.Carrier} {op : Op}
  {dst : Addr}

omit [FieldOffsets] in
theorem Extends.trans {u : State k} {v₁ v₂ v₃ : Option (Value T)} (h : Extends s t v₁ v₂)
    (h' : Extends t u v₂ v₃) : Extends s u v₁ v₃ := by
  obtain ⟨es, he, hd, hc⟩ := h
  obtain ⟨es', he', hd', hc'⟩ := h'
  refine ⟨es ++ es', by rw [he', he, List.append_assoc], ?_, ?_⟩
  · intro e hm
    rcases List.mem_append.mp hm with hm | hm
    · exact hd e hm
    · exact hd' e hm
  · rw [List.countP_append, ← Nat.add_assoc, hc, hc']

/-- What a freshly built object holds. -/
theorem holds_started (h : Started v s) : Holds T s (some v) := by
  obtain ⟨o, ho, hs⟩ := h
  obtain ⟨hb, hv⟩ := Transparency.holds_started hs
  have hlive : Unwinding.Stored .any T o s.w := by
    cases hs with
    | new h => exact .new h
    | fromBox hlive _ h => exact .fromBox hlive h
  simp only [Holds, ho]
  exact ⟨hb, (Unwinding.stored_live hlive).2, hv⟩

/-- The value goes along with its object. -/
theorem holds_moveTo (ho : s.obj = some o) (hs : Holds T s (some v))
    (hapart : ∀ b ∈ o.block T, b.Apart dst (DynObject.size k.Carrier)) :
    Holds T (moveTo s dst) (some v) := by
  simp only [Holds, ho] at hs
  obtain ⟨hb, hlive, rfl⟩ := hs
  simp only [Holds, moveTo, ho]
  exact ⟨hb, hlive, load_ptr_moveBytes hb.constructed s.w (Nat.le_refl _) hapart⟩

omit [FieldOffsets] in
theorem extends_record {w : World} {v v' : Option (Value T)} {e : Event} {t : State k}
    (ht : t.w.trace = w.trace ++ [e]) (hd : ∀ U p, e ≠ .destructor U p)
    (hc : taken v + [e].countP Event.ends = taken v') (hs : s.w = w) : Extends s t v v' := by
  subst hs
  exact ⟨[e], ht, by simpa using hd, hc⟩

theorem is_eq (hb : o.BuiltFor .any T) (U : RustType) : o.is U = decide (U = T) := by
  simp [← DynObject.is_iff hb]

/-- The value and its storage go, and the destructor does not run. -/
theorem extends_taken (dst : Addr) (w : World) :
    Extends (⟨some o, dst, w⟩ : State k)
      ⟨none, dst, (w.record (.movedOut T (o.place dst))).released (o.block T)⟩ (some v) none := by
  refine ⟨.movedOut T (o.place dst) :: (o.block T).toList.map .dealloc, ?_, ?_, ?_⟩
  · simp [World.trace_released]
  · cases o.block T <;> simp
  · cases o.block T <;> rfl

/-- A failing downcast does no more than to move the object. -/
theorem downcast_of_ne (ho : s.obj = some o) (hb : o.BuiltFor .any T) (hU : U ≠ T) :
    step s (.downcast U dst) = .ok (.downcast none, moveTo s dst) := by
  have hd : o.downcast dst U (moveTo s dst).w = .ok (.inr o, (moveTo s dst).w) :=
    DynObject.downcast_of_not_is (by simp [is_eq hb, hU])
  simp only [step, ho, hd]
  simp only [moveTo, ho]
  rfl

/-- One operation gives the answer of the cell. -/
theorem step_simulates {v : Option (Value T)} (hs : Holds T s v) (hok : Allowed T s op) :
    ∃ t, step s op = .ok ((cell T v op).1, t) ∧
      Holds T t (cell T v op).2 ∧ Extends s t v (cell T v op).2 := by
  obtain ⟨o, ho, hop⟩ := hok
  obtain ⟨v, rfl⟩ : ∃ x, v = some x := by
    cases v with
    | none => simp [Holds, ho] at hs
    | some x => exact ⟨x, rfl⟩
  have hkeep : Extends s s (some v) (some v) := ⟨[], by simp, by simp, rfl⟩
  have hholds := hs
  simp only [Holds, ho] at hs
  obtain ⟨hb, hlive, hv⟩ := hs
  cases op with
  | is U =>
    simp only [step, ho, cell, is_eq hb]
    exact ⟨s, rfl, hholds, hkeep⟩
  | downcastRef U =>
    have hp : o.downcastRef s.here U = _ := DynObject.downcastRef_eq hb
    simp only [is_eq hb, decide_eq_true_eq] at hp
    by_cases hU : U = T
    · subst hU
      rw [if_pos rfl] at hp
      simp only [step, ho, hp, cell]
      refine ⟨_, by rw [← hv]; rfl, ?_, extends_record rfl (by simp) rfl rfl⟩
      exact ⟨hb, hlive, hv⟩
    · rw [if_neg hU] at hp
      simp only [step, ho, hp, cell, if_neg hU]
      exact ⟨s, rfl, hholds, hkeep⟩
  | downcastMut U v' =>
    have hp : o.downcastMut s.here U = _ := DynObject.downcastMut_eq hb
    simp only [is_eq hb, decide_eq_true_eq] at hp
    by_cases hU : U = T
    · subst hU
      rw [if_pos rfl] at hp
      simp only [step, ho, hp, cell, ↓reduceDIte]
      refine ⟨_, rfl, ?_, extends_record rfl (by simp) rfl rfl⟩
      exact ⟨hb, hlive, World.read_write _⟩
    · rw [if_neg hU] at hp
      simp only [step, ho, hp, cell, dif_neg hU]
      exact ⟨s, rfl, hholds, hkeep⟩
  | move dst =>
    simp only [step, ho, cell]
    exact ⟨_, rfl, holds_moveTo ho hholds hop.2, extends_record rfl (by simp) rfl rfl⟩
  | downcast U dst =>
    have hmoved := holds_moveTo ho hholds hop.2
    have hmove : Extends s (moveTo s dst) (some v) (some v) :=
      extends_record rfl (by simp) rfl rfl
    by_cases hU : U = T
    · subst hU
      have hd : o.downcast dst U (moveTo s dst).w = _ :=
        DynObject.downcast_of_is hb (by simp [is_eq hb]) hlive
      have hread : (moveTo s dst).w.read U (o.place dst) = v := by
        simp only [Holds, moveTo, ho] at hmoved
        exact hmoved.2.2
      simp only [step, ho, hd, hread, cell]
      exact ⟨_, rfl, trivial, hmove.trans (extends_taken dst _)⟩
    · simp only [cell, if_neg hU]
      exact ⟨_, downcast_of_ne ho hb hU, hmoved, hmove⟩

/-- A `DynObject<dyn Any>` answers like a cell of its type: an attempt at another type
fails and leaves it as it is, a read gives what was written last, and so does the
downcast that takes the value out, of which no destructor has run. -/
theorem run_cell {ops : List Op} (hs : Started v s) (hok : Along step (Allowed T) s ops) :
    ∃ outs t, run step s ops = .ok (outs, t) ∧ outs = (iterate (cell T) (some v) ops).1 ∧
      Extends s t (some v) (iterate (cell T) (some v) ops).2 ∧
      ((iterate (cell T) (some v) ops).2.isSome ↔ t.obj.isSome) ∧
      ∀ U dst, U ≠ T → t.obj.isSome → step t (.downcast U dst) = .ok (.downcast none, moveTo t dst) ∧
        step t (.move dst) = .ok (.moved, moveTo t dst) := by
  obtain ⟨t, ht, hh, he⟩ := run_simulates (f := cell T)
    (R := fun t v' => Holds T t v' ∧ Extends s t (some v) v')
    (fun _ _ _ hr hok =>
      have ⟨t, ht, hh, he⟩ := step_simulates hr.1 hok
      ⟨t, ht, hh, hr.2.trans he⟩)
    ⟨holds_started hs, [], by simp, by simp, rfl⟩ hok
  refine ⟨_, t, ht, rfl, he, ?_, ?_⟩
  · cases ho : t.obj <;> cases hv : (iterate (cell T) (some v) ops).2 <;> simp_all [Holds]
  · intro U dst hU hsome
    obtain ⟨o, ho⟩ := Option.isSome_iff_exists.mp hsome
    have hb : o.BuiltFor .any T := by
      cases hv : (iterate (cell T) (some v) ops).2 <;> simp_all [Holds]
    exact ⟨downcast_of_ne ho hb hU, by simp [step, ho]⟩

/-- A failing attempt between a write and the downcast that gives the value back. -/
def writeDowncast : List Op :=
  [.downcastMut (.bytes 2) (fun _ => some 0), .downcastMut (.bytes 1) (fun _ => some 7),
    .downcast (.bytes 2) 256, .downcast (.bytes 1) 512]

omit [FieldOffsets] in
theorem run_cell_writeDowncast :
    let v : Value (.bytes 1) := fun _ => some 5
    ∃ (s : State (.raw 8 8)), @Started .tagFirst _ _ v s ∧
      ∃ outs t, run (@step .tagFirst _) s writeDowncast = .ok (outs, t) ∧
        outs = (iterate (cell (.bytes 1)) (some v) writeDowncast).1 := by
  intro v
  have h : ∃ (o : DynObject (StorageKind.raw 8 8).Carrier) (w : World),
      @DynObject.new .tagFirst _ _ _ .any v 64 0 .empty = .ok (o, w) ∧
        Along (@step .tagFirst (.raw 8 8)) (@Allowed .tagFirst _ (.bytes 1)) ⟨some o, 64, w⟩
          writeDowncast := by
    refine ⟨_, _, rfl, ⟨_, rfl, trivial⟩, ?_⟩
    rintro _ _ ⟨⟩
    refine ⟨⟨_, rfl, trivial⟩, ?_⟩
    rintro _ _ ⟨⟩
    refine ⟨⟨_, rfl, by decide, fun _ hb => nomatch hb⟩, ?_⟩
    rintro _ _ ⟨⟩
    exact ⟨⟨_, rfl, by decide, fun _ hb => nomatch hb⟩, fun _ _ _ => trivial⟩
  obtain ⟨o, w, h, hok⟩ := h
  have hs : @Started .tagFirst (.raw 8 8) _ v ⟨some o, 64, w⟩ :=
    ⟨o, rfl, @Transparency.Started.new .tagFirst _ _ _ _ _ _ _ _ _ h⟩
  obtain ⟨outs, t, hrun, hout, -⟩ := @run_cell .tagFirst _ _ _ _ _ hs hok
  exact ⟨_, hs, outs, t, hrun, hout⟩

end DynUtils.TypedCell
