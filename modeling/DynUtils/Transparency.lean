import DynUtils.StorageKind
import Mathlib.Data.List.ReduceOption

/-! A `DynObject` gives the results of the value in it, wherever that is kept. -/
namespace DynUtils.Transparency

open FlatMemory Machine LawfulStorage

/-- One object at its address, in a memory that it shares with the rest of the program. -/
structure State (k : StorageKind) where
  obj : DynObject k.Carrier
  here : Addr
  pinned : Bool
  w : World

inductive Op (A : Type)
  | call (name : String) (arg : A)
  | move (dst : Addr)
  | pin
  /-- The rest of the program writes to memory of its own. -/
  | elsewhere (p n : ℕ) (bytes : Fin n → Cell)

namespace Op
variable {A : Type}

def asCall : Op A → Option (String × A)
  | call name arg => some (name, arg)
  | _ => none

end Op

/-- What every implementing type does in the methods of the trait. -/
abbrev Methods (A R : Type) := String → A → (T : RustType) → Value T → R × Value T

variable [FieldOffsets] {A R : Type} {k : StorageKind}

def step (methods : Methods A R) (s : State k) : Op A → Except Fault (Option R × State k)
  | .call name arg => do
    let (r, w) ← s.obj.call s.here name (methods name arg) s.w
    return (some r, { s with w := w })
  | .move dst =>
    if s.pinned then .error .notAvailable
    else
      let w := s.w.moveBytes s.here dst (DynObject.size k.Carrier)
      .ok (none, { s with here := dst, w := w })
  | .pin => .ok (none, { s with pinned := true })
  | .elsewhere p _ bytes => .ok (none, { s with w.mem := s.w.mem.store p bytes })

/-- What the language and its allocator promise: methods are those of the trait, a
pinned object does not move, others do so to aligned places that are nobody else's,
and nobody else writes to the value. -/
def Allowed (D : DynTrait) (T : RustType) (s : State k) : Op A → Prop
  | .call name _ => (D.receiver name).isSome
  | .move dst => s.pinned = false ∧ (Storage.layout k.Carrier).align ∣ dst ∧
      ∀ b ∈ s.obj.block T, b.Apart dst (DynObject.size k.Carrier)
  | .pin => True
  | .elsewhere p n _ => Apart p n (s.obj.place s.here) T.size

/-- The object was just constructed to hold `v`. -/
inductive Started (D : DynTrait) {T : RustType} (v : Value T) : State k → Prop
  | new {o : DynObject k.Carrier} {here answer : Addr} {w w' : World} :
      DynObject.new D v here answer w = .ok (o, w') → Started D v ⟨o, here, false, w'⟩
  | fromBox {o : DynObject k.Carrier} {b : StdBox T} {here : Addr} {w w' : World} :
      (∀ c ∈ boxBlock T b.ptr, c ∈ w.mem.blocks) → w.read T b.ptr = v →
      k.fromBox D b here w = .ok (o, w') → Started D v ⟨o, here, false, w'⟩

/-- The value in the object. -/
def State.value (s : State k) (T : RustType) : Value T := s.w.read T (s.obj.place s.here)

/-- A method call on a `T` itself. -/
def directly (methods : Methods A R) (T : RustType) (v : Value T) (c : String × A) :
    R × Value T :=
  methods c.1 c.2 T v

/-- What an operation amounts to without the object. -/
def direct (methods : Methods A R) (T : RustType) (v : Value T) (op : Op A) :
    Option R × Value T :=
  match op.asCall with
  | none => (none, v)
  | some c => (some (directly methods T v c).1, (directly methods T v c).2)

omit [FieldOffsets] in
/-- Only the calls matter. -/
theorem iterate_direct (methods : Methods A R) (T : RustType) (v : Value T) (ops : List (Op A)) :
    (iterate (direct methods T) v ops).1.reduceOption =
        (iterate (directly methods T) v (ops.filterMap Op.asCall)).1 ∧
      (iterate (direct methods T) v ops).2 =
        (iterate (directly methods T) v (ops.filterMap Op.asCall)).2 := by
  induction ops generalizing v with
  | nil => exact ⟨rfl, rfl⟩
  | cons op ops ih =>
    cases hc : op.asCall with
    | none => simpa [iterate, direct, hc] using ih v
    | some c => simpa [iterate, direct, hc] using ih (directly methods T v c).2

/-- The object holds `v`, where its accessors look for it. -/
structure Holds (D : DynTrait) {T : RustType} (s : State k) (v : Value T) : Prop where
  built : s.obj.BuiltFor D T
  value : s.value T = v

variable {D : DynTrait} {T : RustType} {v : Value T} {s : State k} {methods : Methods A R}

theorem holds_started (h : Started D v s) : Holds D s v := by
  cases h with
  | new h =>
    obtain ⟨hb, -, rfl⟩ := DynObject.new_ok h
    exact ⟨hb, World.read_put v⟩
  | fromBox hlive hv h =>
    obtain ⟨hb, ⟨hp, rfl⟩ | ⟨hp, w₁, -, rfl⟩⟩ := StorageKind.fromBox_ok h
    · refine ⟨hb, ?_⟩
      simpa [State.value, DynObject.place, ptr_eq, hp] using hv
    · refine ⟨hb, ?_⟩
      rw [← hv]
      exact World.read_put _

/-- One operation does what the value itself would do. -/
theorem step_simulates {op : Op A} (hs : Holds D s v) (hok : Allowed D T s op) :
    ∃ s', step methods s op = .ok ((direct methods T v op).1, s') ∧
      Holds D s' (direct methods T v op).2 := by
  obtain ⟨hbuilt, rfl⟩ := hs
  cases op with
  | call name arg =>
    have hc : (D.receiver name).isSome := hok
    simp only [step, DynObject.call_eq hbuilt, hc, ↓reduceIte]
    exact ⟨_, rfl, hbuilt, World.read_write _⟩
  | move dst =>
    obtain ⟨hpin, -, hapart⟩ := hok
    simp only [step, hpin, Bool.false_eq_true, ↓reduceIte]
    exact ⟨_, rfl, hbuilt, load_ptr_moveBytes hbuilt.constructed s.w (Nat.le_refl _) hapart⟩
  | pin => exact ⟨_, rfl, hbuilt, rfl⟩
  | elsewhere p n bytes => exact ⟨_, rfl, hbuilt, Memory.load_store_apart bytes hok⟩

/-- Calls through a `DynObject`, however it was built and wherever it moves in
between, succeed with the results of the same calls on the value itself, and leave
the same value in it. -/
theorem run_direct {ops : List (Op A)} (h : Started D v s)
    (hok : Along (step methods) (Allowed D T) s ops) :
    ∃ outs u, run (step methods) s ops = .ok (outs, u) ∧
      outs.reduceOption = (iterate (directly methods T) v (ops.filterMap Op.asCall)).1 ∧
      u.value T = (iterate (directly methods T) v (ops.filterMap Op.asCall)).2 := by
  obtain ⟨u, hu, hholds⟩ := run_simulates (f := direct methods T)
    (fun _ _ _ hs hok => step_simulates hs hok) (holds_started h) hok
  obtain ⟨hres, hval⟩ := iterate_direct methods T v ops
  exact ⟨_, u, hu, hres, hholds.value.trans hval⟩

/-- A storage does not show: the results are those of direct calls, and so those of
the same calls on an object of any other storage. -/
theorem transparent {ops : List (Op A)} (h : Started D v s)
    (hok : Along (step methods) (Allowed D T) s ops) :
    ∃ outs u, run (step methods) s ops = .ok (outs, u) ∧
      outs.reduceOption = (iterate (directly methods T) v (ops.filterMap Op.asCall)).1 ∧
      u.value T = (iterate (directly methods T) v (ops.filterMap Op.asCall)).2 ∧
      ∀ (k' : StorageKind) (s' : State k') (ops' : List (Op A)), Started D v s' →
        Along (step methods) (Allowed D T) s' ops' →
        ops'.filterMap Op.asCall = ops.filterMap Op.asCall →
        ∃ outs' u', run (step methods) s' ops' = .ok (outs', u') ∧
          outs'.reduceOption = outs.reduceOption ∧ u'.value T = u.value T := by
  obtain ⟨outs, u, hu, hres, hval⟩ := run_direct h hok
  refine ⟨outs, u, hu, hres, hval, ?_⟩
  intro k' s' ops' h' hok' hcalls
  obtain ⟨outs', u', hu', hres', hval'⟩ := run_direct h' hok'
  refine ⟨outs', u', hu', ?_, ?_⟩
  · rw [hres', hcalls, hres]
  · rw [hval', hcalls, hval]

/-- `next` of an iterator that counts up from its first byte. -/
def counter : Methods Unit Cell := fun _ _ T v =>
  (if h : 0 < T.size then v ⟨0, h⟩ else none, fun i => (v i).map (· + 1))

def countTwice : List (Op Unit) := [.call "next" (), .move 256, .call "next" ()]

omit [FieldOffsets] in
theorem transparent_counter :
    let D : DynTrait := .trait fun _ => some .mut
    let v : Value (.bytes 1) := fun _ => some 5
    ∃ s : State (.raw 8 8), @Started .tagFirst _ D _ v s ∧
      ∃ outs u, run (@step .tagFirst _ _ _ counter) s countTwice = .ok (outs, u) ∧
        outs.reduceOption = [some 5, some 6] := by
  intro D v
  have h : ∃ (o : DynObject (StorageKind.raw 8 8).Carrier) (w : World),
      @DynObject.new .tagFirst _ _ _ D v 64 0 .empty = .ok (o, w) := ⟨_, _, rfl⟩
  obtain ⟨o, w, h⟩ := h
  let s : State (.raw 8 8) := ⟨o, 64, false, w⟩
  have hs : @Started .tagFirst (.raw 8 8) D _ v s := @Started.new .tagFirst _ _ _ _ _ _ _ _ _ h
  have hok : Along (@step .tagFirst _ _ _ counter) (@Allowed .tagFirst _ _ D (.bytes 1)) s
      countTwice := by
    refine ⟨rfl, fun _ t ht => ⟨⟨?_, by decide, fun b hb => ?_⟩, fun _ _ _ => ⟨rfl, fun _ _ _ =>
      trivial⟩⟩⟩
    · obtain ⟨_, -, ht⟩ := bind_ok.mp ht
      obtain ⟨-, rfl⟩ := Prod.mk.inj (pure_ok.mp ht)
      rfl
    · cases hb
  obtain ⟨outs, u, hrun, hres, -⟩ := @transparent .tagFirst _ _ _ _ _ _ _ _ _ hs hok
  exact ⟨s, hs, outs, u, hrun, hres⟩

end DynUtils.Transparency
