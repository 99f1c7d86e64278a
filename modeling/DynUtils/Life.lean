import DynUtils.Lib.Machine
import DynUtils.Storage

/-! The life of one stored value and of its block, as the history of its events. -/
namespace DynUtils

open FlatMemory

namespace Event

/-- The value is destroyed, or leaves the crate. -/
def ends : Event → Bool
  | destructor _ _ | lapsed _ | movedOut _ _ => true
  | _ => false

/-- The value leaves its block. -/
def empties : Event → Bool
  | destructor _ _ | lapsed _ | movedOut _ _ | unboxed _ _ => true
  | _ => false

/-- The event treats the value as one of type `T`: it gets a block of that layout,
and is destroyed by the destructor of `T` exactly if there is one. -/
def Proper (T : RustType) : Event → Prop
  | alloc b | dealloc b => b.layout = T.layout
  | stored U _ | accessed U _ | movedOut U _ | unboxed U _ => U = T
  | destructor U _ => U = T ∧ T.needsDrop = true
  | lapsed _ => T.needsDrop = false
  | copied _ _ _ => True

end Event

/-- Where a value is in its life, and the block that is kept for it. -/
inductive Life
  | unborn
  /-- Its block is allocated. -/
  | awaited (b : Block)
  | alive (b : Option Block)
  /-- On its way from a box into a storage. -/
  | transit (b : Option Block)
  | past (b : Option Block)
deriving DecidableEq

namespace Life

def block : Life → Option Block
  | unborn => none
  | awaited b => some b
  | alive b | transit b | past b => b

def ended : Life → ℕ
  | past _ => 1
  | _ => 0

/-- What may happen to a value of type `T`. -/
inductive Step (T : RustType) : Life → Event → Life → Prop
  | alloc {b : Block} : b.layout = T.layout → Step T unborn (.alloc b) (awaited b)
  | storeBoxed {b : Block} : Step T (awaited b) (.stored T b.addr) (alive (some b))
  | store {p : Addr} : Step T unborn (.stored T p) (alive none)
  | access {b : Option Block} {p : Addr} : Step T (alive b) (.accessed T p) (alive b)
  | copy {b : Option Block} {src dst n : ℕ} : Step T (alive b) (.copied src dst n) (alive b)
  | destroy {b : Option Block} {p : Addr} :
    T.needsDrop = true → Step T (alive b) (.destructor T p) (past b)
  | lapse {b : Option Block} {p : Addr} :
    T.needsDrop = false → Step T (alive b) (.lapsed p) (past b)
  | moveOut {b : Option Block} {p : Addr} : Step T (alive b) (.movedOut T p) (past b)
  | unbox {b : Option Block} {p : Addr} : Step T (alive b) (.unboxed T p) (transit b)
  | freeTransit {b : Block} : Step T (transit (some b)) (.dealloc b) (transit none)
  | settle {p : Addr} : Step T (transit none) (.stored T p) (alive none)
  | free {b : Block} : Step T (past (some b)) (.dealloc b) (past none)

abbrev Run (T : RustType) : Life → List Event → Life → Prop := Machine.Trace (Step T)

variable {T : RustType} {l l' : Life} {e : Event} {es es' : List Event}

/-- What a history that leads to `l` says. -/
structure Sound (T : RustType) (es : List Event) (l : Life) : Prop where
  unborn : l = .unborn → es = []
  ends : es.countP Event.ends = l.ended
  proper : ∀ e ∈ es, e.Proper T
  origin : ∀ b, l.block = some b → .alloc b ∈ es
  kept : ∀ b, l.block = some b → es.count (.dealloc b) = 0
  freed : ∀ b, .alloc b ∈ es → l.block ≠ some b → es.count (.dealloc b) = 1
  emptied : (∃ b, l = transit b ∨ l = past b) → ∃ e ∈ es, e.empties = true
  order : ∀ pre b post, es = pre ++ .dealloc b :: post →
    .alloc b ∈ pre ∧ ∃ e ∈ pre, e.empties = true

theorem sound_unborn : Sound T [] unborn := by
  constructor <;> simp [ended, block]

theorem append_singleton_eq {α : Type} {xs pre post : List α} {x y : α}
    (h : xs ++ [x] = pre ++ y :: post) :
    (x = y ∧ xs = pre) ∨ ∃ post', xs = pre ++ y :: post' := by
  rcases List.eq_nil_or_concat post with rfl | ⟨post', z, rfl⟩
  · obtain ⟨hxs, hx⟩ := List.append_inj' h rfl
    exact Or.inl ⟨List.singleton_inj.mp hx, hxs⟩
  · have h' : xs ++ [x] = (pre ++ y :: post') ++ [z] := by simpa using h
    exact Or.inr ⟨post', (List.append_inj' h' rfl).1⟩

/-- A release comes after the allocation of its block, which was emptied before. -/
theorem order_step (hs : Sound T es l) (h : Step T l e l') (pre : List Event) (b : Block)
    (post : List Event) (heq : es ++ [e] = pre ++ .dealloc b :: post) :
    .alloc b ∈ pre ∧ ∃ e ∈ pre, e.empties = true := by
  rcases append_singleton_eq heq with ⟨rfl, rfl⟩ | ⟨post', rfl⟩
  · cases h with
    | freeTransit => exact ⟨hs.origin _ rfl, hs.emptied ⟨_, Or.inl rfl⟩⟩
    | free => exact ⟨hs.origin _ rfl, hs.emptied ⟨_, Or.inr rfl⟩⟩
  · exact hs.order pre b post' rfl

/-- What a step does to the block. -/
theorem step_block (h : Step T l e l') :
    (l'.block = l.block ∧ ∀ b, e ≠ .alloc b ∧ e ≠ .dealloc b) ∨
      (l = unborn ∧ ∃ b, e = .alloc b ∧ l'.block = some b) ∨
      l'.block = none ∧ ∃ b, e = .dealloc b ∧ l.block = some b := by
  cases h <;> simp [block]

theorem count_append_ne {f : Event} (h : e ≠ f) : (es ++ [e]).count f = es.count f := by
  rw [List.count_append, List.count_singleton, beq_false_of_ne h]
  rfl

theorem origin_step (hs : Sound T es l) (h : Step T l e l') (b : Block)
    (hb : l'.block = some b) : .alloc b ∈ es ++ [e] := by
  rcases step_block h with ⟨hl, -⟩ | ⟨-, b', rfl, hb'⟩ | ⟨hn, -⟩
  · exact List.mem_append_left _ (hs.origin b (hl ▸ hb))
  · obtain rfl := Option.some.inj (hb'.symm.trans hb)
    exact List.mem_append_right _ (List.mem_singleton_self _)
  · rw [hn] at hb
    cases hb

theorem kept_step (hs : Sound T es l) (h : Step T l e l') (b : Block)
    (hb : l'.block = some b) : (es ++ [e]).count (.dealloc b) = 0 := by
  rcases step_block h with ⟨hl, hne⟩ | ⟨hu, b', rfl, -⟩ | ⟨hn, -⟩
  · rw [count_append_ne (hne b).2, hs.kept b (hl ▸ hb)]
  · rw [count_append_ne (by simp), hs.unborn hu, List.count_nil]
  · rw [hn] at hb
    cases hb

theorem freed_step (hs : Sound T es l) (h : Step T l e l') (b : Block)
    (hb : .alloc b ∈ es ++ [e]) (hne : l'.block ≠ some b) :
    (es ++ [e]).count (.dealloc b) = 1 := by
  rw [List.mem_append, List.mem_singleton] at hb
  rcases step_block h with ⟨hl, hother⟩ | ⟨hu, b', rfl, hb'⟩ | ⟨-, b', rfl, hb'⟩
  · rcases hb with hb | hb
    · rw [count_append_ne (hother b).2, hs.freed b hb (hl ▸ hne)]
    · exact ((hother b).1 hb.symm).elim
  · rcases hb with hb | hb
    · rw [hs.unborn hu] at hb
      cases hb
    · exact (hne (Event.alloc.inj hb ▸ hb')).elim
  · rcases hb with hb | hb
    · by_cases hbb : b' = b
      · subst hbb
        rw [List.count_append, hs.kept b' hb', List.count_singleton_self]
      · have hl : l.block ≠ some b := fun he => hbb (Option.some.inj (hb'.symm.trans he))
        rw [count_append_ne (fun he => hbb (Event.dealloc.inj he)), hs.freed b hb hl]
    · cases hb

theorem proper_step (hs : Sound T es l) (h : Step T l e l') : e.Proper T := by
  have hlayout : ∀ b, l.block = some b → b.layout = T.layout := fun b hb =>
    hs.proper _ (hs.origin b hb)
  cases h <;> simp_all [Event.Proper, block]

theorem sound_step (hs : Sound T es l) (h : Step T l e l') : Sound T (es ++ [e]) l' where
  unborn := by cases h <;> simp
  ends := by
    rw [List.countP_append, hs.ends]
    cases h <;> rfl
  proper f hf := by
    rcases List.mem_append.mp hf with hf | hf
    · exact hs.proper f hf
    · exact List.mem_singleton.mp hf ▸ proper_step hs h
  origin := origin_step hs h
  kept := kept_step hs h
  freed := freed_step hs h
  emptied := by
    have hem := hs.emptied
    cases h <;> simp_all [Event.empties]
  order := order_step hs h

theorem sound_run (hs : Sound T es l) (h : Run T l es' l') : Sound T (es ++ es') l' := by
  induction h generalizing es with
  | refl => simpa using hs
  | step hstep _ ih => simpa using ih (sound_step hs hstep)

end Life

end DynUtils
