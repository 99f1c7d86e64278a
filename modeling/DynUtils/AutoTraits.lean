import DynUtils.Lib.Machine
import DynUtils.Macros.WrittenOut

/-! The auto traits of a `DynObject`: to which threads and places its value comes, in all that the
compiler lets programs do because of `unsafe impl Send`, `unsafe impl Sync` and `impl Unpin`. -/
namespace DynUtils.AutoTraits

open Syn Machine Macros
open Macros.WrittenOut (Written futureImpl iteratorImpl output_of_written)

inductive Auto
  | send
  | sync
  | unpin

/-- The types of a program, and what the compiler knows of them where the parameters of the impls
are given. -/
structure Types (α : Type) where
  implements : α → TypeParamBound → Prop
  is : Auto → α → Prop
  /-- The bound is the auto trait, or a trait that has it as a supertrait. -/
  entails : TypeParamBound → Auto → Prop
  elaborated : ∀ T b a, implements T b → entails b a → is a T

/-- `unsafe impl<.., __Dyn: ..> Vtable<__Dyn> for dyn ..` -/
structure Header where
  generics : List GenericParam
  selfTy : Ty

namespace Header

/-- What is asked of the `T` of `DynObject::new`. -/
def asked (h : Header) : List TypeParamBound :=
  match h.generics.getLast? with
  | some (.type "__Dyn" bounds _) => bounds
  | _ => []

def bounds (h : Header) : List TypeParamBound :=
  match h.selfTy with
  | .traitObject bounds => bounds
  | _ => []

end Header

/-- An object, with the thread that made its value and the one that owns it now. -/
structure Shared (α : Type) where
  header : Header
  ty : α
  home : ℕ
  owner : ℕ
  /-- Those that have a `&DynObject`. -/
  readers : List ℕ := []
  /-- It is behind a `Pin`. -/
  pinned : Bool := false
  /-- The value has been given out as a `Pin<&mut T>`. -/
  held : Bool := false

/-- What happens to a value. -/
inductive Event (α : Type)
  /-- A method or the destructor runs, or it is read out. -/
  | touched (ty : α) (home owner thread : ℕ)
  | moved (ty : α) (held : Bool)

structure State (α : Type) where
  objs : ℕ → Option (Shared α)
  log : List (Event α)

variable {α : Type}

def initial : State α := ⟨fun _ => none, []⟩

def State.set (s : State α) (x : ℕ) (o : Option (Shared α)) : State α :=
  { s with objs := Function.update s.objs x o }

def State.record (s : State α) (e : Event α) : State α := { s with log := e :: s.log }

def Shared.touched (o : Shared α) (i : ℕ) : Event α := .touched o.ty o.home o.owner i

/-- The thread has the object to itself. -/
def Shared.Owns (o : Shared α) (i : ℕ) : Prop := o.owner = i ∧ o.readers = []

variable (types : Types α)

/-- `Dyn: Vtable<T>` -/
def Types.Accepts (h : Header) (T : α) : Prop := ∀ b ∈ h.asked, types.implements T b

/-- `Dyn: Send`, `Dyn: Sync`, `Dyn: Unpin`. Its `DynObject` is then, whatever the storage. -/
def Types.IsDyn (a : Auto) (h : Header) : Prop := ∃ b ∈ h.bounds, types.entails b a

/-- The type of the value lets it happen. -/
def Types.Permits : Event α → Prop
  | .touched T home owner thread =>
    (owner ≠ home → types.is .send T) ∧ (thread ≠ owner → types.is .sync T)
  | .moved T held => held = true → types.is .unpin T

variable (headers : Header → Prop)

/-- What the thread `i` may do, in a program with the given impls of `Vtable`. -/
inductive Step : State α → ℕ → State α → Prop
  | new {s : State α} {x i : ℕ} {h : Header} {T : α} : s.objs x = none → headers h →
    types.Accepts h T → Step s i (s.set x (some { header := h, ty := T, home := i, owner := i }))
  | send {s : State α} {x i : ℕ} {o : Shared α} (j : ℕ) : s.objs x = some o → o.Owns i →
    types.IsDyn .send o.header → Step s i (s.set x (some { o with owner := j }))
  /-- To send a reference is to share the object. -/
  | share {s : State α} {x i : ℕ} {o : Shared α} (j : ℕ) : s.objs x = some o →
    i = o.owner ∨ i ∈ o.readers → types.IsDyn .sync o.header →
    Step s i (s.set x (some { o with readers := j :: o.readers }))
  | release {s : State α} {x i : ℕ} {o : Shared α} : s.objs x = some o → i ∈ o.readers →
    Step s i (s.set x (some { o with readers := o.readers.erase i }))
  | call {s : State α} {x i : ℕ} {o : Shared α} : s.objs x = some o →
    i = o.owner ∨ i ∈ o.readers → Step s i (s.record (o.touched i))
  /-- `Box::pin`, `pin!` -/
  | pin {s : State α} {x i : ℕ} {o : Shared α} : s.objs x = some o → o.Owns i →
    Step s i (s.set x (some { o with pinned := true }))
  /-- `Pin::into_inner` -/
  | unpin {s : State α} {x i : ℕ} {o : Shared α} : s.objs x = some o → o.Owns i →
    types.IsDyn .unpin o.header → Step s i (s.set x (some { o with pinned := false }))
  /-- A method that takes a `Pin<&mut Self>`, which `Pin::new` gives too. -/
  | poll {s : State α} {x i : ℕ} {o : Shared α} : s.objs x = some o → o.Owns i →
    o.pinned = true ∨ types.IsDyn .unpin o.header →
    Step s i ((s.set x (some { o with held := true })).record (o.touched i))
  | move {s : State α} {x i : ℕ} {o : Shared α} : s.objs x = some o → o.Owns i →
    o.pinned = false → Step s i (s.record (.moved o.ty o.held))
  /-- The object is dropped or replaced. -/
  | drop {s : State α} {x i : ℕ} {o : Shared α} : s.objs x = some o → o.Owns i →
    Step s i ((s.set x none).record (o.touched i))
  /-- `downcast` moves the value out. -/
  | take {s : State α} {x i : ℕ} {o : Shared α} : s.objs x = some o → o.Owns i →
    o.pinned = false →
    Step s i (((s.set x none).record (o.touched i)).record (.moved o.ty o.held))

/-- Nothing happens to a value that its type forbids. -/
def Safe : Prop :=
  ∀ is (s : State α), Trace (Step types headers) initial is s → ∀ e ∈ s.log, types.Permits e

/-- All values that an impl accepts are what its objects are taken for. -/
def Covered : Prop :=
  ∀ h, headers h → ∀ T, types.Accepts h T → ∀ a, types.IsDyn a h → types.is a T

/-- Where the object has been is where the compiler lets it go. -/
structure Shared.Ok (o : Shared α) : Prop where
  header : headers o.header
  accepted : types.Accepts o.header o.ty
  sent : o.owner ≠ o.home → types.IsDyn .send o.header
  shared : ∀ i ∈ o.readers, i ≠ o.owner → types.IsDyn .sync o.header
  held : o.held = true → o.pinned = true ∨ types.IsDyn .unpin o.header

structure Inv (s : State α) : Prop where
  objs : ∀ x, ∀ o ∈ s.objs x, o.Ok types headers
  permitted : ∀ e ∈ s.log, types.Permits e

variable {types headers} {s t : State α} {x i : ℕ} {o : Shared α} {e : Event α}

theorem inv_set (hs : Inv types headers s) {c : Option (Shared α)}
    (hc : ∀ o ∈ c, o.Ok types headers) : Inv types headers (s.set x c) := by
  refine ⟨?_, hs.permitted⟩
  intro y o ho
  change o ∈ Function.update s.objs x c y at ho
  by_cases hy : y = x
  · subst hy
    rw [Function.update_self] at ho
    exact hc o ho
  · rw [Function.update_of_ne hy] at ho
    exact hs.objs y o ho

theorem inv_record (hs : Inv types headers s) (he : types.Permits e) :
    Inv types headers (s.record e) :=
  ⟨hs.objs, List.forall_mem_cons.mpr ⟨he, hs.permitted⟩⟩

section
variable (hc : Covered types headers) (ho : o.Ok types headers)

include hc ho

/-- Whoever can reach the value may use it. -/
theorem permits_touched (hi : i = o.owner ∨ i ∈ o.readers) : types.Permits (o.touched i) := by
  constructor
  · intro hmoved
    exact hc _ ho.header _ ho.accepted _ (ho.sent hmoved)
  · intro hother
    rcases hi with rfl | hi
    · exact absurd rfl hother
    · exact hc _ ho.header _ ho.accepted _ (ho.shared i hi hother)

/-- What can be moved after it was pinned is `Unpin`. -/
theorem permits_moved (hp : o.pinned = false) : types.Permits (.moved o.ty o.held) := by
  intro hheld
  rcases ho.held hheld with hpinned | hunpin
  · rw [hp] at hpinned
    cases hpinned
  · exact hc _ ho.header _ ho.accepted _ hunpin

end

theorem inv_step (hc : Covered types headers) (hs : Inv types headers s)
    (h : Step types headers s i t) : Inv types headers t := by
  cases h with
  | new hx hh hT =>
    apply inv_set hs
    rintro _ ⟨⟩
    refine ⟨hh, hT, ?_, ?_, ?_⟩
    · intro hne
      exact absurd rfl hne
    · rintro j ⟨⟩
    · rintro ⟨⟩
  | @send x i o j hx hi hsend =>
    have ho := hs.objs x o hx
    apply inv_set hs
    rintro _ ⟨⟩
    refine ⟨ho.header, ho.accepted, fun _ => hsend, ?_, ho.held⟩
    intro k hk
    simp [hi.2] at hk
  | @share x i o j hx hi hsync =>
    have ho := hs.objs x o hx
    apply inv_set hs
    rintro _ ⟨⟩
    exact ⟨ho.header, ho.accepted, ho.sent, fun _ _ _ => hsync, ho.held⟩
  | @release x i o hx hi =>
    have ho := hs.objs x o hx
    apply inv_set hs
    rintro _ ⟨⟩
    refine ⟨ho.header, ho.accepted, ho.sent, ?_, ho.held⟩
    intro k hk
    exact ho.shared k (List.mem_of_mem_erase hk)
  | @call x i o hx hi => exact inv_record hs (permits_touched hc (hs.objs x o hx) hi)
  | @pin x i o hx hi =>
    have ho := hs.objs x o hx
    apply inv_set hs
    rintro _ ⟨⟩
    exact ⟨ho.header, ho.accepted, ho.sent, ho.shared, fun _ => Or.inl rfl⟩
  | @unpin x i o hx hi hunpin =>
    have ho := hs.objs x o hx
    apply inv_set hs
    rintro _ ⟨⟩
    exact ⟨ho.header, ho.accepted, ho.sent, ho.shared, fun _ => Or.inr hunpin⟩
  | @poll x i o hx hi hp =>
    have ho := hs.objs x o hx
    refine inv_record (inv_set hs ?_) (permits_touched hc ho (Or.inl hi.1.symm))
    rintro _ ⟨⟩
    exact ⟨ho.header, ho.accepted, ho.sent, ho.shared, fun _ => hp⟩
  | @move x i o hx hi hp => exact inv_record hs (permits_moved hc (hs.objs x o hx) hp)
  | @drop x i o hx hi =>
    have ho := hs.objs x o hx
    refine inv_record (inv_set hs ?_) (permits_touched hc ho (Or.inl hi.1.symm))
    rintro _ ⟨⟩
  | @take x i o hx hi hp =>
    have ho := hs.objs x o hx
    refine inv_record (inv_record (inv_set hs ?_) ?_) (permits_moved hc ho hp)
    · rintro _ ⟨⟩
    · exact permits_touched hc ho (Or.inl hi.1.symm)

theorem inv_initial : Inv types headers (initial : State α) := by
  constructor
  · rintro x o ⟨⟩
  · rintro e ⟨⟩

theorem inv_trace (hc : Covered types headers) (hs : Inv types headers s) {is : List ℕ}
    (h : Trace (Step types headers) s is t) : Inv types headers t := by
  induction h with
  | refl => exact hs
  | step hstep _ ih => exact ih (inv_step hc hs hstep)

/-- The auto traits do no harm exactly if the impls ask enough. -/
theorem safe_iff_covered : Safe types headers ↔ Covered types headers := by
  constructor
  · intro hsafe h hh T hT a ha
    let o : Shared α := { header := h, ty := T, home := 0, owner := 0 }
    let s : State α := initial.set 0 (some o)
    have hnew : Step types headers initial 0 s := .new rfl hh hT
    cases a with
    | send =>
      -- made by one thread, sent to another, dropped there
      let s' := s.set 0 (some { o with owner := 1 })
      have hsend : Step types headers s 0 s' := .send 1 rfl ⟨rfl, rfl⟩ ha
      have hdrop : Step types headers s' 1 _ :=
        .drop (x := 0) (o := { o with owner := 1 }) rfl ⟨rfl, rfl⟩
      have hp := hsafe _ _ (.step hnew (.step hsend (.step hdrop .refl))) _ List.mem_cons_self
      exact hp.1 Nat.one_ne_zero
    | sync =>
      let s' := s.set 0 (some { o with readers := [1] })
      have hshare : Step types headers s 0 s' := .share 1 rfl (Or.inl rfl) ha
      have hcall : Step types headers s' 1 _ :=
        .call (x := 0) (o := { o with readers := [1] }) rfl (Or.inr List.mem_cons_self)
      have hp := hsafe _ _ (.step hnew (.step hshare (.step hcall .refl))) _ List.mem_cons_self
      exact hp.2 Nat.one_ne_zero
    | unpin =>
      -- polled by `Pin::new`, then moved
      let s' := (s.set 0 (some { o with held := true })).record (o.touched 0)
      have hpoll : Step types headers s 0 s' := .poll rfl ⟨rfl, rfl⟩ (Or.inr ha)
      have hmove : Step types headers s' 0 _ :=
        .move (x := 0) (o := { o with held := true }) rfl ⟨rfl, rfl⟩ rfl
      have hp := hsafe _ _ (.step hnew (.step hpoll (.step hmove .refl))) _ List.mem_cons_self
      exact hp rfl
  · intro hc is s h
    exact (inv_trace hc inv_initial h).permitted

/-! The impls that there are. -/

def header (out : DynObjectOutput) : Header := ⟨out.vtableImpl.generics, out.vtableImpl.selfTy⟩

/-- It is written by `dyn_object`. -/
def Generated (h : Header) : Prop :=
  ∃ trait opts out, dynObjectImpl trait opts = .ok out ∧ h = header out

def bound (idents : List Ident) : TypeParamBound := (Path.ofIdents false idents).toBound

/-- `any_impl!`, on the `dyn` type with these bounds. -/
def anyImpl (dynAny : List TypeParamBound) : Header :=
  ⟨[.type "__Dyn" [bound ["core", "any", "Any"]] none], .traitObject dynAny⟩

/-- All impls of `Vtable` in the crate. -/
def crateImpls : List Header :=
  [anyImpl [bound ["Any"]],
    anyImpl [bound ["Any"], bound ["Send"]],
    anyImpl [bound ["Any"], bound ["Send"], bound ["Sync"]],
    header (futureImpl []),
    header (futureImpl [.ofIdents false ["Send"]]),
    header iteratorImpl]

theorem covered_of_asked (h : ∀ h, headers h → ∀ b ∈ h.bounds, b ∈ h.asked) :
    Covered types headers := by
  intro hdr hh T hT a ⟨b, hb, hent⟩
  exact types.elaborated T b a (hT b (h hdr hh b hb)) hent

/-- `dyn_object` asks of a value what it says of the object. -/
theorem asked_of_generated {h : Header} (hg : Generated h) : h.asked = h.bounds := by
  obtain ⟨trait, opts, out, hout, rfl⟩ := hg
  obtain ⟨d, -, hd⟩ := bind_ok.mp hout
  obtain rfl := pure_ok.mp hd
  simp [Header.asked, Header.bounds, header, DynObject.output]

theorem generated_of_written {trait : ItemTrait} {out : DynObjectOutput} (h : Written trait out) :
    Generated (header out) := by
  obtain ⟨opts, hout⟩ := output_of_written h
  exact ⟨trait, opts, out, hout, rfl⟩

/-- What `dyn_object` writes is safe, with any traits, bounds and types of values, and any number
of objects, pins and threads. -/
theorem generated_safe (types : Types α) : Safe types Generated := by
  apply safe_iff_covered.mpr
  apply covered_of_asked
  intro h hg b hb
  rw [asked_of_generated hg]
  exact hb

/-- The impls of the crate, together with any that `dyn_object` writes, are safe only where all
types are `Send` and `Sync`: `any_impl` asks for no more than `Any`. -/
theorem crate_safe_iff (types : Types α) (hsend : types.entails (bound ["Send"]) .send)
    (hsync : types.entails (bound ["Sync"]) .sync)
    (hunpin : ∀ name ∈ ["Any", "Send", "Sync"], ¬ types.entails (bound [name]) .unpin) :
    Safe types (fun h => h ∈ crateImpls ∨ Generated h) ↔
      ∀ T, types.implements T (bound ["core", "any", "Any"]) →
        types.is .send T ∧ types.is .sync T := by
  rw [safe_iff_covered]
  constructor
  · intro hc T hT
    have haccepts : types.Accepts (anyImpl [bound ["Any"], bound ["Send"], bound ["Sync"]]) T := by
      simpa [Types.Accepts, anyImpl, Header.asked] using hT
    have hall := hc _ (Or.inl (by simp [crateImpls])) T haccepts
    constructor
    · exact hall .send ⟨bound ["Send"], by simp [anyImpl, Header.bounds], hsend⟩
    · exact hall .sync ⟨bound ["Sync"], by simp [anyImpl, Header.bounds], hsync⟩
  · intro hall h hh T hT a ha
    have hasked : h.asked = h.bounds → types.is a T := by
      intro heq
      obtain ⟨b, hb, hent⟩ := ha
      exact types.elaborated T b a (hT b (heq ▸ hb)) hent
    have hany : ∀ names : List Ident, (∀ name ∈ names, name ∈ ["Any", "Send", "Sync"]) →
        h = anyImpl (names.map fun name => bound [name]) → types.is a T := by
      rintro names hnames rfl
      obtain ⟨hs, hy⟩ := hall T (hT _ List.mem_cons_self)
      cases a with
      | send => exact hs
      | sync => exact hy
      | unpin =>
        obtain ⟨b, hb, hent⟩ := ha
        obtain ⟨name, hname, rfl⟩ := List.mem_map.mp hb
        exact absurd hent (hunpin name (hnames name hname))
    rcases hh with hh | hg
    · simp only [crateImpls, List.mem_cons, List.not_mem_nil, or_false] at hh
      rcases hh with hh | hh | hh | rfl | rfl | rfl
      · exact hany ["Any"] (by simp) hh
      · exact hany ["Any", "Send"] (by simp) hh
      · exact hany ["Any", "Send", "Sync"] (by simp) hh
      · exact hasked (asked_of_generated (generated_of_written (.future _)))
      · exact hasked (asked_of_generated (generated_of_written (.future _)))
      · exact hasked (asked_of_generated (generated_of_written .iterator))
    · exact hasked (asked_of_generated hg)

/-- An integer and an `Rc`: both are `'static`, the second is for one thread. -/
def integerRc : Types Bool where
  implements T b := b = bound ["Send"] ∨ b = bound ["Sync"] → T = true
  is _ T := T = true
  entails b a := b = bound ["Send"] ∧ a = .send ∨ b = bound ["Sync"] ∧ a = .sync
  elaborated T b a hT := by
    rintro (⟨hb, -⟩ | ⟨hb, -⟩)
    · exact hT (Or.inl hb)
    · exact hT (Or.inr hb)

theorem crate_safe_iff_integerRc :
    ¬ Safe integerRc fun h => h ∈ crateImpls ∨ Generated h := by
  intro hsafe
  have hunpin : ∀ name ∈ ["Any", "Send", "Sync"], ¬ integerRc.entails (bound [name]) .unpin := by
    rintro name - (⟨-, ⟨⟩⟩ | ⟨-, ⟨⟩⟩)
  have hall :=
    (crate_safe_iff integerRc (Or.inl ⟨rfl, rfl⟩) (Or.inr ⟨rfl, rfl⟩) hunpin).mp hsafe
  have hrc : integerRc.implements false (bound ["core", "any", "Any"]) := by
    rintro (hb | hb) <;> simp [bound, Path.ofIdents, Path.toBound, PathSegment.plain] at hb
  exact Bool.false_ne_true (hall false hrc).1

end DynUtils.AutoTraits
