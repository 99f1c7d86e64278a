import DynUtils.Macros.FnPointers

/-! How `dyn_object` passes the receiver on, from the declaration to the concrete method. -/
namespace DynUtils.Macros.Receivers

open Syn

/-- A reference to `Self`, or to a storage, and whether it is pinned. -/
structure RefKind where
  pinned : Bool
  mutability : Bool
deriving DecidableEq

/-- The receiver as `syn` parses it: the short forms stand for a type. -/
def Parsed (recv : Receiver) : Prop :=
  match recv.reference with
  | some lt => recv.colon = false ∧ recv.ty = .reference lt recv.mutability (.ofIdent "Self")
  | none => recv.colon = false → recv.ty = .ofIdent "Self"

/-- What the type of the receiver says: the kind of reference to `Self`, and its lifetime. -/
def declared : Ty → Option (RefKind × Option Lifetime)
  | .reference lt mutability elem => if elem.isSelf then some (⟨false, mutability⟩, lt) else none
  | ty => (pinnedRef ty).map fun r => (⟨true, r.mutability⟩, r.lifetime)

/-- The methods of `Storage` and those of `DynObject` that give a reference, each of the
kind that it takes. -/
def accessorKind (ident : Ident) : Option RefKind :=
  if ident ∈ ["as_ref", "storage"] then some ⟨false, false⟩
  else if ident ∈ ["as_mut", "storage_mut"] then some ⟨false, true⟩
  else if ident ∈ ["as_pinned_mut", "storage_pinned_mut"] then some ⟨true, true⟩
  else none

/-- A reference of this kind to `__Storage`. -/
def storageTy (kind : RefKind) (lt : Option Lifetime) : Ty :=
  let ty := .reference lt kind.mutability (.ofIdent "__Storage")
  if kind.pinned then pinTy ty else ty

/-- The accessor by which the closure in the vtable gets the receiver of the concrete method. -/
def handed : Expr → Option Ident
  | .unsafeBlock (.call _ [.closure _ (.call _ [.call _ (.methodCall _ selfAs [] :: _)])]) =>
    some selfAs
  | _ => none

/-- The accessor by which the impl for `DynObject` gets the storage from its own receiver. -/
def obtained : Expr → Option Ident
  | .unsafeBlock (.call _ (.methodCall _ selfAs [] :: _)) => some selfAs
  | _ => none

def firstInput : Ty → Option Ty
  | .bareFn _ _ (ty :: _) _ => some ty
  | _ => none

/-- The receiver keeps its kind and its lifetime all the way. -/
structure Agrees (method : DispatchableFn) (kind : RefKind) (lt : Option Lifetime) : Prop where
  declared : Receivers.declared method.receiver.ty = some (kind, lt)
  handed : (Receivers.handed (DynObject.vtableMethod method).2).bind accessorKind = some kind
  obtained : (Receivers.obtained (DynObject.implMethod method).block.value).bind accessorKind =
    some kind
  stored : (FnPointers.storedAt (DynObject.vtableMethod method).2).bind firstInput =
    some (storageTy kind lt)
  called : (FnPointers.calledAt (DynObject.implMethod method).block.value).bind firstInput =
    some (storageTy kind lt)

/-- What the macro takes the receiver for. -/
def kindOf : VtableReceiver → RefKind
  | .ref => ⟨false, false⟩
  | .mut => ⟨false, true⟩
  | .pinned => ⟨true, true⟩

variable (method : DispatchableFn)

theorem handed_eq : (handed (DynObject.vtableMethod method).2).bind accessorKind =
    some (kindOf (.new method)) := by
  simp only [DynObject.vtableMethod, handed, Option.bind_some]
  cases VtableReceiver.new method <;> decide

theorem obtained_eq : (obtained (DynObject.implMethod method).block.value).bind accessorKind =
    some (kindOf (.new method)) := by
  simp only [DynObject.implMethod, implMethod, obtained, Option.bind_some]
  cases VtableReceiver.new method <;> decide

theorem storage_eq_storageTy (r : VtableReceiver) (lt : Option Lifetime) :
    r.storage lt = storageTy (kindOf r) lt := by
  cases r <;> rfl

theorem stored_eq : (FnPointers.storedAt (DynObject.vtableMethod method).2).bind firstInput =
    some (storageTy (kindOf (.new method)) method.recvLt) := by
  rw [← storage_eq_storageTy]
  rfl

theorem called_eq :
    (FnPointers.calledAt (DynObject.implMethod method).block.value).bind firstInput =
      some (storageTy (kindOf (.new method)) method.recvLt) := by
  rw [← storage_eq_storageTy]
  rfl

variable {method}

/-- The macro tells the short forms apart as their types do. -/
theorem declared_of_reference (hp : Parsed method.receiver) {lt : Option Lifetime}
    (h : method.receiver.reference = some lt) :
    declared method.receiver.ty = some (kindOf (.new method), method.recvLt) := by
  simp only [Parsed, h] at hp
  have hlt : method.recvLt = lt := by
    unfold DispatchableFn.recvLt
    split <;> simp_all
  have hkind : kindOf (.new method) = ⟨false, method.receiver.mutability⟩ := by
    cases hm : method.receiver.mutability <;> simp [VtableReceiver.new, h, hm, kindOf]
  rw [hp.2, hlt, hkind]
  rfl

/-- Of a typed receiver it takes the mutability for granted. -/
theorem declared_of_pinned (h : method.receiver.reference = none) :
    ∃ r, pinnedRef method.receiver.ty = some r ∧ kindOf (.new method) = ⟨true, true⟩ ∧
      declared method.receiver.ty = some (⟨true, r.mutability⟩, method.recvLt) := by
  obtain ⟨r, hr⟩ := Option.isSome_iff_exists.mp (method.pinnedRef_isSome h)
  have hlt : method.recvLt = r.lifetime := by
    unfold DispatchableFn.recvLt
    split
    · simp_all
    · simp [DispatchableFn.pinned, hr]
  refine ⟨r, hr, by simp [VtableReceiver.new, h, kindOf], ?_⟩
  rw [hlt]
  cases hty : method.receiver.ty with
  | reference lt m elem => simp [hty, pinnedRef, Ty.pathSegments] at hr
  | _ => simp_all [declared]

theorem agrees_of_declared
    (h : declared method.receiver.ty = some (kindOf (.new method), method.recvLt)) :
    Agrees method (kindOf (.new method)) method.recvLt :=
  ⟨h, handed_eq method, obtained_eq method, stored_eq method, called_eq method⟩

/-- No unwrap on a receiver that was let through panics, and the receiver is passed on as it
is declared, exactly if a pinned one is mutable. -/
theorem agrees_iff_mutable (hp : Parsed method.receiver) :
    method.sig.receiver = some method.receiver ∧
      (method.receiver.reference = none → (pinnedRef method.receiver.ty).isSome) ∧
        ((∃ kind lt, Agrees method kind lt) ↔ ∀ r, method.receiver.reference = none →
          pinnedRef method.receiver.ty = some r → r.mutability = true) := by
  refine ⟨(Option.some_get _).symm, method.pinnedRef_isSome, ?_⟩
  cases h : method.receiver.reference with
  | some lt =>
    apply iff_of_true ⟨_, _, agrees_of_declared (declared_of_reference hp h)⟩
    simp
  | none =>
    obtain ⟨r, hr, hkind, hd⟩ := declared_of_pinned h
    constructor
    · rintro ⟨kind, lt, ha⟩ r' - hr'
      obtain rfl := Option.some.inj (hr.symm.trans hr')
      have hk : kind = ⟨true, true⟩ := by
        rw [← hkind]
        exact Option.some.inj (ha.handed.symm.trans (handed_eq method))
      have := hd.symm.trans ha.declared
      simp_all
    · intro hm
      refine ⟨_, _, agrees_of_declared ?_⟩
      rw [hd, hkind, hm r rfl hr]

/-- `fn size(self: Pin<&Self>);`, or with `&mut Self` -/
def size (mutability : Bool) : DispatchableFn where
  attrs := []
  sig := {
    asyncness := false
    unsafety := false
    ident := "size"
    generics := ⟨[], none⟩
    inputs := [.receiver ⟨none, false, true, .path false [.mk "Pin"
      (.angleBracketed [.type (.reference none mutability (.ofIdent "Self"))])]⟩]
    output := .default }
  default := none
  dispatchable := rfl

theorem size_parsed (mutability : Bool) : Parsed (size mutability).receiver :=
  fun h => nomatch h

theorem agrees_iff_mutable_size : ∃ kind lt, Agrees (size true) kind lt := by
  apply (agrees_iff_mutable (size_parsed true)).2.2.mpr
  intro r _ hr
  obtain rfl := Option.some.inj hr
  rfl

/-- A shared pinned receiver gets a mutable reference. -/
theorem size_disagrees : ¬ ∀ method : DispatchableFn, Parsed method.receiver →
    ∃ kind lt, Agrees method kind lt := by
  intro hall
  obtain ⟨kind, lt, ha⟩ := hall (size false) (size_parsed false)
  have hk := ha.handed.symm.trans (handed_eq (size false))
  have hd := ha.declared.symm
  cases Option.some.inj hk
  cases hd

end DynUtils.Macros.Receivers
