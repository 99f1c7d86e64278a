import DynUtils.Syn.Elision
import DynUtils.Macros.DynObject

/-! What the lifetimes that a method elides become in the function pointers of `dyn_object`. -/
namespace DynUtils.Macros.Elision

open Syn

/-- What the compiler knows where the function pointers stand: of the paths that they add, and
that `__Dyn` is what `Self` is. -/
structure Known extends Syn.Known where
  storage : arity ["__Storage"] = 0
  pin : arity ["core", "pin", "Pin"] = 0 ∧ projects ["core", "pin", "Pin"] = false
  dyn : ∀ is, arity (is.map replaceSelfWithDyn.segment) = arity is ∧
    projects (is.map replaceSelfWithDyn.segment) = projects is

/-- The lifetime of the receiver, which the method gives to what is elided in its output. -/
def receiverRegion (method : DispatchableFn) : Region :=
  match method.recvLt with
  | some l => if l.ident = "_" then .anon 0 0 else .named l
  | none => .anon 0 0

/-- The function pointer type is one, and means the lifetimes that the method means. -/
structure Survives (K : Known) (method : DispatchableFn) (newVtable : Bool) : Prop where
  wellFormed : K.WellFormed (vtableFnPointer method newVtable)
  elidesTo : K.ElidesTo (receiverRegion method) (vtableFnPointer method newVtable)

/-- No parameter has a lifetime that could be meant instead of that of the receiver, and none
that is declared stands in the output only. -/
structure Elidable (K : Known) (method : DispatchableFn) : Prop where
  elided : HasElided (K.returnType {} method.sig.output) →
    ∀ t ∈ method.sig.typedInputs, K.ty {} t = []
  constrained : ∀ p ∈ method.sig.generics.lifetimes,
    (∃ o ∈ K.returnType {} method.sig.output, o.lifetime = some p.lifetime) →
      receiverRegion method = .named p.lifetime ∨
        ∃ t ∈ method.sig.typedInputs, ⟨some p.lifetime, true⟩ ∈ K.ty {} t
  noImplTrait : ∀ n ∈ nodesTys 0 method.sig.typedInputs ++ method.sig.output.nodes 0,
    n.2 ≠ .implTrait

variable {K : Known} {method : DispatchableFn}

theorem blind (K : Known) : K.Blind replaceSelfWithDyn where
  lifetime _ := rfl
  reference _ := by
    funext l
    cases l <;> rfl
  lifetimeParam _ := rfl
  arity is := (K.dyn is).1
  projects is := (K.dyn is).2

/-- The storage has the lifetime of the receiver, and no other. -/
theorem ty_storage (K : Known) (r : VtableReceiver) (lt : Option Lifetime) :
    K.ty {} (r.storage lt) = ({} : Around).occ lt := by
  cases r <;>
    simp [VtableReceiver.storage, pinTy, Ty.ofIdent, PathSegment.plain, Syn.Known.ty,
      Syn.Known.hidden, Syn.Known.segments, Syn.Known.arguments, Syn.Known.genericArgs,
      Syn.Known.genericArg, PathSegment.writesLifetime, PathSegment.arguments, PathSegment.ident,
      GenericArgument.isLifetime, K.storage, K.pin, Around.through]

theorem occ_recvLt (method : DispatchableFn) : ∃ o : Occ, o.constrained = true ∧
    ({} : Around).occ method.recvLt = [o] ∧ o.region 0 0 = receiverRegion method := by
  unfold receiverRegion
  cases method.recvLt with
  | none => exact ⟨⟨none, true⟩, rfl, rfl, rfl⟩
  | some l =>
    by_cases hl : l.ident = "_"
    · exact ⟨⟨none, true⟩, rfl, by simp [Around.occ, Around.elided, hl], by simp [hl, Occ.region]⟩
    · exact ⟨⟨some l, true⟩, rfl, by simp [Around.occ, hl], by simp [hl, Occ.region]⟩

theorem regions_storage (K : Known) (method : DispatchableFn) :
    K.regions 0 ((VtableReceiver.new method).storage method.recvLt) = [receiverRegion method] := by
  obtain ⟨o, -, ho, hr⟩ := occ_recvLt method
  simp [Syn.Known.regions, ty_storage, ho, hr]

/-- The storage constrains the lifetime of the receiver. -/
theorem mem_ty_storage (K : Known) (method : DispatchableFn) (l : Lifetime) :
    ⟨some l, true⟩ ∈ K.ty {} ((VtableReceiver.new method).storage method.recvLt) ↔
      receiverRegion method = .named l := by
  obtain ⟨⟨lt, constrained⟩, hc, ho, hr⟩ := occ_recvLt method
  obtain rfl : constrained = true := hc
  rw [ty_storage, ho, ← hr, List.mem_singleton]
  cases lt <;> simp [Occ.region, eq_comm]

/-- The type of a parameter, or the output, of either function pointer. -/
theorem ty_param (K : Known) (newVtable : Bool) (t : Ty) :
    K.ty {} (if newVtable then replaceSelfWithDyn.ty 0 t else t) = K.ty {} t := by
  cases newVtable with
  | true => exact Syn.Known.ty_visited (blind K) 0 {} t
  | false => rfl

theorem returnType_output (K : Known) (newVtable : Bool) (r : ReturnType) :
    K.returnType {} (if newVtable then replaceSelfWithDyn.returnType 0 r else r) =
      K.returnType {} r := by
  cases newVtable with
  | true => exact Syn.Known.returnType_visited (blind K) 0 {} r
  | false => rfl

theorem node_implTrait (v : VisitMut) (n : ℕ × Node) :
    (v.node n).2 = .implTrait ↔ n.2 = .implTrait := by
  obtain ⟨d, n⟩ := n
  cases n <;> simp [VisitMut.node]

theorem noImplTrait_iff (newVtable : Bool) (ts : List Ty) (r : ReturnType) (storage : Ty)
    (hs : ∀ n ∈ storage.nodes 0 .type, n.2 ≠ .implTrait) :
    (∀ n ∈ nodesTys 0 (storage :: ts.map fun t =>
          if newVtable then replaceSelfWithDyn.ty 0 t else t) ++
        (if newVtable then replaceSelfWithDyn.returnType 0 r else r).nodes 0,
        n.2 ≠ .implTrait) ↔
      ∀ n ∈ nodesTys 0 ts ++ r.nodes 0, n.2 ≠ .implTrait := by
  cases newVtable with
  | false =>
    simp only [Bool.false_eq_true, if_false, List.map_id', nodesTys, List.mem_append, or_imp,
      forall_and]
    exact and_congr_left fun _ => and_iff_right hs
  | true =>
    have hts : ts.map (replaceSelfWithDyn.ty 0) = replaceSelfWithDyn.tys 0 ts := by
      induction ts with
      | nil => rfl
      | cons t ts ih => simp [VisitMut.tys, ih]
    simp only [if_true, hts, nodesTys, VisitMut.nodes_tys, VisitMut.nodes_returnType,
      List.mem_append, List.mem_map, or_imp, forall_and, forall_exists_index, and_imp,
      forall_apply_eq_imp_iff₂, ne_eq, node_implTrait]
    exact and_congr_left fun _ => and_iff_right hs

theorem nodes_storage (r : VtableReceiver) (lt : Option Lifetime) :
    ∀ n ∈ (r.storage lt).nodes 0 .type, n.2 ≠ .implTrait := by
  cases r <;> simp [VtableReceiver.storage, pinTy, Ty.ofIdent, PathSegment.plain, Ty.nodes,
    nodesSegments, PathArguments.nodes, nodesArgs, GenericArgument.nodes]

/-- The function pointer with `for<..>` has to constrain what is declared there. -/
theorem survives_iff (K : Known) (method : DispatchableFn) (newVtable : Bool) :
    Survives K method newVtable ↔
      (HasElided (K.returnType {} method.sig.output) →
        ∀ t ∈ method.sig.typedInputs, K.ty {} t = []) ∧
      (newVtable = true → ∀ p ∈ method.sig.generics.lifetimes,
        (∃ o ∈ K.returnType {} method.sig.output, o.lifetime = some p.lifetime) →
          receiverRegion method = .named p.lifetime ∨
            ∃ t ∈ method.sig.typedInputs, ⟨some p.lifetime, true⟩ ∈ K.ty {} t) ∧
      ∀ n ∈ nodesTys 0 method.sig.typedInputs ++ method.sig.output.nodes 0, n.2 ≠ .implTrait := by
  let params := method.sig.typedInputs.map fun t =>
    if newVtable then replaceSelfWithDyn.ty 0 t else t
  let storage := (VtableReceiver.new method).storage method.recvLt
  have helided : K.elidedRegion (storage :: params) =
      if ∀ t ∈ method.sig.typedInputs, K.ty {} t = [] then some (receiverRegion method)
      else none := by
    have hcons : K.elidedRegion (storage :: params) = _ :=
      K.elidedRegion_cons (regions_storage K method)
    simpa only [params, List.forall_mem_map, ty_param] using hcons
  have hout := returnType_output K newVtable method.sig.output
  have himpl := noImplTrait_iff newVtable method.sig.typedInputs method.sig.output storage
    (nodes_storage (.new method) method.recvLt)
  have hconstrained : ∀ l, (∃ t ∈ storage :: params, ⟨some l, true⟩ ∈ K.ty {} t) ↔
      receiverRegion method = .named l ∨
        ∃ t ∈ method.sig.typedInputs, ⟨some l, true⟩ ∈ K.ty {} t := by
    simp only [List.exists_mem_cons_iff, storage, mem_ty_storage, params, List.mem_map,
      exists_exists_and_eq_and, ty_param, implies_true]
  constructor
  · rintro ⟨⟨-, hc, hi⟩, he⟩
    refine ⟨?_, ?_, himpl.mp hi⟩
    · intro h
      have hr := he (by rwa [hout])
      rw [helided] at hr
      by_contra hne
      rw [if_neg hne] at hr
      cases hr
    · intro hn p hp ho
      subst hn
      refine (hconstrained p.lifetime).mp (hc ⟨p.lifetime, []⟩ ?_ (by rwa [hout]))
      exact List.mem_map.mpr ⟨p, hp, rfl⟩
  · rintro ⟨he, hc, hi⟩
    have hr : HasElided (K.returnType {} method.sig.output) →
        K.elidedRegion (storage :: params) = some (receiverRegion method) := fun h => by
      rw [helided, if_pos (he h)]
    refine ⟨⟨?_, ?_, himpl.mpr hi⟩, fun h => hr (by rwa [hout] at h)⟩
    · intro h
      rw [hr (by rwa [hout] at h)]
      rfl
    · intro p hp ho
      cases newVtable with
      | false => cases hp
      | true =>
        obtain ⟨q, hq, rfl⟩ := List.mem_map.mp hp
        exact (hconstrained q.lifetime).mpr (hc rfl q hq (by rwa [hout] at ho))

/-- Elision comes through both function pointers exactly if nothing can be taken for what the
receiver stands for. -/
theorem survives_iff_elidable (K : Known) (method : DispatchableFn) :
    (∀ newVtable, Survives K method newVtable) ↔ Elidable K method := by
  constructor
  · intro h
    obtain ⟨he, hc, hi⟩ := (survives_iff K method true).mp (h true)
    exact ⟨he, hc rfl, hi⟩
  · rintro ⟨he, hc, hi⟩ newVtable
    exact (survives_iff K method newVtable).mpr ⟨he, fun _ => hc, hi⟩

/-- `fn get(&self, key: &str) -> &str;` -/
def get : DispatchableFn where
  attrs := []
  sig := {
    asyncness := false
    unsafety := false
    ident := "get"
    generics := ⟨[], none⟩
    inputs := [.receiver ⟨some none, false, false, .reference none false (.ofIdent "Self")⟩,
      .typed (.ident false false "key" none) (.reference none false (.ofIdent "str"))]
    output := .type (.reference none false (.ofIdent "str")) }
  default := none
  dispatchable := rfl

/-- No path hides lifetimes, or is a projection. -/
def plainPaths : Known where
  arity _ := 0
  projects _ := false
  storage := rfl
  pin := ⟨rfl, rfl⟩
  dyn _ := ⟨rfl, rfl⟩

/-- The result could borrow from the key as well. -/
theorem get_not_survives : ¬ ∀ (K : Known) (method : DispatchableFn) (newVtable : Bool),
    Survives K method newVtable := by
  intro h
  obtain ⟨he, -⟩ := (survives_iff plainPaths get true).mp (h plainPaths get true)
  have hkey := he ⟨⟨none, true⟩, by decide, rfl⟩ (.reference none false (.ofIdent "str"))
    (by simp [get, Signature.typedInputs])
  simp [Syn.Known.ty, Around.occ, Around.elided] at hkey

end DynUtils.Macros.Elision
