import DynUtils.Macros.DynTraitSpec

/-! Which lifetimes `CapturedLifetimes` rewrites, and whose they are. -/
namespace DynUtils.Macros.Binders

open Syn

/-- The rewriting that stops at binders: `'_` and omitted lifetimes are those of the method
only outside of function pointers and parenthesized arguments, and what a `for<..>`
declares never is. -/
def outermost (captured : CapturedLifetimes) : VisitMut where
  lifetime d l := if d = 0 then captured.visitLifetime l else l
  reference d l := if d = 0 then some (captured.visitLifetime (l.getD defaultLt)) else l

/-- The same type with every omitted lifetime written as `'_`. -/
def written : VisitMut where
  reference _ l := some (l.getD defaultLt)

def argTy : FnArg → Ty
  | .receiver r => r.ty
  | .typed _ ty => ty

def outermostFnArg (captured : CapturedLifetimes) : FnArg → FnArg
  | .receiver r => .receiver { captured.visitReceiver r with ty := (outermost captured).ty 0 r.ty }
  | .typed pat ty => .typed pat ((outermost captured).ty 0 ty)

def writtenFnArg : FnArg → FnArg
  | .receiver r => .receiver { r with
      reference := r.reference.map fun l => some (l.getD defaultLt)
      ty := written.ty 0 r.ty }
  | .typed pat ty => .typed pat (written.ty 0 ty)

/-- What `update_dyn_signature` would give if it respected binders. -/
def outermostSignature (crate : Path) (traitGenerics : List Ident) (sig : Signature)
    (rpit : List TypeParamBound) (storage : Ident) : Signature :=
  let captured := CapturedLifetimes.new rpit sig.generics
  let dynRet := Ty.traitObject
    ((outermost captured).bounds 0 (rpit.filter (·.isTrait)) ++ [.lifetime dynLt])
  { DynMethod.updateDynSignature crate traitGenerics sig rpit storage with
    inputs := sig.inputs.map (outermostFnArg captured)
    output := .type ((crate.join ["DynObject"]).withArgs
      [.type dynRet, .type (.ofIdent storage)]).toTy }

def writtenSignature (sig : Signature) : Signature :=
  { sig with
    inputs := sig.inputs.map writtenFnArg
    output := written.returnType 0 sig.output }

/-- The node is not one that a binder keeps away from the method. -/
def Outer (captures : Lifetime → Prop) : ℕ × Node → Prop
  | (d, .lifetime l) => d = 0 ∨ l ≠ defaultLt ∨ ¬ captures defaultLt
  | (d, .reference l) => d = 0 ∨ l.getD defaultLt ≠ defaultLt ∨ ¬ captures defaultLt
  | (_, .lifetimeParam p) => ¬ captures p.lifetime
  | (_, .path _ _) | (_, .implTrait) => True

instance (captures : Lifetime → Prop) [DecidablePred captures] : DecidablePred (Outer captures)
  | (_, .lifetime _) | (_, .reference _) => inferInstanceAs (Decidable (_ ∨ _ ∨ ¬ _))
  | (_, .lifetimeParam p) => inferInstanceAs (Decidable (¬ captures p.lifetime))
  | (_, .path _ _) | (_, .implTrait) => isTrue trivial

section
variable (captured : CapturedLifetimes)

theorem visitLifetime_eq_self {l : Lifetime} :
    captured.visitLifetime l = l ↔ l ≠ defaultLt ∨ defaultLt ∉ captured.captured := by
  unfold CapturedLifetimes.visitLifetime
  by_cases hl : l = defaultLt
  · subst hl
    simp [dynLt, defaultLt]
  · simp [hl]

theorem visitLifetimeParam_eq_self {p : LifetimeParam} :
    captured.visitLifetimeParam p = p ↔ p.lifetime ∉ captured.captured := by
  unfold CapturedLifetimes.visitLifetimeParam
  split
  · rename_i h
    simp only [h, not_true_eq_false, iff_false]
    intro hp
    simpa using congrArg (·.bounds.length) hp
  · simpa

/-- Node by node, the two ways of rewriting differ under binders only. -/
theorem agree_node (n : ℕ × Node) :
    (written.comp captured.visitor).node n = (written.comp (outermost captured)).node n ↔
      Outer (· ∈ captured.captured) n := by
  obtain ⟨d, n⟩ := n
  cases n with
  | lifetime l =>
    by_cases hd : d = 0 <;>
      simp [VisitMut.node, Outer, outermost, CapturedLifetimes.visitor, written, hd,
        visitLifetime_eq_self]
  | reference l =>
    by_cases hd : d = 0 <;>
      simp [VisitMut.node, Outer, outermost, CapturedLifetimes.visitor, written, hd,
        visitLifetime_eq_self]
  | lifetimeParam p =>
    simp [VisitMut.node, Outer, outermost, CapturedLifetimes.visitor, written,
      visitLifetimeParam_eq_self]
  | path use idents => simp [VisitMut.node, Outer, outermost, CapturedLifetimes.visitor]
  | implTrait => simp [VisitMut.node, Outer]

theorem written_ty_eq_iff (t : Ty) :
    written.ty 0 (captured.visitor.ty 0 t) = written.ty 0 ((outermost captured).ty 0 t) ↔
      ∀ n ∈ t.nodes 0 .type, Outer (· ∈ captured.captured) n := by
  rw [← VisitMut.comp_ty, ← VisitMut.comp_ty, VisitMut.ty_eq_iff _ _ _ .type]
  exact forall₂_congr fun n _ => agree_node captured n

theorem written_bounds_eq_iff (bs : List TypeParamBound) :
    written.bounds 0 (captured.visitor.bounds 0 bs) =
        written.bounds 0 ((outermost captured).bounds 0 bs) ↔
      ∀ n ∈ nodesBounds 0 bs, Outer (· ∈ captured.captured) n := by
  rw [← VisitMut.comp_bounds, ← VisitMut.comp_bounds, VisitMut.bounds_eq_iff]
  exact forall₂_congr fun n _ => agree_node captured n

theorem written_fnArg_eq_iff (arg : FnArg) :
    writtenFnArg (captured.visitFnArg arg) = writtenFnArg (outermostFnArg captured arg) ↔
      ∀ n ∈ (argTy arg).nodes 0 .type, Outer (· ∈ captured.captured) n := by
  cases arg with
  | receiver r =>
    simp [CapturedLifetimes.visitFnArg, CapturedLifetimes.visitReceiver, outermostFnArg,
      writtenFnArg, argTy, written_ty_eq_iff]
  | typed pat ty =>
    simp [CapturedLifetimes.visitFnArg, outermostFnArg, writtenFnArg, argTy, written_ty_eq_iff]

/-- The trait object that is returned. -/
theorem written_dynRet_eq_iff (crate : Path) (ident storage : Ident) (bs : List TypeParamBound) :
    written.ty 0 ((crate.join [ident]).withArgs [.type (.traitObject
          (captured.visitor.bounds 0 bs ++ [.lifetime dynLt])), .type (.ofIdent storage)]).toTy =
        written.ty 0 ((crate.join [ident]).withArgs [.type (.traitObject
          ((outermost captured).bounds 0 bs ++ [.lifetime dynLt])), .type (.ofIdent storage)]).toTy ↔
      ∀ b ∈ bs, ∀ n ∈ b.nodes 0, Outer (· ∈ captured.captured) n := by
  have hb : (∀ b ∈ bs, ∀ n ∈ b.nodes 0, Outer (· ∈ captured.captured) n) ↔
      ∀ n ∈ nodesBounds 0 bs, Outer (· ∈ captured.captured) n := by
    simp only [mem_nodesBounds]
    exact ⟨fun h n ⟨b, hb, hn⟩ => h b hb n hn, fun h b hb n hn => h n ⟨b, hb, hn⟩⟩
  rw [hb, ← written_bounds_eq_iff]
  simp [Path.toTy, VisitMut.ty, VisitMut.segments_append, VisitMut.segments, VisitMut.arguments,
    VisitMut.genericArgs, VisitMut.genericArg, VisitMut.bounds_append]

end

section
variable {casing : Casing} {crate : Path} {traitGenerics : List Ident} {method : TraitItemFn}
  {rpit : List TypeParamBound}

/-- A converted method is rewritten inside of binders exactly if something elided, or declared
again, stands there. -/
theorem written_eq_iff_outer
    (h : returnImplTrait (DynMethod.convertAsync method.sig) = some rpit) :
    writtenSignature (DynMethod.new casing crate traitGenerics method).dynMethod.sig =
        writtenSignature (outermostSignature crate traitGenerics
          (DynMethod.convertAsync method.sig) rpit
          ("__Storage" ++ casing.toPascalCase method.sig.ident)) ↔
      (∀ arg ∈ method.sig.inputs, ∀ n ∈ (argTy arg).nodes 0 .type,
        Outer (Captures rpit method.sig.generics) n) ∧
      ∀ b ∈ rpit, b.isTrait = true → ∀ n ∈ b.nodes 0,
        Outer (Captures rpit method.sig.generics) n := by
  have hty : ∀ arg, argTy (PatternAsArg.visitFnArg arg) = argTy arg := by
    intro arg
    cases arg <;> rfl
  rw [DynMethod.new_sig h]
  simp only [writtenSignature, outermostSignature, DynMethod.updateDynSignature, DynMethod.dynRet,
    Signature.mk.injEq, true_and, VisitMut.returnType, ReturnType.type.injEq,
    DynMethod.convertAsync_generics, written_dynRet_eq_iff, DynMethod.convertAsync_inputs,
    List.map_map, List.map_inj_left, Function.comp_apply, written_fnArg_eq_iff, hty,
    mem_captured]
  simp [and_imp]

end

/-- `fn call(&self, f: &dyn Fn(#arg)) -> impl Future<Output = ()>;` -/
def call (arg : Ty) : TraitItemFn where
  attrs := []
  sig := {
    asyncness := false
    unsafety := false
    ident := "call"
    generics := ⟨[], none⟩
    inputs := [.receiver ⟨some none, false, false, .reference none false (.ofIdent "Self")⟩,
      .typed (.ident false false "f" none) (.reference none false
        (.traitObject [.trait false [] false [.mk "Fn" (.parenthesized [arg] .default)]]))]
    output := .type (implFuture (.tuple [])) }
  default := none

/-- The bounds of `call`, and the storage that it asks for. -/
def callBounds : List TypeParamBound :=
  [.trait false [] false [.mk "Future" (.angleBracketed [.assocType "Output" [] (.tuple [])])]]

/-- Nothing is elided in `&dyn Fn(u8)` but the lifetime of the reference. -/
theorem written_eq_iff_outer_u8 :
    writtenSignature (DynMethod.new .ascii crateName [] (call (.ofIdent "u8"))).dynMethod.sig =
      writtenSignature (outermostSignature crateName [] (call (.ofIdent "u8")).sig callBounds
        "__StorageCall") := by
  have h : returnImplTrait (DynMethod.convertAsync (call (.ofIdent "u8")).sig) =
      some callBounds := rfl
  exact (written_eq_iff_outer h).mpr ⟨by decide, by decide⟩

/-- The lifetime of the argument of `Fn(&str)` is replaced too. -/
theorem call_rewrites_binder : ¬ ∀ (casing : Casing) (crate : Path) (traitGenerics : List Ident)
    (method : TraitItemFn) (rpit : List TypeParamBound),
    returnImplTrait (DynMethod.convertAsync method.sig) = some rpit →
      writtenSignature (DynMethod.new casing crate traitGenerics method).dynMethod.sig =
        writtenSignature (outermostSignature crate traitGenerics
          (DynMethod.convertAsync method.sig) rpit
          ("__Storage" ++ casing.toPascalCase method.sig.ident)) := by
  intro h
  have hs := congrArg Signature.inputs
    (h .ascii crateName [] (call (.reference none false (.ofIdent "str"))) callBounds rfl)
  have hr : returnImplTrait (DynMethod.convertAsync
      (call (.reference none false (.ofIdent "str"))).sig) = some callBounds := rfl
  rw [DynMethod.new_sig hr] at hs
  simp [writtenSignature, outermostSignature, DynMethod.updateDynSignature,
    written_fnArg_eq_iff, call, PatternAsArg.visitFnArg, argTy, Ty.nodes, nodesBounds,
    TypeParamBound.nodes, nodesSegments, PathArguments.nodes, nodesTys, ReturnType.nodes,
    Ty.ofIdent, PathSegment.plain, Outer, mem_captured, Captures, preciseCapture, callBounds] at hs

end DynUtils.Macros.Binders
