import DynUtils.Macros.DynTraitSpec
import DynUtils.Syn.DynCompatible

/-! Which methods `dyn_trait` lets through to the generated trait. -/
namespace DynUtils.Macros.Filtering

open Syn

/-- No trait among the bounds mentions what a trait object cannot. -/
def BoundsConvertible (rpit : List TypeParamBound) : Prop :=
  ∀ b ∈ rpit, b.isTrait → ¬ Offends (b.nodes 0)

/-- The result is one that a trait object can give, after the conversion of an `impl Trait`
or an async method. The path to the crate is written into the result of these. -/
def OutputConvertible (crate : Path) (sig : Signature) : Prop :=
  if sig.asyncness then
    ¬ Offends (nodesSegments 0 crate.segments) ∧ ∀ t ∈ returnType sig, t.DynCompatible
  else
    match returnImplTrait sig with
    | some rpit => ¬ Offends (nodesSegments 0 crate.segments) ∧ BoundsConvertible rpit
    | none => ∀ t ∈ returnType sig, t.DynCompatible

/-- The method is left out of the trait object, or nothing in its types is in the way. -/
def Convertible (crate : Path) (sig : Signature) : Prop :=
  sig.generics.selfSized = true ∨
    (∀ t ∈ sig.typedInputs, t.DynCompatible) ∧ OutputConvertible crate sig

section
variable {sig : Signature} {crate : Path} {captured : CapturedLifetimes}

theorem offends_bounds (d : ℕ) (bs : List TypeParamBound) :
    Offends (nodesBounds d bs) ↔ ∃ b ∈ bs, Offends (b.nodes d) := by
  simp only [Offends, mem_nodesBounds]
  constructor
  · rintro ⟨n, ⟨b, hb, hn⟩, ho⟩
    exact ⟨b, hb, n, hn, ho⟩
  · rintro ⟨b, hb, n, hn, ho⟩
    exact ⟨n, ⟨b, hb, hn⟩, ho⟩

/-- A type of the crate offends through the path to the crate or through its arguments. -/
theorem offends_apply {ident : Ident} (hi : ident ≠ "Self") (args : List GenericArgument) :
    Offends (((crate.join [ident]).withArgs args).toTy.nodes 0 .type) ↔
      Offends (nodesSegments 0 crate.segments) ∨ Offends (nodesArgs 0 args) := by
  simp [Path.toTy, Ty.nodes, nodesSegments_append, nodesSegments, PathArguments.nodes,
    PathSegment.ident, List.append_eq_singleton_iff, hi]

theorem visitor_segment (i : Ident) : captured.visitor.segment i = i := rfl

theorem dynCompatible_visitor (t : Ty) :
    (captured.visitor.ty 0 t).DynCompatible ↔ t.DynCompatible := by
  rw [Ty.DynCompatible, VisitMut.nodes_ty, offends_map_node visitor_segment, Ty.DynCompatible]

theorem storage_ne_self (name : String) : "__Storage" ++ name ≠ "Self" := by
  intro h
  simpa using congrArg String.toList h

/-- The trait object that is returned for an `impl Trait`. -/
theorem offends_dynRet (rpit : List TypeParamBound) :
    Offends ((DynMethod.dynRet captured rpit).nodes 0 .type) ↔ ¬ BoundsConvertible rpit := by
  simp [DynMethod.dynRet, Ty.nodes, nodesBounds_append, VisitMut.nodes_bounds,
    offends_map_node visitor_segment, offends_bounds, nodesBounds, TypeParamBound.nodes,
    BoundsConvertible, and_assoc]

section
variable {traitGenerics : List Ident} {rpit : List TypeParamBound} {storage : Ident}

/-- The clauses that are added bound lifetimes. -/
theorem updateDynSignature_selfSized :
    (DynMethod.updateDynSignature crate traitGenerics sig rpit storage).generics.selfSized =
      sig.generics.selfSized := by
  simp [DynMethod.updateDynSignature, Generics.selfSized, Generics.extendWhere]

theorem isLifetime_visitGenericParam (p : GenericParam) :
    (captured.visitGenericParam p).isLifetime = p.isLifetime := by
  cases p <;> rfl

theorem updateDynSignature_lifetimes_only (h : sig.generics.params.all (·.isLifetime) = true) :
    (DynMethod.updateDynSignature crate traitGenerics sig rpit storage).generics.params.all
      (·.isLifetime) = true := by
  simp only [DynMethod.updateDynSignature, Generics.extendWhere, List.all_cons, List.all_map,
    Function.comp_def, isLifetime_visitGenericParam, h]
  rfl

theorem updateDynSignature_output {name : String} {t : Ty}
    (h : (DynMethod.updateDynSignature crate traitGenerics sig rpit
      ("__Storage" ++ name)).output = .type t) :
    t.DynCompatible ↔ ¬ Offends (nodesSegments 0 crate.segments) ∧ BoundsConvertible rpit := by
  cases h
  rw [Ty.DynCompatible, offends_apply (by decide)]
  simp [nodesArgs, GenericArgument.nodes, offends_dynRet, Ty.ofIdent, Ty.nodes, nodesSegments,
    PathSegment.plain, PathArguments.nodes, PathSegment.ident, storage_ne_self]

/-- A method that is converted offends where its arguments or its bounds do. -/
theorem updateDynSignature_dynCompatible {name : String}
    (hp : sig.generics.params.all (·.isLifetime) = true) (ha : sig.asyncness = false) :
    (DynMethod.updateDynSignature crate traitGenerics sig rpit
        ("__Storage" ++ name)).DynCompatible ↔
      sig.generics.selfSized = true ∨ (∀ t ∈ sig.typedInputs, t.DynCompatible) ∧
        ¬ Offends (nodesSegments 0 crate.segments) ∧ BoundsConvertible rpit := by
  rw [Signature.DynCompatible, Signature.dispatchable_iff, updateDynSignature_selfSized]
  simp only [DynMethod.updateDynSignature_typedInputs, List.forall_mem_map, dynCompatible_visitor,
    updateDynSignature_lifetimes_only hp, true_and]
  refine or_congr_right ⟨?_, ?_⟩
  · rintro ⟨-, hi, ho⟩
    obtain ⟨t, ht⟩ : ∃ t, (DynMethod.updateDynSignature crate traitGenerics sig rpit
      ("__Storage" ++ name)).output = .type t := ⟨_, rfl⟩
    exact ⟨hi, (updateDynSignature_output ht).mp (ho t ht)⟩
  · rintro ⟨hi, ho⟩
    exact ⟨ha, hi, fun t ht => (updateDynSignature_output ht).mpr ho⟩

end

/-- A method that is not converted offends where its types do. -/
theorem dynCompatible_plain (hp : sig.generics.params.all (·.isLifetime) = true)
    (ha : sig.asyncness = false) :
    sig.DynCompatible ↔ sig.generics.selfSized = true ∨
      (∀ t ∈ sig.typedInputs, t.DynCompatible) ∧ ∀ t ∈ returnType sig, t.DynCompatible := by
  rw [Signature.DynCompatible, Signature.dispatchable_iff]
  simp only [hp, ha, true_and, mem_returnType]

/-- A future offends where its output does. -/
theorem boundsConvertible_future (t : Ty) : BoundsConvertible
    [.trait false [] false [.mk "Future" (.angleBracketed [.assocType "Output" [] t])]] ↔
      t.DynCompatible := by
  simp [BoundsConvertible, TypeParamBound.isTrait, TypeParamBound.nodes, nodesSegments,
    PathArguments.nodes, nodesArgs, GenericArgument.nodes, Ty.DynCompatible]

/-- The method of the generated trait, before `maybe_sync`. -/
theorem new_dynCompatible (casing : Casing) (traitGenerics : List Ident) (method : TraitItemFn)
    (hp : method.sig.generics.params.all (·.isLifetime) = true) :
    (DynMethod.new casing crate traitGenerics method).dynMethod.sig.DynCompatible ↔
      Convertible crate method.sig := by
  have hp' : (DynMethod.convertAsync method.sig).generics.params.all (·.isLifetime) = true := by
    simpa using hp
  simp only [DynMethod.new]
  cases ha : method.sig.asyncness with
  | true =>
    have hr : returnImplTrait (DynMethod.convertAsync method.sig) = some [.trait false [] false
        [.mk "Future" (.angleBracketed [.assocType "Output" []
          ((returnType method.sig).getD (.tuple []))])]] := by
      simp [returnImplTrait_eq_some, DynMethod.convertAsync_async ha, implFuture]
    have hunit : (Ty.tuple []).DynCompatible := by simp [Ty.DynCompatible, Ty.nodes, nodesTys]
    simp only [hr]
    rw [updateDynSignature_dynCompatible hp' (by simp), boundsConvertible_future]
    cases hout : returnType method.sig <;>
      simp [Convertible, OutputConvertible, ha, hout, hunit]
  | false =>
    have hr : returnImplTrait (DynMethod.convertAsync method.sig) = returnImplTrait method.sig := by
      simp [DynMethod.convertAsync_plain ha, returnImplTrait, returnType]
    simp only [hr]
    cases hi : returnImplTrait method.sig with
    | some rpit =>
      simp only []
      rw [updateDynSignature_dynCompatible hp' (by simp)]
      simp [Convertible, OutputConvertible, ha, hi]
    | none =>
      have ho : returnType (DynMethod.convertAsync method.sig) = returnType method.sig := by
        simp [DynMethod.convertAsync_plain ha, returnType]
      simp only []
      rw [dynCompatible_plain hp' (by simp)]
      simp [Convertible, OutputConvertible, ha, hi, ho]

/-- A result of a type of the crate can be wrapped in another one. -/
theorem wrap_dynCompatible {ident : Ident} (hi : ident ≠ "Self") {t : Ty}
    (ht : sig.output = .type t) (hc : t.DynCompatible → ¬ Offends (nodesSegments 0 crate.segments)) :
    Signature.DynCompatible { sig with
      output := .type ((crate.join [ident]).withArgs [.type t]).toTy } ↔ sig.DynCompatible := by
  have hw : (((crate.join [ident]).withArgs [.type t]).toTy).DynCompatible ↔ t.DynCompatible := by
    rw [Ty.DynCompatible, offends_apply hi]
    simpa [nodesArgs, GenericArgument.nodes, Ty.DynCompatible] using hc
  simp only [Signature.DynCompatible, Signature.dispatchable_iff, ht, ReturnType.type.injEq,
    forall_eq', hw]
  rfl

/-- Being wrapped in `MaybeSync` changes nothing for a method that is converted. -/
theorem maybeSync_dynCompatible {casing : Casing} {traitGenerics : List Ident}
    {method syncMethod maybeSyncMethod : TraitItemFn}
    (hs : (DynMethod.new casing crate traitGenerics method).syncMethod = .ok syncMethod)
    (hm : (DynMethod.new casing crate traitGenerics method).maybeSyncMethod =
      .ok maybeSyncMethod) :
    maybeSyncMethod.sig.DynCompatible ↔
      (DynMethod.new casing crate traitGenerics method).dynMethod.sig.DynCompatible := by
  obtain ⟨rpit, -, hr, -⟩ := DynMethod.syncMethod_ok hs
  obtain ⟨sig', hsig, h⟩ := Machine.bind_ok.mp hm
  obtain rfl := Machine.pure_ok.mp h
  obtain ⟨t, ht, rfl⟩ := DynMethod.maybeSyncSignature_ok hsig
  apply wrap_dynCompatible (by decide) ht
  intro hc
  rw [DynMethod.new_sig hr] at ht
  exact ((updateDynSignature_output ht).mp hc).1

/-- What one method is made into. -/
theorem convertMethod_dynCompatible {casing : Casing} {base : DynTrait} {method : TraitItemFn}
    {out : ItemOutput} (hd : isDispatchable method = true)
    (h : base.convertMethod casing method = .ok out) :
    ∃ g, out.dynItems = [.fn g] ∧ (g.sig.DynCompatible ↔ Convertible base.crate method.sig) := by
  obtain ⟨attrs, method', hp, h⟩ := DynTrait.convertMethod_ok h
  have hl : method'.sig.generics.params.all (·.isLifetime) = true := by
    rw [isDispatchable, Bool.and_eq_true] at hd
    rw [MethodAttrs.parse_sig hp]
    exact hd.2
  have hc : (base.dynMethod casing method').dynMethod.sig.DynCompatible ↔
      Convertible base.crate method'.sig := new_dynCompatible casing base.traitGenerics method' hl
  rw [MethodAttrs.parse_sig hp] at hc
  rcases h with ⟨-, rfl⟩ | ⟨-, syncMethod, _, _, maybeSyncMethod, hs, -, -, hm, rfl⟩
  · exact ⟨_, rfl, hc⟩
  · exact ⟨_, rfl, (maybeSync_dynCompatible hs hm).trans hc⟩

/-- Everything in the generated trait is dyn-compatible exactly if every method that the
filter lets through is convertible. -/
theorem dynCompatible_iff_convertible {casing : Casing} {trait : ItemTrait} {opts : DynTraitOpts}
    {out : DynTraitOutput} (h : dynTraitImpl casing trait opts = .ok out) :
    (∀ m, .fn m ∈ out.dynTrait.items → m.sig.DynCompatible) ↔
      ∀ m, .fn m ∈ trait.items → isDispatchable m = true →
        Convertible (opts.crate.getD crateName) m.sig := by
  obtain ⟨outs, ho, hitems, -⟩ := dynTraitImpl_ok h
  rw [hitems]
  constructor
  · intro hall m hm hd
    obtain ⟨o, hmem, hc⟩ := Machine.exists_right_of_forall₂ ho hm
    simp only [DynTrait.convertItem, hd, if_true] at hc
    obtain ⟨g, hg, hiff⟩ := convertMethod_dynCompatible hd hc
    exact hiff.mp (hall g (List.mem_flatMap.mpr ⟨o, hmem, by simp [hg]⟩))
  · intro hall g hg
    obtain ⟨o, hmem, hgo⟩ := List.mem_flatMap.mp hg
    obtain ⟨item, hi, hc⟩ := Machine.exists_left_of_forall₂ ho hmem
    obtain ⟨method, rfl, hd, hc⟩ := DynTrait.convertItem_fn hc (Or.inl ⟨g, hgo⟩)
    obtain ⟨g', hg', hiff⟩ := convertMethod_dynCompatible hd hc
    obtain rfl : g = g' := by simpa [hg'] using hgo
    exact hiff.mpr (hall method hi hd)

end

/-- `trait Job { fn run(&self, arg: #arg) -> #output; }` -/
def job (arg output : Ty) : ItemTrait where
  attrs := []
  unsafety := false
  ident := "Job"
  generics := ⟨[], none⟩
  colon := false
  supertraits := []
  items := [.fn {
    attrs := []
    sig := {
      asyncness := false
      unsafety := false
      ident := "run"
      generics := ⟨[], none⟩
      inputs := [.receiver ⟨some none, false, false, .reference none false (.ofIdent "Self")⟩,
        .typed (.ident false false "arg" none) arg]
      output := .type output }
    default := none }]

/-- A future of a `u8` is converted. -/
theorem dynCompatible_iff_convertible_future : ∃ out,
    dynTraitImpl .ascii (job (.ofIdent "u8") (implFuture (.ofIdent "u8"))) {} = .ok out ∧
      ∀ m, .fn m ∈ out.dynTrait.items → m.sig.DynCompatible := by
  obtain ⟨out, h⟩ : ∃ out, dynTraitImpl .ascii
      (job (.ofIdent "u8") (implFuture (.ofIdent "u8"))) {} = .ok out := ⟨_, rfl⟩
  refine ⟨out, h, (dynCompatible_iff_convertible h).mpr ?_⟩
  have hu : (Ty.ofIdent "u8").DynCompatible := by
    simp [Ty.DynCompatible, Ty.ofIdent, Ty.nodes, nodesSegments, PathArguments.nodes,
      PathSegment.plain, PathSegment.ident]
  rintro m hm -
  obtain rfl := TraitItem.fn.inj (List.mem_singleton.mp hm)
  refine Or.inr ⟨?_, ?_⟩
  · simpa [Signature.typedInputs] using hu
  · refine ⟨?_, (boundsConvertible_future _).mpr hu⟩
    simp [crateName, Path.ofIdents, PathSegment.plain, nodesSegments, PathArguments.nodes]

/-- An `impl Trait` among the arguments is a type parameter that the filter does not see. -/
theorem job_not_filtered : ¬ ∀ (casing : Casing) (trait : ItemTrait) (opts : DynTraitOpts)
    (out : DynTraitOutput), dynTraitImpl casing trait opts = .ok out →
      ∀ m, .fn m ∈ out.dynTrait.items → m.sig.DynCompatible := by
  intro h
  have hm := h .ascii
    (job (.implTrait [(Path.ofIdents false ["Debug"]).toBound]) (.ofIdent "u8")) {} _ rfl _
    List.mem_cons_self
  rcases hm with hs | hd
  · exact absurd hs (by decide)
  · apply hd.inputs _ List.mem_cons_self
    simp [Ty.nodes]

end DynUtils.Macros.Filtering
