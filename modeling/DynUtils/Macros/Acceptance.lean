import DynUtils.Macros.DynObject
import DynUtils.Macros.Filtering

/-! Which of the traits that `dyn_trait` writes `dyn_object` takes. -/
namespace DynUtils.Macros.Acceptance

open Syn

variable {v : VisitMut}

theorem segments_eq_map (v : VisitMut) (d : ℕ) (ss : List PathSegment) :
    v.segments d ss = ss.map fun s => .mk (v.segment s.ident) (v.arguments d s.arguments) := by
  induction ss with
  | nil => rfl
  | cons s ss ih =>
    obtain ⟨ident, arguments⟩ := s
    simp [VisitMut.segments, ih, PathSegment.ident, PathSegment.arguments]

section
variable (hv : ∀ i, v.segment i = i)

include hv

theorem lastSegment_segments (d : ℕ) (ss : List PathSegment) (ident : Ident) :
    lastSegment (v.segments d ss) ident =
      (lastSegment ss ident).map fun s => .mk s.ident (v.arguments d s.arguments) := by
  rw [segments_eq_map]
  simp only [lastSegment, List.getLast?_map, hv]
  cases ss.getLast? with
  | none => rfl
  | some s =>
    obtain ⟨i, arguments⟩ := s
    by_cases hi : i = ident <;>
      simp [hi, Option.filter, PathSegment.ident, PathSegment.arguments]

theorem isSelf_ty (d : ℕ) (t : Ty) : (v.ty d t).isSelf = t.isSelf := by
  cases t with
  | path leading ss =>
    cases leading with
    | true => rfl
    | false =>
      match ss with
      | [] => rfl
      | [.mk ident arguments] => cases arguments <;> simp [VisitMut.ty, VisitMut.segments,
          VisitMut.arguments, Ty.isSelf, hv]
      | .mk _ _ :: .mk _ _ :: _ => simp [VisitMut.ty, VisitMut.segments, Ty.isSelf]
  | _ => rfl

omit hv in
theorem pathSegments_ty (d : ℕ) (t : Ty) :
    (v.ty d t).pathSegments = t.pathSegments.map (v.segments d) := by
  cases t <;> rfl

/-- What becomes of the `&mut Self` of a `Pin<&mut Self>`. -/
theorem pinnedRef_ty (d : ℕ) (t : Ty) :
    pinnedRef (v.ty d t) = (pinnedRef t).map fun r =>
      ⟨v.reference d r.lifetime, r.mutability, v.ty d r.elem⟩ := by
  unfold pinnedRef
  rw [pathSegments_ty]
  cases t.pathSegments with
  | none => rfl
  | some ss =>
    simp only [Option.map_some, Option.bind_eq_bind, Option.bind_some, lastSegment_segments hv]
    cases lastSegment ss "Pin" with
    | none => rfl
    | some pin =>
      obtain ⟨ident, arguments⟩ := pin
      simp only [Option.map_some, Option.bind_some, PathSegment.arguments]
      cases arguments with
      | angleBracketed args =>
        cases args with
        | nil => rfl
        | cons arg args =>
          cases arg with
          | type t =>
            simp only [VisitMut.arguments, VisitMut.genericArgs, VisitMut.genericArg]
            cases t with
            | reference lt mutability elem =>
              simp only [VisitMut.ty, Ty.typeReference, Option.filter, isSelf_ty hv]
              split <;> rfl
            | _ => rfl
          | _ => rfl
      | _ => rfl

end

variable {sig : Signature} {crate : Path} {traitGenerics : List Ident}
  {rpit : List TypeParamBound} {storage : Ident}

/-- A receiver that a trait object can have is still one afterwards. -/
theorem hasDynTraitReceiver_update :
    hasDynTraitReceiver (DynMethod.updateDynSignature crate traitGenerics sig rpit storage) =
      hasDynTraitReceiver sig := by
  simp only [hasDynTraitReceiver, DynMethod.updateDynSignature_receiver]
  cases sig.receiver with
  | none => rfl
  | some recv =>
    simp only [Option.map_some, Option.any_some, CapturedLifetimes.visitReceiver,
      Option.isSome_map, pinnedRef_ty Filtering.visitor_segment]

theorem isDispatchable_congr {method method' : TraitItemFn}
    (hr : hasDynTraitReceiver method'.sig = hasDynTraitReceiver method.sig)
    (hg : method.sig.generics.params.all (·.isLifetime) = true →
      method'.sig.generics.params.all (·.isLifetime) = true)
    (h : isDispatchable method = true) : isDispatchable method' = true := by
  simp only [isDispatchable, Bool.and_eq_true] at h ⊢
  exact ⟨hr.trans h.1, hg h.2⟩

/-- The method of the generated trait is dispatchable when that of the source is. -/
theorem isDispatchable_new {casing : Casing} {method : TraitItemFn}
    (h : isDispatchable method = true) :
    isDispatchable (DynMethod.new casing crate traitGenerics method).dynMethod = true := by
  have hconv : hasDynTraitReceiver (DynMethod.convertAsync method.sig) =
      hasDynTraitReceiver method.sig := by
    simp [hasDynTraitReceiver]
  refine isDispatchable_congr ?_ ?_ h
  · simp only [DynMethod.new]
    cases returnImplTrait (DynMethod.convertAsync method.sig) with
    | none => exact hconv
    | some rpit => exact hasDynTraitReceiver_update.trans hconv
  · intro hl
    have hl' : (DynMethod.convertAsync method.sig).generics.params.all (·.isLifetime) = true := by
      simpa using hl
    simp only [DynMethod.new]
    cases returnImplTrait (DynMethod.convertAsync method.sig) with
    | none => exact hl'
    | some rpit => exact Filtering.updateDynSignature_lifetimes_only hl'

theorem isDispatchable_maybeSync {dynMethod : DynMethod} {method : TraitItemFn}
    (hm : dynMethod.maybeSyncMethod = .ok method)
    (h : isDispatchable dynMethod.dynMethod = true) : isDispatchable method = true := by
  obtain ⟨sig, hs, hm⟩ := Machine.bind_ok.mp hm
  obtain rfl := Machine.pure_ok.mp hm
  obtain ⟨output, -, rfl⟩ := DynMethod.maybeSyncSignature_ok hs
  exact h

/-- What one item gives to the generated trait, `dyn_object` supports. -/
theorem convertItem_supported {casing : Casing} {base : DynTrait} {item : TraitItem}
    {out : ItemOutput} (h : base.convertItem casing item = .ok out) :
    ∀ d ∈ out.dynItems, DynObject.Supported d := by
  intro d hd
  rcases DynTrait.convertItem_cases h with
    ⟨ty, rfl, hn, rfl⟩ | ⟨method, rfl, hdisp, h⟩ | ⟨-, -, rfl⟩
  · obtain rfl := List.mem_singleton.mp hd
    simp only [isNotGeneric, Bool.and_eq_true, List.isEmpty_iff] at hn
    exact hn.1
  · obtain ⟨attrs, method', hp, hout⟩ := DynTrait.convertMethod_ok h
    have hdisp' : isDispatchable method' = true := by
      simpa [isDispatchable, MethodAttrs.parse_sig hp] using hdisp
    rcases hout with ⟨-, rfl⟩ | ⟨-, _, _, _, _, -, -, -, hm, rfl⟩
    · obtain rfl := List.mem_singleton.mp hd
      exact isDispatchable_new hdisp'
    · obtain rfl := List.mem_singleton.mp hd
      exact isDispatchable_maybeSync hm (isDispatchable_new hdisp')
  · cases hd

section
variable {casing : Casing} {trait : ItemTrait} {opts : DynTraitOpts} {out : DynTraitOutput}
  (h : dynTraitImpl casing trait opts = .ok out)

include h

/-- `dyn_object` supports all items of the generated trait. -/
theorem supported_dynTrait : ∀ item ∈ out.dynTrait.items, DynObject.Supported item := by
  obtain ⟨outs, ho, hitems, -⟩ := dynTraitImpl_ok h
  rw [hitems]
  intro item hm
  obtain ⟨o, hmem, hd⟩ := List.mem_flatMap.mp hm
  obtain ⟨src, -, hc⟩ := Machine.exists_left_of_forall₂ ho hmem
  exact convertItem_supported hc item hd

/-- There is no colon for the supertraits to follow. -/
theorem parsed_iff {t : ItemTrait} :
    out.parsed = .ok t ↔ trait.supertraits = [] ∧ out.dynTrait = t := by
  obtain ⟨outs, _, _, -, rfl⟩ := dynTraitImpl_eq h
  simp only [DynTraitOutput.parsed, DynTrait.output, Bool.false_or, List.isEmpty_iff]
  split <;> simp_all

end

/-- `dyn_object`, on the declaration that is written. -/
def handOn (out : DynTraitOutput) (ops : DynObjectOps) : Except Error DynObjectOutput := do
  let trait ← out.parsed
  dynObjectImpl trait ops

/-- `dyn_object` supports all that `dyn_trait` writes, and takes the trait exactly if it has no
supertraits. -/
theorem handOn_isOk_iff {casing : Casing} {trait : ItemTrait} {opts : DynTraitOpts}
    {out : DynTraitOutput} (h : dynTraitImpl casing trait opts = .ok out) (ops : DynObjectOps) :
    (∀ item ∈ out.dynTrait.items, DynObject.Supported item) ∧
      ((∃ obj, handOn out ops = .ok obj) ↔ trait.supertraits = []) := by
  have hs := supported_dynTrait h
  refine ⟨hs, ?_, fun hn => ?_⟩
  · rintro ⟨obj, hobj⟩
    obtain ⟨t, ht, -⟩ := Machine.bind_ok.mp hobj
    exact ((parsed_iff h).mp ht).1
  · exact ⟨_, Machine.bind_ok.mpr ⟨_, (parsed_iff h).mpr ⟨hn, rfl⟩,
      Machine.bind_ok.mpr ⟨_, DynObject.foldlM_parseItem_ok.mpr ⟨hs, rfl⟩, rfl⟩⟩⟩

/-- `trait Poll: #supertraits { fn poll(self: Pin<&mut Self>) -> impl Future<Output = u8>; }` -/
def poll (supertraits : List TypeParamBound) : ItemTrait where
  attrs := [⟨.list ["dyn_trait"] [.path ["dyn_object"]]⟩]
  unsafety := false
  ident := "Poll"
  generics := ⟨[], none⟩
  colon := !supertraits.isEmpty
  supertraits
  items := [.fn {
    attrs := []
    sig := {
      asyncness := false
      unsafety := false
      ident := "poll"
      generics := ⟨[], none⟩
      inputs := [.receiver ⟨none, false, true, .path false [.mk "Pin"
        (.angleBracketed [.type (.reference none true (.ofIdent "Self"))])]⟩]
      output := .type (implFuture (.ofIdent "u8")) }
    default := none }]

theorem handOn_isOk_iff_poll : ∃ out, dynTraitImpl .ascii (poll []) {} = .ok out ∧
    ∃ obj, handOn out {} = .ok obj := by
  obtain ⟨out, h⟩ : ∃ out, dynTraitImpl .ascii (poll []) {} = .ok out := ⟨_, rfl⟩
  exact ⟨out, h, (handOn_isOk_iff h {}).2.mpr rfl⟩

/-- `trait Poll: Send` is written as `trait DynPoll Send`. -/
theorem poll_not_handedOn : ¬ ∀ (casing : Casing) (trait : ItemTrait) (opts : DynTraitOpts)
    (out : DynTraitOutput), trait.generics.params = [] →
    ⟨.list ["dyn_trait"] [.path ["dyn_object"]]⟩ ∈ trait.attrs →
    dynTraitImpl casing trait opts = .ok out → ∀ ops, ∃ obj, handOn out ops = .ok obj := by
  intro hall
  obtain ⟨out, h⟩ : ∃ out, dynTraitImpl .ascii (poll [.trait false [] false [.plain "Send"]]) {} =
      .ok out := ⟨_, rfl⟩
  obtain ⟨obj, hobj⟩ := hall _ _ _ _ rfl (List.mem_singleton_self _) h {}
  obtain ⟨t, ht, -⟩ := Machine.bind_ok.mp hobj
  exact absurd ((parsed_iff h).mp ht).1 (List.cons_ne_nil _ _)

end DynUtils.Macros.Acceptance
