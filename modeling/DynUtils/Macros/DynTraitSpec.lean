import DynUtils.Macros.DynTrait

/-! What `dyn_trait` makes of each item, apart from the loop that collects it. -/
namespace DynUtils.Macros

open Syn

/-- What one item of the trait adds to the output. -/
structure ItemOutput where
  item : TraitItem
  additionalTraitItems : List TraitItem := []
  dynItems : List TraitItem := []
  implItems : List ImplItem := []
  genericStorages : List GenericParam := []

theorem mem_returnType {sig : Signature} {t : Ty} : t ∈ returnType sig ↔ sig.output = .type t := by
  unfold returnType
  cases sig.output <;> simp

theorem returnImplTrait_eq_some {sig : Signature} {rpit : List TypeParamBound} :
    returnImplTrait sig = some rpit ↔ sig.output = .type (.implTrait rpit) := by
  unfold returnImplTrait returnType
  cases sig.output with
  | default => simp
  | type t => cases t <;> simp

/-- The return type captures the lifetime, as far as it is written in the method. -/
def Captures (rpit : List TypeParamBound) (generics : Generics) (l : Lifetime) : Prop :=
  match preciseCapture rpit with
  | some params => .lifetime l ∈ params
  | none => l ∈ generics.lifetimes.map (·.lifetime) ∨ l = defaultLt

instance (rpit : List TypeParamBound) (generics : Generics) :
    DecidablePred (Captures rpit generics) := fun l =>
  match h : preciseCapture rpit with
  | some params => decidable_of_iff (.lifetime l ∈ params) (by simp [Captures, h])
  | none => decidable_of_iff (l ∈ generics.lifetimes.map (·.lifetime) ∨ l = defaultLt)
      (by simp [Captures, h])

theorem mem_captured {rpit : List TypeParamBound} {generics : Generics} {l : Lifetime} :
    l ∈ (CapturedLifetimes.new rpit generics).captured ↔ Captures rpit generics l := by
  unfold CapturedLifetimes.new Captures
  cases preciseCapture rpit with
  | none => simp
  | some params =>
    simp only [List.mem_filterMap]
    constructor
    · rintro ⟨p, hp, h⟩
      cases p with
      | lifetime l' => exact (Option.some.inj h) ▸ hp
      | ident i => cases h
    · exact fun h => ⟨_, h, rfl⟩

namespace PatternAsArg
variable (sig : Signature)

@[simp] theorem visitSignature_asyncness : (visitSignature sig).asyncness = sig.asyncness := rfl
@[simp] theorem visitSignature_ident : (visitSignature sig).ident = sig.ident := rfl
@[simp] theorem visitSignature_generics : (visitSignature sig).generics = sig.generics := rfl
@[simp] theorem visitSignature_output : (visitSignature sig).output = sig.output := rfl

end PatternAsArg

namespace DynMethod
variable {sig : Signature}

/-- An async method gives a future. -/
theorem convertAsync_async (h : sig.asyncness = true) :
    convertAsync sig = { PatternAsArg.visitSignature sig with
      asyncness := false
      output := .type (implFuture ((returnType sig).getD (.tuple []))) } := by
  simp [convertAsync, h, returnType]

theorem convertAsync_plain (h : sig.asyncness = false) :
    convertAsync sig = PatternAsArg.visitSignature sig := by
  simp [convertAsync, h]

variable (sig)

@[simp] theorem convertAsync_asyncness : (convertAsync sig).asyncness = false := by
  cases h : sig.asyncness <;> simp [convertAsync_async, convertAsync_plain, h]

@[simp] theorem convertAsync_ident : (convertAsync sig).ident = sig.ident := by
  cases h : sig.asyncness <;> simp [convertAsync_async, convertAsync_plain, h]

@[simp] theorem convertAsync_generics : (convertAsync sig).generics = sig.generics := by
  cases h : sig.asyncness <;> simp [convertAsync_async, convertAsync_plain, h]

@[simp] theorem convertAsync_inputs :
    (convertAsync sig).inputs = sig.inputs.map PatternAsArg.visitFnArg := by
  cases h : sig.asyncness <;>
    simp [convertAsync_async, convertAsync_plain, h, PatternAsArg.visitSignature]

@[simp] theorem convertAsync_receiver : (convertAsync sig).receiver = sig.receiver := by
  rw [Signature.receiver, convertAsync_inputs, Signature.receiver]
  cases sig.inputs with
  | nil => rfl
  | cons arg args => cases arg <;> rfl

@[simp] theorem convertAsync_typedInputs : (convertAsync sig).typedInputs = sig.typedInputs := by
  rw [Signature.typedInputs, convertAsync_inputs, List.filterMap_map, Signature.typedInputs]
  congr 1
  funext arg
  cases arg <;> rfl

variable {sig} {crate : Path} {traitGenerics : List Ident} {rpit : List TypeParamBound}
  {storage : Ident}

@[simp] theorem updateDynSignature_typedInputs :
    (updateDynSignature crate traitGenerics sig rpit storage).typedInputs =
      sig.typedInputs.map ((CapturedLifetimes.new rpit sig.generics).visitor.ty 0) := by
  simp only [Signature.typedInputs, updateDynSignature, List.filterMap_map, List.map_filterMap]
  congr 1
  funext arg
  cases arg <;> rfl

@[simp] theorem updateDynSignature_receiver :
    (updateDynSignature crate traitGenerics sig rpit storage).receiver =
      sig.receiver.map (CapturedLifetimes.new rpit sig.generics).visitReceiver := by
  simp only [Signature.receiver, updateDynSignature]
  cases sig.inputs with
  | nil => rfl
  | cons arg args => cases arg <;> rfl

/-- A method whose return type is opaque is rewritten. -/
theorem new_sig {casing : Casing} {method : TraitItemFn}
    (h : returnImplTrait (convertAsync method.sig) = some rpit) :
    (new casing crate traitGenerics method).dynMethod.sig =
      updateDynSignature crate traitGenerics (convertAsync method.sig) rpit
        ("__Storage" ++ casing.toPascalCase method.sig.ident) := by
  simp [new, h]

@[simp] theorem new_ident (casing : Casing) (method : TraitItemFn) :
    (new casing crate traitGenerics method).dynMethod.sig.ident = method.sig.ident := by
  simp only [new]
  cases returnImplTrait (convertAsync method.sig) <;> simp [updateDynSignature]

/-- The return type of a rewritten method. -/
def dynOutput (crate : Path) (generics : Generics) (rpit : List TypeParamBound)
    (storage : Ident) : Ty :=
  ((crate.join ["DynObject"]).withArgs
    [.type (dynRet (.new rpit generics) rpit), .type (.ofIdent storage)]).toTy

variable {self : DynMethod}

/-- `sync_method` asks for a future. -/
theorem syncMethod_ok {item : TraitItemFn} (h : self.syncMethod = .ok item) :
    ∃ rpit output, self.rpit = some rpit ∧ futureOutput rpit = some output ∧ item = {
      attrs := [docHidden]
      sig := { self.origSig with
        asyncness := false
        ident := syncFn self.origSig
        output := .type output }
      default := some ⟨(fnArgs self.origSig).drop 1,
        .mac (.ofIdents true ["core", "unimplemented"])⟩ } := by
  unfold syncMethod at h
  split at h
  · cases h
  · rename_i output ho
    obtain ⟨rpit, hr, ho⟩ := Option.bind_eq_some_iff.mp ho
    exact ⟨rpit, output, hr, ho, (Except.ok.inj h).symm⟩

/-- `MaybeSync` goes around the result. -/
theorem maybeSyncSignature_ok {sig : Signature} (h : self.maybeSyncSignature = .ok sig) :
    ∃ output, self.dynMethod.sig.output = .type output ∧
      sig = { self.dynMethod.sig with
        output := .type ((self.crate.join ["MaybeSync"]).withArgs [.type output]).toTy } := by
  unfold maybeSyncSignature at h
  split at h
  · cases h
  · rename_i output ho
    exact ⟨output, mem_returnType.mp ho, (Except.ok.inj h).symm⟩

/-- Which of the two methods of the trait is called is up to the constant. -/
theorem maybeSyncImpl_ok {casing : Casing} {f : ImplItemFn}
    (h : self.maybeSyncImpl casing = .ok f) :
    f.attrs = [] ∧ (∃ output, f.sig = { self.dynMethod.sig with output }) ∧
      f.block = ⟨[], .ifElse (dynPath (Macros.isSyncConst casing self.origSig))
        (.call (.path (self.crate.join ["MaybeSync", "Sync"]))
          [.call (dynPath (syncFn self.origSig)) (fnArgs self.origSig)])
        (.call (.path (self.crate.join ["MaybeSync", "Async"]))
          [dynObjectNew self.crate (.call (dynPath self.origSig.ident) (fnArgs self.origSig))])⟩ := by
  obtain ⟨isSync, hi, h⟩ := Machine.bind_ok.mp h
  obtain ⟨-, rfl⟩ := formatIdent_ok.mp hi
  obtain ⟨sig, hs, h⟩ := Machine.bind_ok.mp h
  obtain rfl := Machine.pure_ok.mp h
  obtain ⟨output, -, rfl⟩ := maybeSyncSignature_ok hs
  exact ⟨rfl, ⟨_, rfl⟩, rfl⟩

theorem isSyncConst_ok {casing : Casing} {item : TraitItemConst}
    (h : self.isSyncConst casing = .ok item) :
    casing.isIdent (Macros.isSyncConst casing self.origSig) = true ∧ item = {
      attrs := [docHidden]
      ident := Macros.isSyncConst casing self.origSig
      ty := bool
      default := some (.lit false) } := by
  obtain ⟨isSync, hi, h⟩ := Machine.bind_ok.mp h
  obtain ⟨hid, rfl⟩ := formatIdent_ok.mp hi
  exact ⟨hid, (Machine.pure_ok.mp h).symm⟩

end DynMethod

/-- Only the attributes of the method change. -/
theorem MethodAttrs.parse_sig {method method' : TraitItemFn} {attrs : MethodAttrs}
    (h : MethodAttrs.parse method = .ok (attrs, method')) : method'.sig = method.sig := by
  obtain ⟨parsed, -, h⟩ := Machine.bind_ok.mp h
  obtain ⟨-, rfl⟩ := Prod.mk.inj (Machine.pure_ok.mp h)
  rfl

/-- The attributes for the macro are taken off. -/
theorem MethodAttrs.parse_attrs {method method' : TraitItemFn} {attrs : MethodAttrs}
    (h : MethodAttrs.parse method = .ok (attrs, method')) :
    method'.attrs = method.attrs.filter (!·.content.isIdent "dyn_trait") := by
  simp only [MethodAttrs.parse, List.partition_eq_filter_filter] at h
  obtain ⟨parsed, -, h⟩ := Machine.bind_ok.mp h
  obtain ⟨-, rfl⟩ := Prod.mk.inj (Machine.pure_ok.mp h)
  rfl

namespace DynTrait

/-- The loop never changes these. -/
def SameTarget (base self : DynTrait) : Prop :=
  self.crate = base.crate ∧ self.remote = base.remote ∧ self.traitGenerics = base.traitGenerics

def add (acc : DynTrait × List TraitItem) (out : ItemOutput) : DynTrait × List TraitItem :=
  ({ acc.1 with
      additionalTraitItems := acc.1.additionalTraitItems ++ out.additionalTraitItems
      dynItems := acc.1.dynItems ++ out.dynItems
      implItems := acc.1.implItems ++ out.implItems
      genericStorages := acc.1.genericStorages ++ out.genericStorages },
    acc.2 ++ [out.item])

/-- The method that `dyn_trait` builds, once its attributes are read. -/
def dynMethod (casing : Casing) (base : DynTrait) (method : TraitItemFn) : DynMethod :=
  .new casing base.crate base.traitGenerics method

def convertMethod (casing : Casing) (base : DynTrait) (method : TraitItemFn) :
    Except Error ItemOutput := do
  let (attrs, method) ← MethodAttrs.parse method
  let dynMethod := base.dynMethod casing method
  let genericStorages := (dynMethod.genericStorage attrs.storage).toList
  if attrs.maybeSync then
    let syncMethod ← dynMethod.syncMethod
    let isSyncConst ← dynMethod.isSyncConst casing
    let maybeSyncImpl ← dynMethod.maybeSyncImpl casing
    let maybeSyncMethod ← dynMethod.maybeSyncMethod
    return {
      item := .fn method
      additionalTraitItems := [.fn syncMethod, .const isSyncConst]
      dynItems := [.fn maybeSyncMethod]
      implItems := [.fn maybeSyncImpl]
      genericStorages }
  else
    return {
      item := .fn method
      dynItems := [.fn dynMethod.dynMethod]
      implItems := [.fn dynMethod.implMethod]
      genericStorages }

def convertItem (casing : Casing) (base : DynTrait) : TraitItem → Except Error ItemOutput
  | .type ty =>
    if isNotGeneric ty then
      .ok { item := .type ty, dynItems := [.type ty],
            implItems := [.type ty.ident (dynType base.remote ty.ident)] }
    else .ok { item := .type ty }
  | .fn method => if isDispatchable method then base.convertMethod casing method
    else .ok { item := .fn method }
  | item => .ok { item }

theorem parseMethod_eq {casing : Casing} {base self : DynTrait} (h : SameTarget base self)
    (items : List TraitItem) (method : TraitItemFn) :
    (do let (self, method) ← self.parseMethod casing method
        return (self, items ++ [.fn method])) =
      (base.convertMethod casing method).map (add (self, items)) := by
  obtain ⟨hc, -, hg⟩ := h
  have hd : base.dynMethod casing = DynMethod.new casing self.crate self.traitGenerics := by
    funext method
    rw [dynMethod, hc, hg]
  simp only [parseMethod, convertMethod, hd]
  cases MethodAttrs.parse method with
  | error e => rfl
  | ok parsed =>
    obtain ⟨attrs, method⟩ := parsed
    cases hs : attrs.maybeSync with
    | false => simp [bind, Except.bind, pure, Except.pure, Except.map, add, hs]
    | true =>
      simp only [bind, Except.bind, pure, Except.pure, Except.map, hs, if_true]
      generalize DynMethod.new casing self.crate self.traitGenerics method = dynMethod
      cases dynMethod.syncMethod <;> cases dynMethod.isSyncConst casing <;>
        cases dynMethod.maybeSyncImpl casing <;> cases dynMethod.maybeSyncMethod <;> simp [add]

/-- The loop adds to the output what the item gives. -/
theorem parseItem_eq {casing : Casing} {base self : DynTrait} (h : SameTarget base self)
    (items : List TraitItem) (item : TraitItem) :
    parseItem casing (self, items) item =
      (base.convertItem casing item).map (add (self, items)) := by
  cases item with
  | type ty =>
    cases hn : isNotGeneric ty with
    | false => simp [parseItem, convertItem, hn, add, Except.map]
    | true =>
      obtain ⟨-, hr, -⟩ := h
      simp [parseItem, convertItem, hn, parseType, add, ← hr, Except.map]
  | fn method =>
    cases hd : isDispatchable method with
    | false => simp [parseItem, convertItem, hd, add, Except.map]
    | true =>
      simp only [parseItem, convertItem, hd, if_true]
      exact parseMethod_eq h items method
  | const item => simp [parseItem, convertItem, add, Except.map]
  | other attrs tokens => simp [parseItem, convertItem, add, Except.map]

/-- The output of a method, with or without `maybe_sync`. -/
theorem convertMethod_ok {casing : Casing} {base : DynTrait} {method : TraitItemFn}
    {out : ItemOutput} (h : base.convertMethod casing method = .ok out) :
    ∃ attrs method', MethodAttrs.parse method = .ok (attrs, method') ∧
      (attrs.maybeSync = false ∧ out = {
          item := .fn method'
          dynItems := [.fn (base.dynMethod casing method').dynMethod]
          implItems := [.fn (base.dynMethod casing method').implMethod]
          genericStorages := ((base.dynMethod casing method').genericStorage attrs.storage).toList } ∨
        attrs.maybeSync = true ∧ ∃ syncMethod isSyncConst maybeSyncImpl maybeSyncMethod,
          (base.dynMethod casing method').syncMethod = .ok syncMethod ∧
          (base.dynMethod casing method').isSyncConst casing = .ok isSyncConst ∧
          (base.dynMethod casing method').maybeSyncImpl casing = .ok maybeSyncImpl ∧
          (base.dynMethod casing method').maybeSyncMethod = .ok maybeSyncMethod ∧ out = {
            item := .fn method'
            additionalTraitItems := [.fn syncMethod, .const isSyncConst]
            dynItems := [.fn maybeSyncMethod]
            implItems := [.fn maybeSyncImpl]
            genericStorages :=
              ((base.dynMethod casing method').genericStorage attrs.storage).toList }) := by
  obtain ⟨⟨attrs, method'⟩, hp, h⟩ := Machine.bind_ok.mp h
  refine ⟨attrs, method', hp, ?_⟩
  dsimp only at h
  split at h
  · rename_i hs
    obtain ⟨syncMethod, h1, h⟩ := Machine.bind_ok.mp h
    obtain ⟨isSyncConst, h2, h⟩ := Machine.bind_ok.mp h
    obtain ⟨maybeSyncImpl, h3, h⟩ := Machine.bind_ok.mp h
    obtain ⟨maybeSyncMethod, h4, h⟩ := Machine.bind_ok.mp h
    exact Or.inr ⟨hs, _, _, _, _, h1, h2, h3, h4, (Machine.pure_ok.mp h).symm⟩
  · rename_i hs
    exact Or.inl ⟨by simpa using hs, (Machine.pure_ok.mp h).symm⟩

/-- A type without parameters is copied, with a projection for the impl, and a dispatchable method
is converted. Any other item only stays where it is. -/
theorem convertItem_cases {casing : Casing} {base : DynTrait} {item : TraitItem} {out : ItemOutput}
    (h : base.convertItem casing item = .ok out) :
    (∃ ty, item = .type ty ∧ isNotGeneric ty = true ∧ out = {
        item := .type ty
        dynItems := [.type ty]
        implItems := [.type ty.ident (dynType base.remote ty.ident)] }) ∨
      (∃ method, item = .fn method ∧ isDispatchable method = true ∧
        base.convertMethod casing method = .ok out) ∨
      (∀ ty, item = .type ty → isNotGeneric ty = false) ∧
        (∀ method, item = .fn method → isDispatchable method = false) ∧ out = { item } := by
  cases item with
  | type ty =>
    simp only [convertItem] at h
    split at h
    · rename_i hn
      exact Or.inl ⟨ty, rfl, hn, (Except.ok.inj h).symm⟩
    · rename_i hn
      exact Or.inr (Or.inr ⟨by simpa using hn, by simp, (Except.ok.inj h).symm⟩)
  | fn method =>
    simp only [convertItem] at h
    split at h
    · rename_i hd
      exact Or.inr (Or.inl ⟨method, rfl, hd, h⟩)
    · rename_i hd
      exact Or.inr (Or.inr ⟨by simp, by simpa using hd, (Except.ok.inj h).symm⟩)
  | const item => exact Or.inr (Or.inr ⟨by simp, by simp, (Except.ok.inj h).symm⟩)
  | other attrs tokens => exact Or.inr (Or.inr ⟨by simp, by simp, (Except.ok.inj h).symm⟩)

/-- What an item is made into, if it gives a method of the generated trait or of its impl. -/
theorem convertItem_fn {casing : Casing} {base : DynTrait} {item : TraitItem} {out : ItemOutput}
    (h : base.convertItem casing item = .ok out)
    (hg : (∃ g, .fn g ∈ out.dynItems) ∨ ∃ g, .fn g ∈ out.implItems) :
    ∃ method, item = .fn method ∧ isDispatchable method = true ∧
      base.convertMethod casing method = .ok out := by
  rcases convertItem_cases h with ⟨ty, -, -, rfl⟩ | hfn | ⟨-, -, rfl⟩
  · simp at hg
  · exact hfn
  · simp at hg

theorem foldl_add (acc : DynTrait × List TraitItem) (outs : List ItemOutput) :
    outs.foldl add acc =
      ({ acc.1 with
          additionalTraitItems := acc.1.additionalTraitItems ++ outs.flatMap (·.additionalTraitItems)
          dynItems := acc.1.dynItems ++ outs.flatMap (·.dynItems)
          implItems := acc.1.implItems ++ outs.flatMap (·.implItems)
          genericStorages := acc.1.genericStorages ++ outs.flatMap (·.genericStorages) },
        acc.2 ++ outs.map (·.item)) := by
  induction outs generalizing acc with
  | nil => simp
  | cons out outs ih => simp [ih, add]

/-- The loop, as the conversion of each item by itself. -/
theorem foldlM_parseItem_ok {casing : Casing} {base : DynTrait} {items : List TraitItem}
    {r : DynTrait × List TraitItem} :
    items.foldlM (parseItem casing) (base, []) = .ok r ↔
      ∃ outs, List.Forall₂ (fun item out => base.convertItem casing item = .ok out) items outs ∧
        r = outs.foldl add (base, []) :=
  Machine.foldlM_adds (fun acc : DynTrait × List TraitItem => SameTarget base acc.1)
    (fun acc item h => parseItem_eq h acc.2 item) (fun _ _ h => h) ⟨rfl, rfl, rfl⟩

end DynTrait

theorem mem_printed {g : Generics} {p : GenericParam} : p ∈ g.printed ↔ p ∈ g.params := by
  rw [Generics.printed, List.mem_append, List.mem_filter, List.mem_filter]
  cases p.isLifetime <;> simp

theorem extractDynTraitAttrs_ok {trait trait' : ItemTrait} {attrs : List Attribute}
    (h : extractDynTraitAttrs trait = .ok (attrs, trait')) :
    ∃ rest, trait' = { trait with attrs := rest } := by
  simp only [extractDynTraitAttrs, Machine.bind_ok, Machine.pure_ok, Prod.mk.injEq] at h
  obtain ⟨_, -, -, rfl⟩ := h
  exact ⟨_, rfl⟩

/-- The output for an accepted trait, once each of its items is converted. -/
theorem dynTraitImpl_eq {casing : Casing} {trait : ItemTrait} {opts : DynTraitOpts}
    {out : DynTraitOutput} (h : dynTraitImpl casing trait opts = .ok out) :
    ∃ outs handed rest, List.Forall₂
        (fun item out => (DynTrait.new trait opts).convertItem casing item = .ok out)
        trait.items outs ∧
      out = DynTrait.output { DynTrait.new trait opts with
          additionalTraitItems := outs.flatMap (·.additionalTraitItems)
          dynItems := outs.flatMap (·.dynItems)
          implItems := outs.flatMap (·.implItems)
          genericStorages := outs.flatMap (·.genericStorages) }
        { trait with attrs := rest, items := outs.map (·.item) } handed := by
  obtain ⟨⟨attrs, trait'⟩, he, h⟩ := Machine.bind_ok.mp h
  obtain ⟨rest, rfl⟩ := extractDynTraitAttrs_ok he
  dsimp only at h
  split at h
  · cases h
  obtain ⟨-, -, h⟩ := Machine.bind_ok.mp h
  obtain ⟨r, hr, h⟩ := Machine.bind_ok.mp h
  obtain ⟨outs, ho, rfl⟩ := DynTrait.foldlM_parseItem_ok.mp hr
  obtain rfl := Machine.pure_ok.mp h
  refine ⟨outs, attrs, rest, ho, ?_⟩
  simp [DynTrait.foldl_add, DynTrait.new]

/-- What an accepted trait is made into, from what each of its items is made into. -/
theorem dynTraitImpl_ok {casing : Casing} {trait : ItemTrait} {opts : DynTraitOpts}
    {out : DynTraitOutput} (h : dynTraitImpl casing trait opts = .ok out) :
    ∃ outs, List.Forall₂
        (fun item out => (DynTrait.new trait opts).convertItem casing item = .ok out)
        trait.items outs ∧
      out.dynTrait.items = outs.flatMap (·.dynItems) ∧
      out.dynImpl.items = outs.flatMap (·.implItems) ∧
      ∀ t ∈ out.optTrait, t.items = outs.map (·.item) ++ outs.flatMap (·.additionalTraitItems) := by
  obtain ⟨outs, _, _, ho, rfl⟩ := dynTraitImpl_eq h
  refine ⟨outs, ho, rfl, rfl, ?_⟩
  simp [DynTrait.output, DynTrait.new]

/-- What a method whose return type is opaque is declared as in the generated trait. -/
theorem dynTraitImpl_method {casing : Casing} {trait : ItemTrait} {opts : DynTraitOpts}
    {out : DynTraitOutput} (h : dynTraitImpl casing trait opts = .ok out)
    {method : TraitItemFn} (hm : .fn method ∈ trait.items)
    (hd : isDispatchable method = true) {rpit : List TypeParamBound}
    (hr : returnImplTrait (DynMethod.convertAsync method.sig) = some rpit) :
    ∃ crate storage g output, .fn g ∈ out.dynTrait.items ∧ g.sig =
        { DynMethod.updateDynSignature crate trait.generics.typeParams
          (DynMethod.convertAsync method.sig) rpit storage with output := .type output } ∧
      (output = DynMethod.dynOutput crate method.sig.generics rpit storage ∨ output =
        ((crate.join ["MaybeSync"]).withArgs
          [.type (DynMethod.dynOutput crate method.sig.generics rpit storage)]).toTy) := by
  obtain ⟨outs, ho, hitems, -⟩ := dynTraitImpl_ok h
  obtain ⟨o, hmem, hc⟩ := Machine.exists_right_of_forall₂ ho hm
  simp only [DynTrait.convertItem, hd, if_true] at hc
  obtain ⟨attrs, method', hp, hcase⟩ := DynTrait.convertMethod_ok hc
  have hsig : method'.sig = method.sig := MethodAttrs.parse_sig hp
  have hnew : ((DynTrait.new trait opts).dynMethod casing method').dynMethod.sig = _ :=
    DynMethod.new_sig (by rw [hsig, hr])
  rw [hsig] at hnew
  refine ⟨(DynTrait.new trait opts).crate, "__Storage" ++ casing.toPascalCase method.sig.ident,
    ?_⟩
  rw [hitems]
  rcases hcase with ⟨-, rfl⟩ | ⟨-, _, _, _, maybeSyncMethod, -, -, -, hms, rfl⟩
  · exact ⟨_, _, List.mem_flatMap.mpr ⟨_, hmem, List.mem_singleton_self _⟩, hnew,
      Or.inl (by rw [DynMethod.dynOutput, DynMethod.convertAsync_generics])⟩
  · obtain ⟨sig', hs, hms⟩ := Machine.bind_ok.mp hms
    obtain rfl := Machine.pure_ok.mp hms
    obtain ⟨output, hout, rfl⟩ := DynMethod.maybeSyncSignature_ok hs
    rw [hnew] at hout
    obtain rfl := ReturnType.type.inj hout
    refine ⟨_, _, List.mem_flatMap.mpr ⟨_, hmem, List.mem_singleton_self _⟩, ?_, Or.inr rfl⟩
    simp only [hnew, DynMethod.dynOutput, DynMethod.convertAsync_generics]
    rfl

end DynUtils.Macros
