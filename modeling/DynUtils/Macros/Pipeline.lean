import DynUtils.Macros.Acceptance
import DynUtils.Macros.Dispatch
import DynUtils.Macros.Stacked
import DynUtils.Macros.SyncPath

/-! Both macros, one after the other: what a call through an object of the generated trait comes
to for the value in it. -/
namespace DynUtils.Macros.Pipeline

open Syn Machine Forwarding PatternAsArg
open Transparency (Methods)
open Receivers (declared kindOf)
open Dispatch (Program Callable implFns find?_of_mem)
open FnPointers (Names Projected ProjectedArgs ProjectedSig Resolution)
open Stacked (Expands Expanded Implements enabled readOpts)
open SyncPath (endsIn endsIn_join endsIn_join_ne traitName)

/-- What comes back from a method of the generated trait, with the result that is in it. -/
inductive Returned (R : Type)
  | plain (r : R)
  /-- `DynObject::new(r)` -/
  | object (r : R)
  /-- `MaybeSync::Sync(r)` -/
  | sync (r : R)
  /-- `MaybeSync::Async(DynObject::new(r))` -/
  | async (r : R)

/-- The trait that `dyn_trait` is given, and what the types that implement it have: methods, the
hidden ones too, and constants. -/
structure Source (R : Type) where
  types : Types
  trait : ItemTrait
  distinct : (trait.items.filterMap traitName).Nodup
  resolution : Resolution
  methods : Methods (List Val) R
  consts : RustType → Ident → Option Bool

namespace Source
variable {R : Type} (P : Source R)

def fns : List DispatchableFn := P.trait.items.filterMap DynObject.itemFn

section
variable (T : RustType) (v : Value T) (env : Env)

/-- `__Dyn::name` -/
def evalConst : Expr → Option Bool
  | .path ⟨false, [.mk "__Dyn" .none, .mk name .none]⟩ => P.consts T name
  | _ => none

/-- `__Dyn::name(self, #(#exprs),*)`, in a method that has the value behind `self`. -/
def evalCall : Expr → Option (R × Value T)
  | .call (.path ⟨false, [.mk "__Dyn" .none, .mk name .none]⟩)
      (.path ⟨false, [.mk "self" .none]⟩ :: exprs) =>
    (exprs.mapM (evalArg P.types env)).map fun args => P.methods name args T v
  | _ => none

/-- `DynObject::new(expr)` -/
def evalObject : Expr → Option (R × Value T)
  | .call (.path path) [expr] =>
    if endsIn path "DynObject" "new" then P.evalCall T v env expr else none
  | _ => none

/-- The body of a method of the blanket impl. -/
def evalBody : Expr → Option (Returned R × Value T)
  | .ifElse cond thenBranch elseBranch => do
    if ← P.evalConst T cond then evalBody thenBranch else evalBody elseBranch
  | .call (.path path) args =>
    match args with
    | [expr] =>
      if endsIn path "MaybeSync" "Sync" then
        (P.evalCall T v env expr).map fun r => (.sync r.1, r.2)
      else if endsIn path "MaybeSync" "Async" then
        (P.evalObject T v env expr).map fun r => (.async r.1, r.2)
      else if endsIn path "DynObject" "new" then
        (P.evalObject T v env (.call (.path path) [expr])).map fun r => (.object r.1, r.2)
      else (P.evalCall T v env (.call (.path path) [expr])).map fun r => (.plain r.1, r.2)
    | args => (P.evalCall T v env (.call (.path path) args)).map fun r => (.plain r.1, r.2)
  | _ => none

end

/-- The scope of a method of the blanket impl, `self` aside. -/
def bindFn (sig : Signature) (args : List Val) : Option Env :=
  match sig.inputs with
  | .receiver _ :: inputs => do
    let own ← Pat.bindParams P.types (inputs.map argPat) args
    if ("self" :: own.map (·.1)).Nodup then some own else none
  | _ => none

/-- The methods that the blanket impl gives the types of the source trait. -/
def blanket (out : DynTraitOutput) : Methods (List Val) (Option (Returned R)) := fun name args T v =>
  let result := do
    let f ← (implFns out.dynImpl).find? (·.sig.ident = name)
    let env ← P.bindFn f.sig args
    P.evalBody T v env f.block.value
  match result with
  | some (r, v) => (some r, v)
  | none => (none, v)

end Source

/-! What is meant. -/

def isMaybeSync (method : TraitItemFn) : Bool :=
  match MethodAttrs.parse method with
  | .ok (attrs, _) => attrs.maybeSync
  | .error _ => false

def isOpaque (sig : Signature) : Bool := sig.asyncness || (returnImplTrait sig).isSome

/-- The method of the source, with its result as the generated trait has it. -/
def Source.meant {R : Type} (P : Source R) (casing : Casing) :
    Methods (List Val) (Option (Returned R)) := fun name args T v =>
  match P.fns.find? (·.sig.ident = name) with
  | none => (none, v)
  | some method =>
    if isMaybeSync method.toTraitItemFn then
      if P.consts T (isSyncConst casing method.sig) = some true then
        let (r, v) := P.methods (syncFn method.sig) args T v
        (some (.sync r), v)
      else
        let (r, v) := P.methods name args T v
        (some (.async r), v)
    else
      let (r, v) := P.methods name args T v
      (some (if isOpaque method.sig then .object r else .plain r), v)

/-- What the types of the generated trait can name in the impls for its objects. -/
def Source.names {R : Type} (P : Source R) (out : DynTraitOutput) : Names :=
  .of { DynObject.new out.dynTrait {} with
    types := out.dynTrait.items.filterMap DynObject.itemType } P.resolution

/-- What a caller may call a method of the source with, where the macros keep to it. -/
structure Source.Callable {R : Type} (P : Source R) (casing : Casing) (out : DynTraitOutput)
    (T : RustType) (method : DispatchableFn) (args : List Val) : Prop where
  mem : method ∈ P.fns
  receiver : ∃ r inputs, method.sig.inputs = .receiver r :: inputs ∧
    (∀ arg ∈ inputs, ∃ pat ty, arg = .typed pat ty) ∧
    ∃ lt, declared r.ty = some (kindOf (.new method), lt)
  /-- A declaration without a body cannot have it. -/
  notMut : ∀ arg ∈ method.sig.inputs, isMutSelf arg = false
  fromCaller : FromCallers args
  binds : ∃ own, Pat.bindParams P.types (params method.sig).tail args = some own
  idents : ∀ p ∈ (params method.sig).tail, IsIdent p
  names : ("self" :: "__self" :: Pat.namesElems (params method.sig).tail).Nodup
  /-- A type that implements the trait has a value for its constants. -/
  const : isMaybeSync method.toTraitItemFn = true →
    (P.consts T (isSyncConst casing method.sig)).isSome
  /-- `Self` is in the types that are written only where it means the same in both impls. -/
  projected : ∀ g, .fn g ∈ out.dynTrait.items → g.sig.ident = method.sig.ident →
    ProjectedSig (P.names out) g.sig

variable {casing : Casing} {crate : Path} {traitGenerics : List Ident} {method : TraitItemFn}

/-! The receiver of the generated method. -/

theorem declared_eq {t : Ty} (h : ∀ lt m elem, t ≠ .reference lt m elem) :
    declared t = (pinnedRef t).map fun r => (⟨true, r.mutability⟩, r.lifetime) := by
  cases t with
  | reference lt m elem => exact absurd rfl (h lt m elem)
  | _ => rfl

/-- Lifetimes are all that changes. -/
theorem declared_ty {v : VisitMut} (hv : ∀ i, v.segment i = i) (d : ℕ) (t : Ty) :
    declared (v.ty d t) = (declared t).map fun k => (k.1, v.reference d k.2) := by
  by_cases hr : ∃ lt m elem, t = .reference lt m elem
  · obtain ⟨lt, m, elem, rfl⟩ := hr
    simp only [VisitMut.ty, declared, Acceptance.isSelf_ty hv]
    cases elem.isSelf <;> rfl
  · have ht : ∀ lt m elem, t ≠ .reference lt m elem := fun lt m elem h => hr ⟨lt, m, elem, h⟩
    have hvisited : ∀ lt m elem, v.ty d t ≠ .reference lt m elem := by
      intro lt m elem h
      cases t with
      | reference lt m elem => exact ht lt m elem rfl
      | _ => cases h
    rw [declared_eq hvisited, declared_eq ht, Acceptance.pinnedRef_ty hv, Option.map_map,
      Option.map_map]
    rfl

/-- The receiver is of the same kind, and the other parameters are still typed. -/
structure SameReceiver (inputs inputs' : List FnArg) : Prop where
  same : ∀ r rest, inputs = .receiver r :: rest → (∀ arg ∈ rest, ∃ pat ty, arg = .typed pat ty) →
    ∃ r' rest', inputs' = .receiver r' :: rest' ∧ (∀ arg ∈ rest', ∃ pat ty, arg = .typed pat ty) ∧
      r'.reference.isNone = r.reference.isNone ∧ r'.mutability = r.mutability ∧
      ∀ kind lt, declared r.ty = some (kind, lt) → ∃ lt', declared r'.ty = some (kind, lt')

theorem sameReceiver_new : SameReceiver method.sig.inputs
    (DynMethod.new casing crate traitGenerics method).dynMethod.sig.inputs := by
  constructor
  intro r rest hi ht
  simp only [DynMethod.new]
  cases returnImplTrait (DynMethod.convertAsync method.sig) with
  | none =>
    simp only [DynMethod.convertAsync_inputs, hi, List.map_cons]
    refine ⟨r, _, rfl, ?_, rfl, rfl, fun kind lt h => ⟨lt, h⟩⟩
    intro arg harg
    obtain ⟨arg, ha, rfl⟩ := List.mem_map.mp harg
    obtain ⟨pat, ty, rfl⟩ := ht arg ha
    exact ⟨_, _, rfl⟩
  | some rpit =>
    simp only [DynMethod.updateDynSignature, DynMethod.convertAsync_inputs, hi, List.map_cons,
      List.map_map]
    refine ⟨_, _, rfl, ?_, ?_, rfl, ?_⟩
    · intro arg harg
      obtain ⟨arg, ha, rfl⟩ := List.mem_map.mp harg
      obtain ⟨pat, ty, rfl⟩ := ht arg ha
      exact ⟨_, _, rfl⟩
    · simp [CapturedLifetimes.visitReceiver]
    · intro kind lt h
      exact ⟨_, (declared_ty Filtering.visitor_segment 0 r.ty).trans (by rw [h]; rfl)⟩

/-! What is made of a method. -/

/-- A method of the generated trait, and that of the blanket impl. -/
structure Made (casing : Casing) (method g : TraitItemFn) (f : ImplItemFn) (d : DynMethod) :
    Prop where
  origSig : d.origSig = method.sig
  params : params g.sig = method.sig.inputs.map fun arg => argPat (visitFnArg arg)
  implInputs : f.sig.inputs = g.sig.inputs
  receiver : SameReceiver method.sig.inputs g.sig.inputs
  ident : g.sig.ident = method.sig.ident
  implIdent : f.sig.ident = method.sig.ident
  isOpaque : d.rpit.isSome = isOpaque method.sig
  body : isMaybeSync method = false ∧ f = d.implMethod ∨
    isMaybeSync method = true ∧ d.maybeSyncImpl casing = .ok f

theorem rpit_isSome : (DynMethod.new casing crate traitGenerics method).rpit.isSome =
    isOpaque method.sig := by
  simp only [DynMethod.new, isOpaque]
  cases ha : method.sig.asyncness with
  | true => simp [DynMethod.convertAsync_async ha, returnImplTrait, returnType, implFuture]
  | false => simp [DynMethod.convertAsync_plain ha, returnImplTrait, returnType]

theorem convertMethod_made {base : DynTrait} {o : ItemOutput}
    (h : base.convertMethod casing method = .ok o) :
    ∃ g f d, o.dynItems = [.fn g] ∧ o.implItems = [.fn f] ∧ Made casing method g f d := by
  obtain ⟨attrs, method', hp, hcase⟩ := DynTrait.convertMethod_ok h
  have hsig : method'.sig = method.sig := MethodAttrs.parse_sig hp
  have hsync : isMaybeSync method = attrs.maybeSync := by simp [isMaybeSync, hp]
  have hparams : params (base.dynMethod casing method').dynMethod.sig =
      method.sig.inputs.map fun arg => argPat (visitFnArg arg) := by
    rw [← hsig]
    exact params_new ..
  have hrecv : SameReceiver method.sig.inputs
      (base.dynMethod casing method').dynMethod.sig.inputs := by
    rw [← hsig]
    exact sameReceiver_new
  have hident : (base.dynMethod casing method').dynMethod.sig.ident = method.sig.ident := by
    rw [← hsig]
    exact DynMethod.new_ident ..
  have hopaque : (base.dynMethod casing method').rpit.isSome = isOpaque method.sig := by
    rw [← hsig]
    exact rpit_isSome
  rcases hcase with ⟨hs, rfl⟩ | ⟨hs, _, _, f, g, -, -, hf, hg, rfl⟩
  · exact ⟨_, _, _, rfl, rfl, hsig, hparams, rfl, hrecv, hident, hident, hopaque,
      Or.inl ⟨hsync.trans hs, rfl⟩⟩
  · obtain ⟨sig, hsig', hg⟩ := bind_ok.mp hg
    obtain rfl := pure_ok.mp hg
    obtain ⟨_, -, rfl⟩ := DynMethod.maybeSyncSignature_ok hsig'
    obtain ⟨-, ⟨_, hfsig⟩, -⟩ := DynMethod.maybeSyncImpl_ok hf
    refine ⟨_, f, _, rfl, rfl, hsig, hparams, ?_, hrecv, hident, ?_, hopaque,
      Or.inr ⟨hsync.trans hs, hf⟩⟩
    · rw [hfsig]
    · rw [hfsig]
      exact hident

theorem itemFn_eq_some {item : TraitItem} {m : DispatchableFn} (h : DynObject.itemFn item = some m) :
    item = .fn m.toTraitItemFn := by
  cases item with
  | fn method =>
    simp only [DynObject.itemFn] at h
    split at h
    · obtain rfl := Option.some.inj h
      rfl
    · cases h
  | _ => cases h

/-- The names of the methods that the macros take over, in order. -/
def fnNames (items : List TraitItem) : List Ident :=
  (items.filterMap DynObject.itemFn).map (·.sig.ident)

theorem fnNames_eq (items : List TraitItem) :
    fnNames items = items.flatMap fun item => fnNames [item] := by
  induction items with
  | nil => rfl
  | cons item items ih =>
    rw [List.flatMap_cons, ← ih]
    simp only [fnNames, ← List.map_append, ← List.filterMap_append, List.singleton_append]

theorem fnNames_nodup {items : List TraitItem} (h : (items.filterMap traitName).Nodup) :
    (fnNames items).Nodup := by
  rw [fnNames, List.Nodup, List.pairwise_map, List.pairwise_filterMap]
  apply (List.pairwise_filterMap.mp h).imp
  intro a b hne m hm m' hm'
  rw [itemFn_eq_some hm, itemFn_eq_some hm'] at hne
  exact hne _ rfl _ rfl

/-- The names of what an item is made into are its own. -/
theorem fnNames_convertItem {base : DynTrait} {item : TraitItem} {o : ItemOutput}
    (h : base.convertItem casing item = .ok o) : fnNames o.dynItems = fnNames [item] ∧
      (o.implItems.filterMap fun | .fn f => some f.sig.ident | _ => none) = fnNames [item] := by
  have hsupported := Acceptance.convertItem_supported h
  rcases DynTrait.convertItem_cases h with ⟨ty, rfl, -, rfl⟩ | ⟨m, rfl, hd, h⟩ | ⟨-, hn, rfl⟩
  · exact ⟨rfl, rfl⟩
  · obtain ⟨g, f, d, hg, hf, hmade⟩ := convertMethod_made h
    have hdisp : isDispatchable g = true := hsupported (.fn g) (by simp [hg])
    rw [hg, hf]
    simp [fnNames, DynObject.itemFn, hd, hdisp, hmade.ident, hmade.implIdent]
  · have hnone : DynObject.itemFn item = none := by
      cases item with
      | fn method => simp [DynObject.itemFn, hn method rfl]
      | _ => rfl
    simp [fnNames, hnone]

section
variable {R : Type} {P : Source R} {opts : DynTraitOpts} {out : DynTraitOutput}
  (h : dynTraitImpl casing P.trait opts = .ok out)

include h

theorem exists_made {m : DispatchableFn} (hm : m ∈ P.fns) :
    ∃ g f d, .fn g ∈ out.dynTrait.items ∧ .fn f ∈ out.dynImpl.items ∧
      Made casing m.toTraitItemFn g f d := by
  obtain ⟨outs, ho, hdyn, himpl, -⟩ := dynTraitImpl_ok h
  obtain ⟨item, hi, hitem⟩ := List.mem_filterMap.mp hm
  obtain rfl := itemFn_eq_some hitem
  obtain ⟨o, hmem, hc⟩ := exists_right_of_forall₂ ho hi
  simp only [DynTrait.convertItem, m.dispatchable, if_true] at hc
  obtain ⟨g, f, d, hg, hf, hmade⟩ := convertMethod_made hc
  refine ⟨g, f, d, ?_, ?_, hmade⟩
  · rw [hdyn]
    exact List.mem_flatMap.mpr ⟨o, hmem, by simp [hg]⟩
  · rw [himpl]
    exact List.mem_flatMap.mpr ⟨o, hmem, by simp [hf]⟩

theorem fnNames_dynTrait : fnNames out.dynTrait.items = fnNames P.trait.items := by
  obtain ⟨outs, ho, hdyn, -⟩ := dynTraitImpl_ok h
  rw [hdyn, fnNames_eq P.trait.items, fnNames, List.filterMap_flatMap, List.map_flatMap]
  exact flatMap_of_forall₂ ho fun _ _ hc => (fnNames_convertItem hc).1

theorem names_dynImpl : (implFns out.dynImpl).map (·.sig.ident) = fnNames P.trait.items := by
  obtain ⟨outs, ho, -, himpl, -⟩ := dynTraitImpl_ok h
  rw [fnNames_eq P.trait.items, implFns, himpl, List.filterMap_flatMap, List.map_flatMap]
  refine flatMap_of_forall₂ ho fun _ o hc => ?_
  rw [← (fnNames_convertItem hc).2, List.map_filterMap]
  congr 1
  funext i
  cases i <;> rfl

end

/-- The parameters of the generated method after the receiver are the cleaned ones. -/
theorem Made.tail {g : TraitItemFn} {f : ImplItemFn} {d : DynMethod} (hmade : Made casing method g f d)
    {r : Receiver} {inputs : List FnArg} (hi : method.sig.inputs = .receiver r :: inputs)
    (ht : ∀ arg ∈ inputs, ∃ pat ty, arg = .typed pat ty) :
    (Forwarding.params g.sig).tail = visitPats (Forwarding.params method.sig).tail := by
  rw [hmade.params, Forwarding.params, hi, List.map_cons, List.tail_cons, List.map_cons,
    List.tail_cons, visitPats_eq_map, List.map_map]
  apply List.map_congr_left
  intro arg harg
  obtain ⟨pat, ty, rfl⟩ := ht arg harg
  rfl

/-! The bodies of the blanket impl. -/

theorem mapM_pats {S : Types} {env : Env} {ps : List Pat} {vs : List Val}
    (h : Pat.evalElems S env ps = some vs) :
    (ps.map Expr.pat).mapM (evalArg S env) = some vs := by
  induction ps generalizing vs with
  | nil =>
    obtain rfl := Option.some.inj h
    rfl
  | cons p ps ih =>
    cases vs with
    | nil => cases Pat.evalElems_length h
    | cons v vs =>
      obtain ⟨hv, hvs⟩ := Pat.evalElems_cons.mp h
      rw [List.map_cons, List.mapM_cons, ih hvs]
      simp [evalArg, evalPlain, hv]

theorem endsIn_dynPath (name : Ident) {a b : Ident} (ha : a ≠ "__Dyn") :
    endsIn (.ofIdents false ["__Dyn", name]) a b = false := by
  simp [endsIn, Path.ofIdents, PathSegment.plain, ha.symm]

/-- The other way of two names of which the first differ. -/
theorem endsIn_join_ne_left {a b c d : Ident} (crate : Path) (h : a ≠ c) :
    endsIn (crate.join [a, b]) c d = false := by
  simp [endsIn, Path.join, PathSegment.plain, h]

section
variable {R : Type} {P : Source R} {T : RustType} {v : Value T} {env : Env} {exprs : List Expr}
  {args : List Val} (hargs : exprs.mapM (evalArg P.types env) = some args)

include hargs

theorem evalCall_eq (name : Ident) :
    P.evalCall T v env (.call (DynMethod.dynPath name) (selfArg :: exprs)) =
      some (P.methods name args T v) := by
  simp [Source.evalCall, DynMethod.dynPath, selfArg, Path.ofIdents, PathSegment.plain, hargs]

theorem evalBody_plain (name : Ident) :
    P.evalBody T v env (.call (DynMethod.dynPath name) (selfArg :: exprs)) =
      some (.plain (P.methods name args T v).1, (P.methods name args T v).2) := by
  have hcall := evalCall_eq (v := v) hargs name
  rw [DynMethod.dynPath] at hcall ⊢
  cases exprs with
  | nil =>
    simp only [Source.evalBody, endsIn_dynPath name (by decide : "MaybeSync" ≠ "__Dyn"),
      endsIn_dynPath name (by decide : "DynObject" ≠ "__Dyn"), Bool.false_eq_true, if_false]
    rw [hcall]
    rfl
  | cons e es =>
    simp only [Source.evalBody]
    rw [hcall]
    rfl

theorem evalObject_eq (crate : Path) (name : Ident) :
    P.evalObject T v env
        (DynMethod.dynObjectNew crate (.call (DynMethod.dynPath name) (selfArg :: exprs))) =
      some (P.methods name args T v) := by
  simp only [DynMethod.dynObjectNew, Source.evalObject, endsIn_join, if_true]
  exact evalCall_eq hargs name

theorem evalBody_object (crate : Path) (name : Ident) :
    P.evalBody T v env
        (DynMethod.dynObjectNew crate (.call (DynMethod.dynPath name) (selfArg :: exprs))) =
      some (.object (P.methods name args T v).1, (P.methods name args T v).2) := by
  have hobject := evalObject_eq (v := v) hargs crate name
  rw [DynMethod.dynObjectNew] at hobject ⊢
  simp only [Source.evalBody, endsIn_join, if_true, Bool.false_eq_true, if_false,
    endsIn_join_ne_left crate (by decide : "DynObject" ≠ "MaybeSync")]
  rw [hobject]
  rfl

/-- The constant of the type chooses. -/
theorem evalBody_maybeSync {d : DynMethod} {f : ImplItemFn} (hf : d.maybeSyncImpl casing = .ok f)
    (he : fnArgs d.origSig = selfArg :: exprs) {value : Bool}
    (hc : P.consts T (isSyncConst casing d.origSig) = some value) :
    P.evalBody T v env f.block.value =
      let sync := P.methods (syncFn d.origSig) args T v
      let async := P.methods d.origSig.ident args T v
      some (if value then (.sync sync.1, sync.2) else (.async async.1, async.2)) := by
  obtain ⟨-, -, hblock⟩ := DynMethod.maybeSyncImpl_ok hf
  have hconst : P.evalConst T (DynMethod.dynPath (isSyncConst casing d.origSig)) = some value := by
    simp [Source.evalConst, DynMethod.dynPath, Path.ofIdents, PathSegment.plain, hc]
  rw [hblock, he]
  simp only [Source.evalBody, hconst, Option.bind_eq_bind, Option.bind_some, endsIn_join, if_true,
    endsIn_join_ne _ (by decide : "Async" ≠ "Sync"), Bool.false_eq_true, if_false,
    evalCall_eq (v := v) hargs, evalObject_eq (v := v) hargs, Option.map_some]
  cases value <;> rfl

end

section
variable {R : Type} {P : Source R} {opts : DynTraitOpts} {out : DynTraitOutput}
  (h : dynTraitImpl casing P.trait opts = .ok out) {T : RustType} {m : DispatchableFn}
  {args : List Val}

/-- What is called is bound to the cleaned parameters, and read from them. -/
theorem scope_of_callable (hc : P.Callable casing out T m args) {ps : List Pat}
    (hps : ps = visitPats (params m.sig).tail) :
    ∃ env, Pat.bindParams P.types ps args = some env ∧ ("self" :: env.map (·.1)).Nodup ∧
      ReadsBackElems P.types ps args ∧ Pat.evalElems P.types env ps = some args := by
  subst hps
  obtain ⟨own, hown⟩ := hc.binds
  obtain ⟨hreads, env, henv⟩ := bindParams_idents hown hc.idents
  have hsub : (Pat.namesElems (visitPats (params m.sig).tail)).Sublist
      ("__self" :: Pat.namesElems (params m.sig).tail) :=
    (names_visitPats _).trans (List.sublist_cons_self _ _)
  have hn : ("self" :: env.map (·.1)).Nodup := by
    rw [Pat.bindParams_names henv]
    exact hc.names.sublist (hsub.cons_cons "self")
  have hpart : Part env env := part_self (List.nodup_cons.mp hn).2
  refine ⟨env, henv, hn, hreads, ?_⟩
  rw [← visitPats_visitPats]
  exact (evalParams_iff hc.fromCaller hpart henv).mpr hreads

theorem find_fns (hm : m ∈ P.fns) : P.fns.find? (·.sig.ident = m.sig.ident) = some m :=
  find?_of_mem (fnNames_nodup P.distinct) hm

/-- The method of the source, as the printed call of it has it. -/
theorem fnArgs_eq (hc : P.Callable casing out T m args) :
    fnArgs m.sig = selfArg :: (visitPats (params m.sig).tail).map .pat := by
  obtain ⟨r, inputs, hi, ht, -⟩ := hc.receiver
  rw [← Dispatch.fnArgs_typed hi ht, fnArgs, hi]
  rfl

include h

theorem find_impl {f : ImplItemFn} (hf : .fn f ∈ out.dynImpl.items) :
    (implFns out.dynImpl).find? (·.sig.ident = f.sig.ident) = some f := by
  have hn : ((implFns out.dynImpl).map (·.sig.ident)).Nodup := by
    rw [names_dynImpl h]
    exact fnNames_nodup P.distinct
  exact find?_of_mem hn (List.mem_filterMap.mpr ⟨_, hf, rfl⟩)

/-- A method of the blanket impl does what is meant by it. -/
theorem blanket_eq (hc : P.Callable casing out T m args) (v : Value T) :
    P.blanket out m.sig.ident args T v = P.meant casing m.sig.ident args T v := by
  obtain ⟨g, f, d, -, hf, hmade⟩ := exists_made h hc.mem
  obtain ⟨r, rest, hi, ht, -⟩ := hc.receiver
  obtain ⟨r', rest', hi', -⟩ := hmade.receiver.same r rest hi ht
  have htail : rest'.map argPat = visitPats (params m.sig).tail := by
    rw [← hmade.tail hi ht, params, hi']
    rfl
  obtain ⟨env, henv, hn, -, heval⟩ := scope_of_callable hc htail
  rw [htail] at heval
  have hargs := mapM_pats heval
  have hbind : P.bindFn f.sig args = some env := by
    simp only [Source.bindFn, hmade.implInputs, hi', henv]
    exact if_pos hn
  have hfind := find_impl h hf
  rw [hmade.implIdent] at hfind
  simp only [Source.blanket, Source.meant, hfind, find_fns hc.mem, Option.bind_eq_bind,
    Option.bind_some, hbind]
  have horig := hmade.origSig
  have hprinted := fnArgs_eq hc
  rcases hmade.body with ⟨hs, rfl⟩ | ⟨hs, hsync⟩
  · rw [if_neg (by simp [hs])]
    simp only [DynMethod.implMethod, implMethod, horig, hprinted]
    cases ho : isOpaque m.sig with
    | true =>
      rw [if_pos (hmade.isOpaque.trans ho), evalBody_object hargs]
      rfl
    | false =>
      rw [if_neg (by simp [hmade.isOpaque, ho]), evalBody_plain hargs]
      rfl
  · rw [if_pos hs]
    obtain ⟨value, hvalue⟩ := Option.isSome_iff_exists.mp (hc.const hs)
    rw [evalBody_maybeSync hargs hsync (by rw [horig, hprinted]) (by rw [horig, hvalue]), hvalue,
      horig]
    cases value <;> rfl

/-- The trait that is written, as one to be given to `dyn_object`. -/
def Source.generated (P : Source R) {opts : DynTraitOpts} {out : DynTraitOutput}
    (h : dynTraitImpl casing P.trait opts = .ok out) : Program (Option (Returned R)) where
  types := P.types
  trait := out.dynTrait
  distinct := by
    have hn := fnNames_nodup P.distinct
    rwa [← fnNames_dynTrait h] at hn
  resolution := P.resolution
  methods := P.blanket out

/-- A method that can be called can be called by the generated trait as well. -/
theorem callable_generated (hc : P.Callable casing out T m args) :
    ∃ g, g.sig.ident = m.sig.ident ∧ Callable (P.generated h) g args := by
  obtain ⟨g, f, d, hg, -, hmade⟩ := exists_made h hc.mem
  obtain ⟨r, rest, hi, ht, lt, hr⟩ := hc.receiver
  obtain ⟨r', rest', hi', ht', hnone, hmut, hdecl⟩ := hmade.receiver.same r rest hi ht
  have hdisp : isDispatchable g = true := Acceptance.supported_dynTrait h _ hg
  have htail : (params g.sig).tail = visitPats (params m.sig).tail := hmade.tail hi ht
  obtain ⟨env, henv, -, hreads, -⟩ := scope_of_callable hc htail
  refine ⟨⟨g, hdisp⟩, hmade.ident, ?_⟩
  constructor
  · exact List.mem_filterMap.mpr ⟨_, hg, by simp [DynObject.itemFn, hdisp]⟩
  · have hrecv : DispatchableFn.receiver ⟨g, hdisp⟩ = r' := by
      simp [DispatchableFn.receiver, Signature.receiver, hi']
    have hrecv' : m.receiver = r := by
      simp [DispatchableFn.receiver, Signature.receiver, hi]
    have hkind : kindOf (.new ⟨g, hdisp⟩) = kindOf (.new m) := by
      simp only [VtableReceiver.new, hrecv, hrecv', hnone, hmut]
    refine ⟨r', rest', hi', ht', ?_⟩
    rw [hkind]
    exact hdecl _ _ hr
  · exact hc.fromCaller
  · exact ⟨env, henv⟩
  · exact hreads
  · rw [htail]
    exact hc.names.sublist (((names_visitPats _).cons_cons "__self").cons_cons "self")
  · exact hc.projected g hg hmade.ident

end

/-! The attributes that the source hands to the generated trait. -/

def helperArg : Meta → Option Meta
  | .list ["dyn_trait"] [m] => some m
  | _ => none

/-- What is in the attributes `#[dyn_trait(..)]` of the trait. -/
def handed (trait : ItemTrait) : List Meta := (trait.attrs.map (·.content)).filterMap helperArg

theorem helperArg_eq_some {m arg : Meta} :
    helperArg m = some arg ↔ m = .list ["dyn_trait"] [arg] := by
  constructor
  · intro h
    unfold helperArg at h
    split at h
    · obtain rfl := Option.some.inj h
      rfl
    · cases h
  · rintro rfl
    rfl

theorem helperArg_of_not {m : Meta} (h : ¬ m.isIdent "dyn_trait") : helperArg m = none := by
  cases hm : helperArg m with
  | none => rfl
  | some arg =>
    obtain rfl := helperArg_eq_some.mp hm
    exact absurd rfl h

theorem attrs_extracted {trait trait' : ItemTrait} {hs : List Attribute}
    (h : extractDynTraitAttrs trait = .ok (hs, trait')) :
    hs = (handed trait).map Attribute.mk := by
  simp only [extractDynTraitAttrs, List.partition_eq_filter_filter, bind_ok, pure_ok,
    Prod.mk.injEq] at h
  obtain ⟨hs', hm, rfl, -⟩ := h
  rw [handed]
  generalize trait.attrs = attrs at hm
  induction attrs generalizing hs' with
  | nil => exact (pure_ok.mp hm).symm
  | cons attr attrs ih =>
    rw [List.map_cons]
    by_cases hd : attr.content.isIdent "dyn_trait"
    · rw [List.filter_cons_of_pos (by simp [hd]), List.mapM_cons] at hm
      obtain ⟨a, ha, hm⟩ := bind_ok.mp hm
      obtain ⟨rest, hrest, hm⟩ := bind_ok.mp hm
      obtain rfl := pure_ok.mp hm
      have hsome : helperArg attr.content = some a.content := by
        obtain ⟨content⟩ := attr
        cases content with
        | list path nested =>
          obtain rfl : path = ["dyn_trait"] := of_decide_eq_true hd
          rcases nested with _ | ⟨m, _ | _⟩
          · cases ha
          · rw [← Except.ok.inj ha, helperArg]
          · cases ha
        | _ => cases ha
      rw [List.filterMap_cons_some hsome, List.map_cons, ih rest hrest]
    · rw [List.filter_cons_of_neg (by simp [hd])] at hm
      rw [List.filterMap_cons_none (helperArg_of_not hd)]
      exact ih hs' hm

theorem attrs_dynTrait {trait : ItemTrait} {opts : DynTraitOpts} {out : DynTraitOutput}
    (h : dynTraitImpl casing trait opts = .ok out) :
    out.dynTrait.attrs = docAttrs trait.ident ++ (handed trait).map Attribute.mk := by
  obtain ⟨⟨attrs, trait'⟩, he, h⟩ := bind_ok.mp h
  obtain rfl := attrs_extracted he
  obtain ⟨rest, rfl⟩ := extractDynTraitAttrs_ok he
  dsimp only at h
  split at h
  · cases h
  · obtain ⟨_, -, h⟩ := bind_ok.mp h
    obtain ⟨_, -, h⟩ := bind_ok.mp h
    obtain rfl := pure_ok.mp h
    rfl

/-! Both macros. -/

open Transparency (State Op Started Holds directly direct)

section
variable [FieldOffsets] {R : Type} {P : Source R} {opts : DynTraitOpts} {out : DynTraitOutput}
  (h : dynTraitImpl casing P.trait opts = .ok out) {k : StorageKind} {s : State k}
  {T : RustType} {v : Value T}

/-- Calls are those of the source's methods. -/
def Allowed (T : RustType) (s : State k) : Op (List Val) → Prop
  | .call name args =>
    ∃ method : DispatchableFn, method.sig.ident = name ∧ P.Callable casing out T method args
  | op => Transparency.Allowed (P.generated h).dynTrait T s op

theorem allowed_generated {op : Op (List Val)} (hok : Allowed h T s op) :
    Dispatch.Allowed (P.generated h) T s op := by
  cases op with
  | call name args =>
    obtain ⟨m, rfl, hc⟩ := hok
    obtain ⟨g, hg, hcall⟩ := callable_generated h hc
    exact ⟨g, hg, hcall⟩
  | _ => exact hok

theorem direct_meant {op : Op (List Val)} (hok : Allowed h T s op) (v : Value T) :
    direct (P.generated h).methods T v op = direct (P.meant casing) T v op := by
  cases op with
  | call name args =>
    obtain ⟨m, rfl, hc⟩ := hok
    have heq := blanket_eq h hc v
    simp only [direct, Op.asCall, directly, Source.generated, heq]
  | _ => rfl

theorem step_meant {obj : DynObjectOutput} {objOpts : DynObjectOps}
    (hobj : dynObjectImpl out.dynTrait objOpts = .ok obj) {op : Op (List Val)}
    (hs : Holds (P.generated h).dynTrait s v) (hok : Allowed h T s op) :
    ∃ s', Dispatch.step (P.generated h) obj T s op =
        .ok ((direct (P.meant casing) T v op).1, s') ∧
      Holds (P.generated h).dynTrait s' (direct (P.meant casing) T v op).2 := by
  rw [← direct_meant h hok]
  exact Dispatch.step_simulates hobj hs (allowed_generated h hok)

end

section
variable {R : Type} {P : Source R} {opts : DynTraitOpts} {out : DynTraitOutput}
  (h : dynTraitImpl casing P.trait opts = .ok out)

include h

/-- Every attribute for `dyn_object` that is handed to the generated trait is expanded, and the
trait is there once. -/
theorem expands_handed {cfg : Meta → Bool} (hargs : ∀ m ∈ enabled cfg (handed P.trait),
      ∃ args, readOpts m = .ok args ∧ args.remote = none) :
    ∃ p, Expands cfg out.dynTrait p ∧
      Expanded out.dynTrait false (enabled cfg (handed P.trait)) p := by
  have hattrs : out.dynTrait.attrs.map (·.content) =
      (docAttrs P.trait.ident).map (·.content) ++ handed P.trait := by
    rw [attrs_dynTrait h, List.map_append, List.map_map]
    simp [Function.comp_def]
  have henabled : enabled cfg (out.dynTrait.attrs.map (·.content)) =
      enabled cfg (handed P.trait) := by
    rw [hattrs, Stacked.enabled_append]
    rfl
  have hread : ∀ m ∈ enabled cfg (out.dynTrait.attrs.map (·.content)),
      ∃ args, readOpts m = .ok args ∧ args.remote.isSome = false := by
    rw [henabled]
    intro m hm
    obtain ⟨args, hread, hremote⟩ := hargs m hm
    exact ⟨args, hread, by simp [hremote]⟩
  obtain ⟨p, hp, hexpanded⟩ := Stacked.expands_enabled (Acceptance.supported_dynTrait h) hread
    (fun hr => by cases hr)
  rw [henabled] at hexpanded
  exact ⟨p, hp, hexpanded⟩

/-- What an attribute gives where it is expanded is what it gives by itself. -/
theorem output_of_implements {m : Meta} {obj : DynObjectOutput}
    (hm : Implements out.dynTrait m obj) :
    ∃ args alone, dynObjectImpl out.dynTrait args = .ok alone ∧
      alone.vtableImpl = obj.vtableImpl ∧ alone.traitImpl = obj.traitImpl := by
  obtain ⟨args, bare, hread, hbare, hobj⟩ := hm
  obtain ⟨alone, halone, ⟨_, _, hread', hbare', heq⟩, -⟩ :=
    Stacked.dynObjectImpl_attrs hread (Acceptance.supported_dynTrait h) out.dynTrait.attrs
  obtain rfl := Except.ok.inj (hread.symm.trans hread')
  obtain rfl := Except.ok.inj (hbare.symm.trans hbare')
  refine ⟨_, alone, halone, ?_, ?_⟩
  · rw [heq, hobj]
  · rw [heq, hobj]

end

section
variable [FieldOffsets] {R : Type} {P : Source R} {opts : DynTraitOpts} {out : DynTraitOutput}
  (h : dynTraitImpl casing P.trait opts = .ok out)

/-- Objects of the generated trait that run this code give the results of the source's own
methods: those of a future or an iterator in an object, and those under `maybe_sync` by the
constant of the type. -/
def Faithful (obj : DynObjectOutput) : Prop :=
  ∀ (k : StorageKind) (s : State k) (T : RustType) (v : Value T) (ops : List (Op (List Val))),
    Started (P.generated h).dynTrait v s →
    Along (Dispatch.step (P.generated h) obj T) (Allowed h T) s ops →
    ∃ outs u, run (Dispatch.step (P.generated h) obj T) s ops = .ok (outs, u) ∧
      outs.reduceOption = (iterate (directly (P.meant casing) T) v (ops.filterMap Op.asCall)).1 ∧
      u.value T = (iterate (directly (P.meant casing) T) v (ops.filterMap Op.asCall)).2

theorem faithful_of_output {obj : DynObjectOutput} {args : DynObjectOps}
    (hobj : dynObjectImpl out.dynTrait args = .ok obj) : Faithful h obj := by
  intro k s T v ops hs hok
  exact Dispatch.run_of_steps (fun _ _ _ hs hok => step_meant h hobj hs hok) hs hok

/-- The vtable and the impl are all that is run. -/
theorem Faithful.congr {obj obj' : DynObjectOutput} (hv : obj.vtableImpl = obj'.vtableImpl)
    (hi : obj.traitImpl = obj'.traitImpl) (hf : Faithful h obj) : Faithful h obj' := by
  have hstep : ∀ (k : StorageKind) (T : RustType),
      Dispatch.step (k := k) (P.generated h) obj' T = Dispatch.step (P.generated h) obj T := by
    intro k T
    obtain ⟨_, _, _, _⟩ := obj
    obtain ⟨_, _, _, _⟩ := obj'
    obtain rfl := hv
    obtain rfl := hi
    rfl
  intro k s T v ops hs hok
  rw [hstep] at hok ⊢
  exact hf k s T v ops hs hok

end

/-- A plain method, `fn nth(&self, n: usize)`, and one under `maybe_sync`,
`async fn run(&self) -> usize`, for objects that may be `Send` and others. -/
def feed : ItemTrait where
  attrs := [⟨.list ["dyn_trait"] [.path ["dyn_object"]]⟩,
    ⟨.list ["dyn_trait"] [.list ["dyn_object"] [Stacked.argSend]]⟩]
  unsafety := false
  ident := "Feed"
  generics := ⟨[], none⟩
  colon := false
  supertraits := []
  items := [.fn (nth (.ident false false "n" none)).toTraitItemFn, .fn SyncPath.runMethod]

/-- Its values say what was called, with their first byte, and count up. -/
def feeding : Source (Ident × List Val × Cell) where
  types := noTypes
  trait := feed
  distinct := by decide
  resolution := .fixing (· = ["DynFeed"]) []
  methods := fun name args T v =>
    ((name, args, if h : 0 < T.size then v ⟨0, h⟩ else none), fun i => (v i).map (· + 1))
  consts := fun _ _ => some true

theorem projected_join {n : Names} {name : Ident} {args : List GenericArgument}
    (hname : name ≠ "Self") (h : ProjectedArgs n args) :
    Projected n ((crateName.join [name]).withArgs args).toTy :=
  Or.inr (Or.inr ⟨fun h => Bool.noConfusion h.1, by decide, trivial, hname, h, trivial⟩)

theorem projected_ofIdent {n : Names} {name : Ident} (hs : name ≠ "Self") (hd : name ≠ "__Dyn") :
    Projected n (.ofIdent name) :=
  Or.inr (Or.inr ⟨fun h => hd h.2, hs, trivial, trivial⟩)

/-- What the method `run` of `DynFeed` returns. -/
theorem projected_run (n : Names) : Projected n ((crateName.join ["MaybeSync"]).withArgs
    [.type (DynMethod.dynOutput crateName ⟨[], none⟩
      [.trait false [] false [.mk "Future"
        (.angleBracketed [.assocType "Output" [] (.ofIdent "usize")])]] "__StorageRun")]).toTy := by
  have hfuture : ProjectedArgs n [.assocType "Output" [] (.ofIdent "usize")] :=
    ⟨trivial, projected_ofIdent (by decide) (by decide), trivial⟩
  have hstorage : Projected n (.ofIdent "__StorageRun") := projected_ofIdent (by decide) (by decide)
  exact projected_join (by decide) ⟨projected_join (by decide)
    ⟨⟨⟨by decide, hfuture, trivial⟩, trivial⟩, hstorage, trivial⟩, trivial⟩

/-- The methods of `DynFeed` do not mention `Self`. -/
theorem projected_feed {out : DynTraitOutput} (h : dynTraitImpl .ascii feeding.trait {} = .ok out) :
    ∀ g, .fn g ∈ out.dynTrait.items → ProjectedSig (feeding.names out) g.sig := by
  obtain rfl := Except.ok.inj h
  intro g hg
  rcases List.mem_cons.mp hg with hg | hg
  · obtain rfl := TraitItem.fn.inj hg
    exact Dispatch.projected_nth _ (.ident false false "n" none)
  · obtain rfl := TraitItem.fn.inj (List.mem_singleton.mp hg)
    exact ⟨trivial, projected_run _⟩

section
variable {out : DynTraitOutput} (h : dynTraitImpl .ascii feeding.trait {} = .ok out)

include h

theorem callable_feed (n : ℕ) : feeding.Callable .ascii out (.bytes 1)
    (nth (.ident false false "n" none)) [.atom n] where
  mem := List.mem_cons_self
  receiver := ⟨_, _, rfl, by simp, _, rfl⟩
  notMut := by decide
  fromCaller := by simp [FromCallers, Val.FromCaller]
  binds := ⟨_, rfl⟩
  idents := by simp [params, nth, argPat, IsIdent]
  names := by decide
  const := fun _ => rfl
  projected := fun g hg _ => projected_feed h g hg

theorem callable_run :
    feeding.Callable .ascii out (.bytes 1) ⟨SyncPath.runMethod, rfl⟩ [] where
  mem := List.mem_cons_of_mem _ (List.mem_singleton_self _)
  receiver := ⟨_, _, rfl, by simp, _, rfl⟩
  notMut := by decide
  fromCaller := by simp [FromCallers]
  binds := ⟨_, rfl⟩
  idents := by simp [params, SyncPath.runMethod, SyncPath.runSig]
  names := by decide
  const := fun _ => rfl
  projected := fun g hg _ => projected_feed h g hg

end

def nthThenRun : List (Op (List Val)) := [.call "nth" [.atom 3], .move 256, .call "run" []]

end DynUtils.Macros.Pipeline
