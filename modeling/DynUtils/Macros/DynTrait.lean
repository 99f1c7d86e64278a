import DynUtils.Lib.Machine
import DynUtils.Macros.Sync

/-! The macro `dyn_trait`. -/
namespace DynUtils.Macros

open Syn

structure DynTraitOpts where
  crate : Option Path := none
  remote : Option Path := none
  nameTemplate : Option String := none

/-- An identifier or a string, as the name of the generated trait. -/
def parseTraitName : MetaValue → Except Error String
  | .path ⟨false, [.mk ident .none]⟩ => .ok ident
  | .path ⟨false, _⟩ | .bounds (⟨false, _⟩ :: _) => .error .parse
  | .str value => .ok value
  | _ => .error (.bail "invalid trait name")

def DynTraitOpts.parseMeta (self : DynTraitOpts) (m : Meta) : Except Error DynTraitOpts :=
  if m.isIdent "crate" then
    match m with
    | .nameValue _ (.path p) => .ok { self with crate := some p }
    | _ => .error .parse
  else if m.isIdent "remote" then
    match m with
    | .nameValue _ (.path p) => .ok { self with remote := some p }
    | _ => .error .parse
  else if m.isIdent "trait" then
    match m with
    | .nameValue _ value => do
      let name ← parseTraitName value
      return { self with nameTemplate := some name }
    | _ => .error .parse
  else .error (.bail "unknown attribute")

/-- `'__dyn` -/
def dynLt : Lifetime := ⟨"__dyn"⟩

/-- `'_` -/
def defaultLt : Lifetime := ⟨"_"⟩

/-- The parameters of `use<..>`. -/
def preciseCapture (ret : List TypeParamBound) : Option (List CapturedParam) :=
  ret.findSome? fun
    | .preciseCapture params => some params
    | _ => none

structure CapturedLifetimes where
  captured : List Lifetime

namespace CapturedLifetimes

def new (ret : List TypeParamBound) (generics : Generics) : CapturedLifetimes where
  captured :=
    match preciseCapture ret with
    | some params => params.filterMap fun
      | .lifetime l => some l
      | .ident _ => none
    | none => generics.lifetimes.map (·.lifetime) ++ [defaultLt]

def visitLifetime (self : CapturedLifetimes) (i : Lifetime) : Lifetime :=
  if i = defaultLt ∧ i ∈ self.captured then dynLt else i

def visitLifetimeParam (self : CapturedLifetimes) (i : LifetimeParam) : LifetimeParam :=
  if i.lifetime ∈ self.captured then { i with bounds := i.bounds ++ [dynLt] } else i

/-- The overrides, which do not ask for the binders around. -/
def visitor (self : CapturedLifetimes) : VisitMut where
  lifetime _ := self.visitLifetime
  reference _ l := some (self.visitLifetime (l.getD defaultLt))
  lifetimeParam _ := self.visitLifetimeParam

def visitReceiver (self : CapturedLifetimes) (i : Receiver) : Receiver :=
  { i with
    reference := i.reference.map fun l => some (self.visitLifetime (l.getD defaultLt))
    ty := self.visitor.ty 0 i.ty }

def visitFnArg (self : CapturedLifetimes) : FnArg → FnArg
  | .receiver r => .receiver (self.visitReceiver r)
  | .typed pat ty => .typed pat (self.visitor.ty 0 ty)

def visitGenericParam (self : CapturedLifetimes) : GenericParam → GenericParam
  | .lifetime p => .lifetime (self.visitLifetimeParam p)
  | .type ident bounds default =>
    .type ident (self.visitor.bounds 0 bounds) (default.map (self.visitor.ty 0))
  | .const ident ty default => .const ident (self.visitor.ty 0 ty) default

end CapturedLifetimes

structure MethodAttrs where
  storage : Option Path := none
  maybeSync : Bool := false

namespace MethodAttrs

def parseMeta (self : MethodAttrs) (m : Meta) : Except Error MethodAttrs :=
  if m.isIdent "storage" then
    match m with
    | .nameValue _ (.path p) => .ok { self with storage := some p }
    | _ => .error .parse
  else if m.isIdent "maybe_sync" then
    match m with
    | .path _ => .ok { self with maybeSync := true }
    | _ => .error .parse
  else .error (.bail "unknown attribute")

def parseAttr (hasRpit : Bool) (self : MethodAttrs) (attr : Attribute) :
    Except Error MethodAttrs :=
  if !hasRpit then
    .error (.bail "attribute must be used on a method with Return Position Impl Trait")
  else
    match attr.content with
    | .list _ nested => nested.foldlM parseMeta self
    | _ => .error .parse

/-- Takes the attributes off the method. -/
def parse (method : TraitItemFn) : Except Error (MethodAttrs × TraitItemFn) := do
  let hasRpit := method.sig.asyncness || (returnImplTrait method.sig).isSome
  let (extracted, attrs) := method.attrs.partition (·.content.isIdent "dyn_trait")
  let parsed ← extracted.foldlM (parseAttr hasRpit) {}
  return (parsed, { method with attrs })

end MethodAttrs

/-- `impl Future<Output = #output>` -/
def implFuture (output : Ty) : Ty :=
  .implTrait [.trait false [] false
    [.mk "Future" (.angleBracketed [.assocType "Output" [] output])]]

/-- `#[doc(hidden)]` -/
def docHidden : Attribute := ⟨.list ["doc"] [.path ["hidden"]]⟩

structure DynMethod where
  origSig : Signature
  crate : Path
  dynMethod : TraitItemFn
  rpit : Option (List TypeParamBound)
  storage : Option Ident

namespace DynMethod

/-- The bounds of the trait object that is returned. -/
def dynRet (captured : CapturedLifetimes) (rpit : List TypeParamBound) : Ty :=
  .traitObject (captured.visitor.bounds 0 (rpit.filter (·.isTrait)) ++ [.lifetime dynLt])

def updateDynSignature (crate : Path) (traitGenerics : List Ident) (sig : Signature)
    (rpit : List TypeParamBound) (storage : Ident) : Signature :=
  let captured := CapturedLifetimes.new rpit sig.generics
  -- All type parameters are captured, so their lifetime must be bounded
  let generics := sig.generics.extendWhere <| (traitGenerics ++ ["Self"]).map fun p =>
    .type [] (.ofIdent p) [.lifetime dynLt]
  { sig with
    generics := { generics with
      params := .lifetime ⟨dynLt, []⟩ :: generics.params.map captured.visitGenericParam }
    inputs := sig.inputs.map captured.visitFnArg
    output := .type ((crate.join ["DynObject"]).withArgs
      [.type (dynRet captured rpit), .type (.ofIdent storage)]).toTy }

/-- Async methods as methods that return a future, and patterns as arguments. -/
def convertAsync (sig : Signature) : Signature :=
  let sig := PatternAsArg.visitSignature sig
  if sig.asyncness then
    { sig with
      asyncness := false
      output := .type (implFuture ((returnType sig).getD (.tuple []))) }
  else sig

def new (casing : Casing) (crate : Path) (traitGenerics : List Ident) (method : TraitItemFn) :
    DynMethod :=
  let sig := convertAsync method.sig
  let rpit := returnImplTrait sig
  let storage := "__Storage" ++ casing.toPascalCase sig.ident
  { origSig := method.sig
    crate
    dynMethod := {
      attrs := method.attrs
      sig := match rpit with
        | some rpit => updateDynSignature crate traitGenerics sig rpit storage
        | none => sig
      default := none }
    rpit
    storage := rpit.map fun _ => storage }

def genericStorage (self : DynMethod) (defaultStorage : Option Path) : Option GenericParam := do
  let storage ← self.storage
  let defaultStorage := defaultStorage.getD (self.crate.join ["storage", "DefaultStorage"])
  return .type storage [(self.crate.join ["storage", "Storage"]).toBound] defaultStorage.toTy

/-- `__Dyn::#ident` -/
def dynPath (ident : Ident) : Expr := .path (.ofIdents false ["__Dyn", ident])

/-- `#crate_::DynObject::new(#call)` -/
def dynObjectNew (crate : Path) (call : Expr) : Expr :=
  .call (.path (crate.join ["DynObject", "new"])) [call]

def implMethod (self : DynMethod) : ImplItemFn :=
  let call := Expr.call (dynPath self.origSig.ident) (fnArgs self.origSig)
  let value := if self.rpit.isSome then dynObjectNew self.crate call else call
  Macros.implMethod self.dynMethod.sig ⟨[], value⟩

def syncMethod (self : DynMethod) : Except Error TraitItemFn :=
  match self.rpit.bind futureOutput with
  | none => .error (.bail "`maybe_sync` must be used on async methods")
  | some output => .ok {
      attrs := [docHidden]
      sig := { self.origSig with
        asyncness := false
        ident := syncFn self.origSig
        output := .type output }
      default := some ⟨(fnArgs self.origSig).drop 1,
        .mac (.ofIdents true ["core", "unimplemented"])⟩ }

def isSyncConst (casing : Casing) (self : DynMethod) : Except Error TraitItemConst := do
  let isSync ← formatIdent casing (Macros.isSyncConst casing self.origSig)
  return { attrs := [docHidden], ident := isSync, ty := bool, default := some (.lit false) }

def maybeSyncSignature (self : DynMethod) : Except Error Signature :=
  match returnType self.dynMethod.sig with
  | none => .error .panic
  | some output => .ok { self.dynMethod.sig with
      output := .type ((self.crate.join ["MaybeSync"]).withArgs [.type output]).toTy }

def maybeSyncMethod (self : DynMethod) : Except Error TraitItemFn := do
  let sig ← self.maybeSyncSignature
  return { self.dynMethod with sig }

def maybeSyncImpl (casing : Casing) (self : DynMethod) : Except Error ImplItemFn := do
  let isSync ← formatIdent casing (Macros.isSyncConst casing self.origSig)
  let args := fnArgs self.origSig
  let variant (ident : Ident) (value : Expr) : Expr :=
    .call (.path (self.crate.join ["MaybeSync", ident])) [value]
  let block : Block := ⟨[], .ifElse (dynPath isSync)
    (variant "Sync" (.call (dynPath (syncFn self.origSig)) args))
    (variant "Async" (dynObjectNew self.crate (.call (dynPath self.origSig.ident) args)))⟩
  let sig ← self.maybeSyncSignature
  return Macros.implMethod sig block

end DynMethod

structure DynTrait where
  includeTrait : Bool
  dynTraitName : Ident
  crate : Path
  remote : Path
  traitGenerics : List Ident
  additionalTraitItems : List TraitItem := []
  dynItems : List TraitItem := []
  implItems : List ImplItem := []
  genericStorages : List GenericParam := []

/-- `template.replace("{}", &ident)` -/
def fillTemplate (ident : Ident) : List Char → List Char
  | '\x7b' :: '\x7d' :: cs => ident.toList ++ fillTemplate ident cs
  | c :: cs => c :: fillTemplate ident cs
  | [] => []

namespace DynTrait

def new (trait : ItemTrait) (opts : DynTraitOpts) : DynTrait :=
  let template := opts.nameTemplate.getD "Dyn\x7b\x7d"
  { includeTrait := opts.remote.isNone
    dynTraitName := String.ofList (fillTemplate trait.ident template.toList)
    crate := opts.crate.getD crateName
    remote := opts.remote.getD (.ofIdents false [trait.ident])
    traitGenerics := trait.generics.typeParams }

/-- `<__Dyn as #remote>::#ty_name` -/
def dynType (remote : Path) (tyName : Ident) : Ty :=
  .qpath (.ofIdent "__Dyn") remote.segments.length remote.leading
    (remote.segments ++ [.plain tyName])

def parseType (self : DynTrait) (ty : TraitItemType) : DynTrait :=
  { self with
    dynItems := self.dynItems ++ [.type ty]
    implItems := self.implItems ++ [.type ty.ident (dynType self.remote ty.ident)] }

/-- The method comes back without its attributes for the macro. -/
def parseMethod (casing : Casing) (self : DynTrait) (method : TraitItemFn) :
    Except Error (DynTrait × TraitItemFn) := do
  let (attrs, method) ← MethodAttrs.parse method
  let dynMethod := DynMethod.new casing self.crate self.traitGenerics method
  let self := { self with
    genericStorages := self.genericStorages ++ (dynMethod.genericStorage attrs.storage).toList }
  if attrs.maybeSync then
    let syncMethod ← dynMethod.syncMethod
    let isSyncConst ← dynMethod.isSyncConst casing
    let maybeSyncImpl ← dynMethod.maybeSyncImpl casing
    let maybeSyncMethod ← dynMethod.maybeSyncMethod
    return ({ self with
      additionalTraitItems := self.additionalTraitItems ++
        [.fn syncMethod, .const isSyncConst]
      implItems := self.implItems ++ [.fn maybeSyncImpl]
      dynItems := self.dynItems ++ [.fn maybeSyncMethod] }, method)
  else
    return ({ self with
      implItems := self.implItems ++ [.fn dynMethod.implMethod]
      dynItems := self.dynItems ++ [.fn dynMethod.dynMethod] }, method)

/-- The loop over the items, which also rewrites them. -/
def parseItem (casing : Casing) (acc : DynTrait × List TraitItem) (item : TraitItem) :
    Except Error (DynTrait × List TraitItem) :=
  let (self, items) := acc
  match item with
  | .type ty =>
    if isNotGeneric ty then .ok (self.parseType ty, items ++ [.type ty])
    else .ok (self, items ++ [.type ty])
  | .fn method =>
    if isDispatchable method then do
      let (self, method) ← self.parseMethod casing method
      return (self, items ++ [.fn method])
    else .ok (self, items ++ [.fn method])
  | item => .ok (self, items ++ [item])

end DynTrait

/-- The attributes that `dyn_trait` hands on to the generated trait, and the others. -/
def extractDynTraitAttrs (trait : ItemTrait) : Except Error (List Attribute × ItemTrait) := do
  let (extracted, attrs) := trait.attrs.partition (·.content.isIdent "dyn_trait")
  let handed ← extracted.mapM fun attr => match attr.content with
    | .list _ [m] => .ok ⟨m⟩
    | .list _ _ => .error .panic
    | _ => .error .parse
  return (handed, { trait with attrs })

/-- What `dyn_trait` writes. -/
structure DynTraitOutput where
  optTrait : Option ItemTrait
  dynTrait : ItemTrait
  dynImpl : ItemImpl

/-- `#[doc = ..]`, of the generated trait. -/
def docAttrs (ident : Ident) : List Attribute :=
  [⟨.nameValue ["doc"] (.str "Dyn-compatible implementation of")⟩,
    ⟨.nameValue ["doc"] (.other ("::core::concat!(.., stringify!(" ++ ident ++ "), ..)"))⟩]

def DynTrait.output (self : DynTrait) (trait : ItemTrait) (dynTraitAttrs : List Attribute) :
    DynTraitOutput :=
  let trait := { trait with items := trait.items ++ self.additionalTraitItems }
  let dynParam := GenericParam.type "__Dyn"
    [(self.remote.withGenerics trait.generics.tyGenerics).toBound] none
  let dynGenerics := { trait.generics with
    params := trait.generics.params ++ self.genericStorages }
  let implGenerics := { dynGenerics with params := dynGenerics.params ++ [dynParam] }
  { optTrait := if self.includeTrait then some trait else none
    dynTrait := {
      attrs := docAttrs trait.ident ++ dynTraitAttrs
      unsafety := trait.unsafety
      ident := self.dynTraitName
      generics := { dynGenerics with params := dynGenerics.printed }
      -- The supertraits are printed without the colon in front of them.
      colon := false
      supertraits := trait.supertraits
      items := self.dynItems }
    dynImpl := {
      unsafety := trait.unsafety
      generics := implGenerics.implGenerics
      trait := Path.withGenerics (.ofIdents false [self.dynTraitName]) dynGenerics.tyGenerics
      selfTy := .ofIdent "__Dyn"
      whereClause := trait.generics.whereClause
      items := self.implItems } }

/-- The declaration of the generated trait as it is parsed from what is written. Supertraits are
read only after a colon. -/
def DynTraitOutput.parsed (self : DynTraitOutput) : Except Error ItemTrait :=
  if self.dynTrait.colon || self.dynTrait.supertraits.isEmpty then .ok self.dynTrait
  else .error .parse

def dynTraitImpl (casing : Casing) (trait : ItemTrait) (opts : DynTraitOpts) :
    Except Error DynTraitOutput := do
  let (dynTraitAttrs, trait) ← extractDynTraitAttrs trait
  if !trait.generics.params.isEmpty &&
      dynTraitAttrs.any (fun attr => (metaLastSegment attr.content "dyn_object").isSome) then
    .error (.bail "generic parameters are not supported in combination to `dyn_object`")
  else
    let base := DynTrait.new trait opts
    -- `DynTrait::new` makes the name with `format_ident!`, which also takes an `r#`.
    let _ ← formatIdent casing (unraw base.dynTraitName)
    let (dynTrait, items) ← trait.items.foldlM (DynTrait.parseItem casing) (base, [])
    return dynTrait.output { trait with items } dynTraitAttrs

end DynUtils.Macros
