import DynUtils.Lib.Machine
import DynUtils.Macros.Utils

/-! The macro `dyn_object`. -/
namespace DynUtils.Macros

open Syn

structure DynObjectOps where
  bounds : List Path := []
  crate : Option Path := none
  remote : Option Path := none

namespace DynObjectOps

def parseMeta (self : DynObjectOps) (m : Meta) : Except Error DynObjectOps :=
  if m.isIdent "bounds" then
    match m with
    | .nameValue _ (.path p) => .ok { self with bounds := [p] }
    | .nameValue _ (.bounds ps) => .ok { self with bounds := ps }
    | _ => .error .parse
  else if m.isIdent "crate" then
    match m with
    | .nameValue _ (.path p) => .ok { self with crate := some p }
    | _ => .error .parse
  else if m.isIdent "remote" then
    match m with
    | .nameValue _ (.path p) => .ok { self with remote := some p }
    | _ => .error .parse
  else .error (.bail "unknown attribute")

/-- The arguments one after the other. `bounds` takes all that is left. -/
def parse (self : DynObjectOps) : List Meta → Except Error DynObjectOps
  | [] => .ok self
  | m :: rest => do
    let self ← self.parseMeta m
    if m.isIdent "bounds" && !rest.isEmpty then .error .parse
    else self.parse rest

end DynObjectOps

/-- A method that `is_dispatchable` let through. -/
structure DispatchableFn extends TraitItemFn where
  dispatchable : isDispatchable toTraitItemFn = true

namespace DispatchableFn

theorem hasDynTraitReceiver (method : DispatchableFn) :
    Macros.hasDynTraitReceiver method.sig = true := by
  have h := method.dispatchable
  simp only [isDispatchable, Bool.and_eq_true] at h
  exact h.1

theorem receiver_isSome (method : DispatchableFn) : method.sig.receiver.isSome := by
  have h := method.hasDynTraitReceiver
  cases hr : method.sig.receiver with
  | none => simp [Macros.hasDynTraitReceiver, hr] at h
  | some recv => rfl

/-- `receiver().unwrap()` -/
def receiver (method : DispatchableFn) : Receiver :=
  method.sig.receiver.get method.receiver_isSome

theorem pinnedRef_isSome (method : DispatchableFn) (h : method.receiver.reference = none) :
    (pinnedRef method.receiver.ty).isSome := by
  have hd := method.hasDynTraitReceiver
  have hr : method.sig.receiver = some method.receiver := (Option.some_get _).symm
  simpa [Macros.hasDynTraitReceiver, hr, h] using hd

/-- `pinned_ref(&recv.ty).unwrap()` -/
def pinned (method : DispatchableFn) (h : method.receiver.reference = none) : TypeReference :=
  (pinnedRef method.receiver.ty).get (method.pinnedRef_isSome h)

def recvLt (method : DispatchableFn) : Option Lifetime :=
  match h : method.receiver.reference with
  | some lt => lt
  | none => (method.pinned h).lifetime

end DispatchableFn

inductive VtableReceiver
  | ref
  | mut
  | pinned
deriving DecidableEq

def VtableReceiver.new (method : DispatchableFn) : VtableReceiver :=
  let recv := method.receiver
  if recv.reference.isNone then .pinned
  else if recv.mutability then .mut
  else .ref

/-- `Pin<#ty>` -/
def pinTy (ty : Ty) : Ty :=
  .path true [.plain "core", .plain "pin", .mk "Pin" (.angleBracketed [.type ty])]

/-- The first parameter of the function pointers. -/
def VtableReceiver.storage (self : VtableReceiver) (recvLt : Option Lifetime) : Ty :=
  match self with
  | .ref => .reference recvLt false (.ofIdent "__Storage")
  | .mut => .reference recvLt true (.ofIdent "__Storage")
  | .pinned => pinTy (.reference recvLt true (.ofIdent "__Storage"))

def replaceSelfWithDyn : VisitMut where
  segment ident := if ident = "Self" then "__Dyn" else ident

/-- `unsafe fn()` -/
def unsafeFn : Ty := .bareFn [] "unsafe" [] .default

def vtableFnPointer (method : DispatchableFn) (newVtable : Bool) : Ty :=
  let sig := method.sig
  let storage := (VtableReceiver.new method).storage method.recvLt
  let params := sig.typedInputs.map fun ty =>
    if newVtable then replaceSelfWithDyn.ty 0 ty else ty
  let output := if newVtable then replaceSelfWithDyn.returnType 0 sig.output else sig.output
  let lifetimes := if newVtable then sig.generics.lifetimes.map (⟨·.lifetime, []⟩) else []
  .bareFn lifetimes (if sig.unsafety then "unsafe" else "") (storage :: params) output

/-- `::core::mem::transmute` -/
def transmute : Path := .ofIdents true ["core", "mem", "transmute"]

structure DynObject where
  trait : ItemTrait
  includeTrait : Bool
  crate : Path
  remote : Path
  bounds : List Path
  types : List (Ident × TraitItemType)
  methods : List DispatchableFn

namespace DynObject

def new (trait : ItemTrait) (opts : DynObjectOps) : DynObject :=
  let hasDynObjectAttr := trait.attrs.any fun attr =>
    (metaLastSegment attr.content "dyn_object").isSome
  { trait
    includeTrait := opts.remote.isNone || hasDynObjectAttr
    crate := opts.crate.getD crateName
    remote := opts.remote.getD (.ofIdents false [trait.ident])
    bounds := opts.bounds
    types := []
    methods := [] }

/-- The loop over the items. -/
def parseItem (self : DynObject) : TraitItem → Except Error DynObject
  | .fn method =>
    if h : isDispatchable method then
      .ok { self with methods := self.methods ++ [⟨method, h⟩] }
    else .error (.bail "method is not dispatchable")
  | .type ty =>
    if !ty.generics.params.isEmpty then
      .error (.bail "generic associated type is not supported")
    else .ok { self with types := self.types ++ [("__Type" ++ unraw ty.ident, ty)] }
  | _ => .error (.bail "unsupported item")

/-- What follows `dyn`. -/
def dynTrait (self : DynObject) : List TypeParamBound :=
  let dynTraitArgs := self.trait.generics.params.map (·.toArg) ++
    self.types.map fun (tyArg, ty) => .assocType ty.ident [] (.ofIdent tyArg)
  (self.remote.withArgs dynTraitArgs).toBound :: .lifetime ⟨"__lt"⟩ ::
    self.bounds.map (·.toBound)

def generics (self : DynObject) : List GenericParam :=
  .lifetime ⟨⟨"__lt"⟩, []⟩ :: self.trait.generics.params.map (·.eraseDefault) ++
    self.types.map fun (tyArg, ty) => .type tyArg ty.bounds none

/-- The name of the field and the expression that initializes it. -/
def vtableMethod (method : DispatchableFn) : Ident × Expr :=
  let methodName := method.sig.ident
  let args := (fnArgs method.sig).drop 1
  let erasedArgs := args.map fun arg => Expr.call (.path transmute) [arg]
  let selfAs := match VtableReceiver.new method with
    | .ref => "as_ref"
    | .mut => "as_mut"
    | .pinned => "as_pinned_mut"
  let self := Expr.path (.ofIdents false ["__self"])
  let fnPtr := vtableFnPointer method true
  (methodName, .unsafeBlock <| .call (.turbofish transmute [fnPtr, unsafeFn])
    [.closure (self :: args) <| .call (.path transmute)
      [.call (.path (.ofIdents false ["__Dyn", methodName]))
        (.methodCall self selfAs [] :: erasedArgs)]])

def implMethod (method : DispatchableFn) : ImplItemFn :=
  let methodName := method.sig.ident
  let selfAs := match VtableReceiver.new method with
    | .ref => "storage"
    | .mut => "storage_mut"
    | .pinned => "storage_pinned_mut"
  let args := (fnArgs method.sig).drop 1
  let fnPtr := vtableFnPointer method false
  let field := Expr.field (.methodCall selfArg "vtable" []) methodName
  let block := Expr.unsafeBlock <|
    .call (.call (.turbofish transmute [unsafeFn, fnPtr]) [field])
      (.methodCall selfArg selfAs [] :: args)
  Macros.implMethod method.sig ⟨[], block⟩

def implType : Ident × TraitItemType → ImplItem
  | (tyParam, ty) => .type ty.ident (.ofIdent tyParam)

end DynObject

/-- `impl Vtable<__Dyn> for dyn Trait`, with the fields of the vtable that are methods. -/
structure VtableImpl where
  generics : List GenericParam
  selfTy : Ty
  whereClause : Option (List WherePredicate)
  methods : List (Ident × Expr)

/-- What `dyn_object` writes. -/
structure DynObjectOutput where
  optTrait : Option ItemTrait
  /-- The fields of `__Vtable` of type `unsafe fn()`. -/
  vtableFields : List Ident
  vtableImpl : VtableImpl
  traitImpl : ItemImpl

def DynObject.output (dynObject : DynObject) : DynObjectOutput :=
  let trait := dynObject.trait
  let dynTrait := dynObject.dynTrait
  let dyn := GenericParam.type "__Dyn" dynTrait none
  let storage := GenericParam.type "__Storage"
    [(dynObject.crate.join ["storage", "Storage"]).toBound] none
  { optTrait := if dynObject.includeTrait then some trait else none
    vtableFields := dynObject.methods.map (·.sig.ident)
    vtableImpl := {
      generics := dynObject.generics ++ [dyn]
      selfTy := .traitObject dynTrait
      whereClause := trait.generics.whereClause
      methods := dynObject.methods.map vtableMethod }
    traitImpl := {
      unsafety := false
      generics := dynObject.generics ++ [storage]
      trait := dynObject.remote.withGenerics trait.generics.tyGenerics
      selfTy := ((dynObject.crate.join ["DynObject"]).withArgs
        [.type (.traitObject dynTrait), .type (.ofIdent "__Storage")]).toTy
      whereClause := trait.generics.whereClause
      items := dynObject.types.map implType ++ dynObject.methods.map (.fn <| implMethod ·) } }

/-- The trait with its items read, before anything is written. -/
def readDynObject (trait : ItemTrait) (opts : DynObjectOps) : Except Error DynObject :=
  trait.items.foldlM DynObject.parseItem (.new trait opts)

def dynObjectImpl (trait : ItemTrait) (opts : DynObjectOps) : Except Error DynObjectOutput := do
  let dynObject ← readDynObject trait opts
  return dynObject.output

namespace DynObject
variable {self obj : DynObject} {items : List TraitItem}

/-- The item as the method that the loop collects. -/
def itemFn : TraitItem → Option DispatchableFn
  | .fn method => if h : isDispatchable method then some ⟨method, h⟩ else none
  | _ => none

def itemType : TraitItem → Option (Ident × TraitItemType)
  | .type ty => some ("__Type" ++ unraw ty.ident, ty)
  | _ => none

/-- The items that `dyn_object` supports. -/
def Supported : TraitItem → Prop
  | .fn method => isDispatchable method = true
  | .type ty => ty.generics.params = []
  | _ => False

theorem parseItem_ok {item : TraitItem} :
    self.parseItem item = .ok obj ↔ Supported item ∧
      { self with
        types := self.types ++ (itemType item).toList
        methods := self.methods ++ (itemFn item).toList } = obj := by
  cases item with
  | fn method =>
    by_cases h : isDispatchable method <;> simp [parseItem, Supported, itemFn, itemType, h]
  | type ty =>
    by_cases h : ty.generics.params = [] <;> simp [parseItem, Supported, itemFn, itemType, h]
  | const item => simp [parseItem, Supported]
  | other attrs tokens => simp [parseItem, Supported]

/-- The loop gives up at the first item that is not supported, and collects the others
in order. -/
theorem foldlM_parseItem_ok : items.foldlM parseItem self = .ok obj ↔
    (∀ item ∈ items, Supported item) ∧
      { self with
        types := self.types ++ items.filterMap itemType
        methods := self.methods ++ items.filterMap itemFn } = obj := by
  induction items generalizing self with
  | nil => simp [pure, Except.pure]
  | cons item items ih =>
    rw [List.foldlM_cons, Machine.bind_ok]
    simp only [parseItem_ok, ih]
    constructor
    · rintro ⟨_, ⟨hi, rfl⟩, hs, rfl⟩
      refine ⟨by simpa [hi] using hs, ?_⟩
      cases h : itemFn item <;> cases h' : itemType item <;> simp [h, h']
    · rintro ⟨hs, rfl⟩
      refine ⟨_, ⟨hs item (by simp), rfl⟩, fun i hi => hs i (by simp [hi]), ?_⟩
      cases h : itemFn item <;> cases h' : itemType item <;> simp [h, h']

end DynObject

end DynUtils.Macros
