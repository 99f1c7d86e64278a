import DynUtils.Macros.Dispatch

/-! The impls of `Future` and `Iterator` for `DynObject` that the crate has written out. -/
namespace DynUtils.Macros.WrittenOut

open Syn Machine Forwarding
open Receivers (RefKind declared kindOf)
open Dispatch (Program Callable)
open FnPointers (ProjectedSig Projected AtDyn Names)

/-! The declarations that they are for. -/

def refSelf (mutability : Bool) : FnArg :=
  .receiver ⟨some none, mutability, false, .reference none mutability (.ofIdent "Self")⟩

/-- `self: core::pin::Pin<&mut Self>` -/
def pinSelf : FnArg :=
  .receiver ⟨none, false, true, .path false [.plain "core", .plain "pin",
    .mk "Pin" (.angleBracketed [.type (.reference none true (.ofIdent "Self"))])]⟩

/-- `#name<#arg>` -/
def generic (path : List Ident) (arg : GenericArgument) : Ty :=
  ((Path.ofIdents false path).withArgs [arg]).toTy

/-- `#ty::#name` -/
def member (ty name : Ident) : Ty := (Path.ofIdents false [ty, name]).toTy

/-- `&mut core::task::Context<'_>` -/
def context : Ty := .reference none true (generic ["core", "task", "Context"] (.lifetime ⟨"_"⟩))

/-- `core::task::Poll<#ty>` -/
def pollOf (ty : Ty) : Ty := generic ["core", "task", "Poll"] (.type ty)

def optionOf (ty : Ty) : Ty := generic ["Option"] (.type ty)

def usize : Ty := .ofIdent "usize"

/-- `(usize, Option<usize>)` -/
def sizes : Ty := .tuple [usize, optionOf usize]

/-- `fn #ident(#inputs) -> #output` -/
def signature (ident : Ident) (inputs : List FnArg) (output : Ty) : Signature where
  asyncness := false
  unsafety := false
  ident := ident
  generics := ⟨[], none⟩
  inputs := inputs
  output := .type output

def named (ident : Ident) (ty : Ty) : FnArg := .typed (.ident false false ident none) ty

def poll : Signature :=
  signature "poll" [pinSelf, named "cx" context] (pollOf (member "Self" "Output"))

def next : Signature := signature "next" [refSelf true] (optionOf (member "Self" "Item"))

def sizeHint : Signature := signature "size_hint" [refSelf false] sizes

def nth : Signature :=
  signature "nth" [refSelf true, named "n" usize] (optionOf (member "Self" "Item"))

/-- A trait with one associated type and these methods. -/
def declaration (ident type : Ident) (methods : List Signature) : ItemTrait where
  attrs := []
  unsafety := false
  ident := ident
  generics := ⟨[], none⟩
  colon := false
  supertraits := []
  items := .type ⟨[], type, ⟨[], none⟩, []⟩ :: methods.map fun sig => .fn ⟨[], sig, none⟩

def future : ItemTrait := declaration "Future" "Output" [poll]

def iterator : ItemTrait := declaration "Iterator" "Item" [next, sizeHint, nth]

/-! What is in the file. -/

/-- `fn(#inputs) -> #output` -/
def fnPtr (inputs : List Ty) (output : Ty) : Ty := .bareFn [] "" inputs (.type output)

def refStorage (mutability : Bool) : Ty := .reference none mutability (.ofIdent "__Storage")

/-- `::core::pin::Pin<&mut __Storage>` -/
def pinStorage : Ty := .path true [.plain "core", .plain "pin",
  .mk "Pin" (.angleBracketed [.type (refStorage true)])]

def printed (idents : List Ident) : List Expr :=
  idents.map fun ident => .pat (.ident false false ident none)

/-- A field of the vtable, with the closure that is erased in it. -/
def field (name selfAs : Ident) (ptr : Ty) (args : List Ident) : Ident × Expr :=
  let self := Expr.path (.ofIdents false ["__self"])
  (name, .unsafeBlock <| .call (.turbofish transmute [ptr, unsafeFn])
    [.closure (self :: printed args) <| .call (.path transmute)
      [.call (.path (.ofIdents false ["__Dyn", name])) (.methodCall self selfAs [] ::
        (printed args).map fun arg => .call (.path transmute) [arg])]])

/-- A method of the impl for `DynObject`, which calls the field. -/
def function (sig : Signature) (selfAs : Ident) (ptr : Ty) (args : List Ident) : ImplItem :=
  let vtable := Expr.methodCall selfArg "vtable" []
  .fn ⟨[], sig, ⟨[], .unsafeBlock <|
    .call (.call (.turbofish transmute [unsafeFn, ptr]) [.field vtable sig.ident])
      (.methodCall selfArg selfAs [] :: printed args)⟩⟩

/-- `#trait<#type = #param> + '__lt + #(#more)+*` -/
def dynTrait (trait type param : Ident) (more : List Path) : List TypeParamBound :=
  ((Path.ofIdents false [trait]).withArgs [.assocType type [] (.ofIdent param)]).toBound ::
    .lifetime ⟨"__lt"⟩ :: more.map (·.toBound)

/-- One `const _: () = { .. }` of the file. -/
def written (trait type param : Ident) (bounds : List TypeParamBound)
    (fields : List (Ident × Expr)) (functions : List ImplItem) : DynObjectOutput :=
  let generics := [GenericParam.lifetime ⟨⟨"__lt"⟩, []⟩, .type param [] none]
  let storage := (Path.ofIdents false ["crate", "storage", "Storage"]).toBound
  { optTrait := none
    vtableFields := fields.map (·.1)
    vtableImpl := {
      generics := generics ++ [.type "__Dyn" bounds none]
      selfTy := .traitObject bounds
      whereClause := none
      methods := fields }
    traitImpl := {
      unsafety := false
      generics := generics ++ [.type "__Storage" [storage] none]
      trait := .ofIdents false [trait]
      selfTy := ((Path.ofIdents false ["crate", "DynObject"]).withArgs
        [.type (.traitObject bounds), .type (.ofIdent "__Storage")]).toTy
      whereClause := none
      items := .type type (.ofIdent param) :: functions } }

/-- `Future` for `DynObject<dyn Future<Output = __TypeOutput> + '__lt>`, where `more` is nothing or
`Send`. -/
def futureImpl (more : List Path) : DynObjectOutput :=
  let ptr := fun self => fnPtr [pinStorage, context] (pollOf (member self "Output"))
  written "Future" "Output" "__TypeOutput" (dynTrait "Future" "Output" "__TypeOutput" more)
    [field "poll" "as_pinned_mut" (ptr "__Dyn") ["cx"]]
    [function poll "storage_pinned_mut" (ptr "Self") ["cx"]]

/-- `Iterator` for `DynObject<dyn Iterator<Item = __TypeItem> + '__lt>` -/
def iteratorImpl : DynObjectOutput :=
  let nextPtr := fun self => fnPtr [refStorage true] (optionOf (member self "Item"))
  let sizeHintPtr := fnPtr [refStorage false] sizes
  let nthPtr := fun self => fnPtr [refStorage true, usize] (optionOf (member self "Item"))
  written "Iterator" "Item" "__TypeItem" (dynTrait "Iterator" "Item" "__TypeItem" [])
    [field "next" "as_mut" (nextPtr "__Dyn") [],
      field "size_hint" "as_ref" sizeHintPtr [],
      field "nth" "as_mut" (nthPtr "__Dyn") ["n"]]
    [function next "storage_mut" (nextPtr "Self") [],
      function sizeHint "storage" sizeHintPtr [],
      function nth "storage_mut" (nthPtr "Self") ["n"]]

/-- `crate = crate, remote = #remote, bounds = #bounds` -/
def options (remote : Ident) (bounds : List Path) : DynObjectOps where
  bounds := bounds
  crate := some (.ofIdents false ["crate"])
  remote := some (.ofIdents false [remote])

/-- The impls in the file, each with the declaration of its trait. -/
inductive Written : ItemTrait → DynObjectOutput → Prop
  | future (more : List Path) : Written future (futureImpl more)
  | iterator : Written iterator iteratorImpl

variable {trait : ItemTrait} {out : DynObjectOutput}

/-- They are what `dyn_object` writes for these traits. -/
theorem output_of_written (h : Written trait out) :
    ∃ opts, dynObjectImpl trait opts = .ok out := by
  cases h with
  | future more => exact ⟨options "Future" more, rfl⟩
  | iterator => exact ⟨options "Iterator" [], rfl⟩

/-! Calls of their methods. -/

section
variable {R : Type} {P : Program R} {method : DispatchableFn} {args : List Val}

def idents (xs : List (Ident × Ty)) : List Pat := xs.map fun x => .ident false false x.1 none

theorem bindParams_idents {S : Types} {xs : List (Ident × Ty)} (h : args.length = xs.length) :
    ∃ own, Pat.bindParams S (idents xs) args = some own := by
  induction xs generalizing args with
  | nil =>
    obtain rfl := List.eq_nil_of_length_eq_zero h
    exact ⟨_, rfl⟩
  | cons x xs ih =>
    obtain ⟨v, vs, rfl⟩ := List.exists_cons_of_length_eq_add_one h
    obtain ⟨own, hown⟩ := ih (Nat.succ.inj h)
    exact ⟨_, Pat.bindParams_cons.mpr ⟨v, vs, _, own, rfl, rfl, hown, rfl⟩⟩

theorem readsBack_idents {S : Types} {xs : List (Ident × Ty)} (h : args.length = xs.length) :
    ReadsBackElems S (idents xs) args := by
  induction xs generalizing args with
  | nil =>
    obtain rfl := List.eq_nil_of_length_eq_zero h
    trivial
  | cons x xs ih =>
    obtain ⟨v, vs, rfl⟩ := List.exists_cons_of_length_eq_add_one h
    exact ⟨rfl, ih (Nat.succ.inj h)⟩

theorem names_idents (xs : List (Ident × Ty)) : Pat.namesElems (idents xs) = xs.map (·.1) := by
  induction xs with
  | nil => rfl
  | cons x xs ih => simp_all [idents, Pat.namesElems, Pat.names, Pat.namesSub]

/-! `Self` is in front of the associated type only. -/

theorem projected_member {n : Names} {name : Ident} (h : name ∈ n.assoc) :
    Projected n (member "Self" name) :=
  Or.inr (Or.inl ⟨rfl, rfl, by simp [Names.assocType, PathSegment.plain, h]⟩)

theorem projected_optionOf {n : Names} {ty : Ty} (h : Projected n ty) :
    Projected n (optionOf ty) :=
  Or.inr (Or.inr ⟨fun h => absurd h.2 (by decide), by decide, ⟨h, trivial⟩, trivial⟩)

theorem projected_pollOf {n : Names} {ty : Ty} (h : Projected n ty) : Projected n (pollOf ty) :=
  Or.inr (Or.inr ⟨fun h => absurd h.2 (by decide), by decide, trivial, by decide, trivial, by decide,
    ⟨h, trivial⟩, trivial⟩)

theorem projected_context (n : Names) : Projected n context :=
  Or.inr (Or.inr ⟨fun h => absurd h.2 (by decide), by decide, trivial, by decide, trivial, by decide,
    trivial, trivial⟩)

theorem projected_usize (n : Names) : Projected n usize :=
  Or.inr (Or.inr ⟨fun h => absurd h.2 (by decide), by decide, trivial, trivial⟩)

/-- A method whose parameters are plain names can be called with any arguments. -/
theorem callable_of_named (hm : method ∈ P.fns) {r : Receiver} {l : List (Ident × Ty)}
    (hi : method.sig.inputs = .receiver r :: l.map fun x => named x.1 x.2)
    (hr : ∃ lt, declared r.ty = some (kindOf (.new method), lt))
    (hn : ("self" :: "__self" :: l.map (·.1)).Nodup) (hp : ProjectedSig P.names method.sig)
    (hargs : FromCallers args) (hlen : args.length = l.length) : Callable P method args := by
  have htail : (params method.sig).tail = idents l := by
    rw [params, hi, List.map_cons, List.tail_cons, List.map_map]
    rfl
  refine ⟨hm, ⟨r, _, hi, ?_, hr⟩, hargs, ?_, ?_, ?_, hp⟩
  · intro arg harg
    obtain ⟨x, -, rfl⟩ := List.mem_map.mp harg
    exact ⟨_, _, rfl⟩
  · rw [htail]
    exact bindParams_idents hlen
  · rw [htail]
    exact readsBack_idents hlen
  · rw [htail, names_idents]
    exact hn

theorem callable_of_written (h : Written P.trait out) (hm : method ∈ P.fns)
    (hargs : FromCallers args) (hlen : args.length = method.sig.typedInputs.length) :
    Callable P method args := by
  obtain ⟨types, trait, distinct, resolution, methods⟩ := P
  cases h with
  | future more =>
    obtain rfl := List.mem_singleton.mp hm
    have hoff : ∀ n : Names, "Output" ∈ n.assoc → ProjectedSig n poll := fun n h =>
      ⟨⟨projected_context n, trivial⟩, projected_pollOf (projected_member h)⟩
    exact callable_of_named (l := [("cx", context)]) hm rfl ⟨none, rfl⟩ (by decide)
      (hoff _ List.mem_cons_self) hargs hlen
  | iterator =>
    have hitem : ∀ n : Names, "Item" ∈ n.assoc → Projected n (optionOf (member "Self" "Item")) :=
      fun n h => projected_optionOf (projected_member h)
    have hsizes : ∀ n : Names, Projected n sizes := fun n =>
      ⟨projected_usize n, projected_optionOf (projected_usize n), trivial⟩
    have hfns : method ∈ [⟨⟨[], next, none⟩, rfl⟩, ⟨⟨[], sizeHint, none⟩, rfl⟩,
        ⟨⟨[], nth, none⟩, rfl⟩] := hm
    simp only [List.mem_cons, List.not_mem_nil, or_false] at hfns
    rcases hfns with rfl | rfl | rfl
    · exact callable_of_named (l := []) hm rfl ⟨none, rfl⟩ (by decide)
        ⟨trivial, hitem _ List.mem_cons_self⟩ hargs hlen
    · exact callable_of_named (l := []) hm rfl ⟨none, rfl⟩ (by decide) ⟨trivial, hsizes _⟩ hargs
        hlen
    · exact callable_of_named (l := [("n", usize)]) hm rfl ⟨none, rfl⟩ (by decide)
        ⟨⟨projected_usize _, trivial⟩, hitem _ List.mem_cons_self⟩ hargs hlen

end

open Transparency (State Op Started directly)

section
variable [FieldOffsets] {R : Type} {P : Program R} {k : StorageKind} {s : State k}
  {T : RustType} {v : Value T}

/-- A call of a method of the trait is one with as many arguments as it takes. -/
def Allowed (P : Program R) (T : RustType) (s : State k) : Op (List Val) → Prop
  | .call name args => FromCallers args ∧ ∃ method ∈ P.fns,
      method.sig.ident = name ∧ args.length = method.sig.typedInputs.length
  | op => Transparency.Allowed P.dynTrait T s op

theorem allowed_written (h : Written P.trait out) {op : Op (List Val)} (hok : Allowed P T s op) :
    Dispatch.Allowed P T s op := by
  cases op with
  | call name args =>
    obtain ⟨hargs, method, hm, hname, hlen⟩ := hok
    exact ⟨method, hname, callable_of_written h hm hargs hlen⟩
  | _ => exact hok

/-- A `DynObject` of futures or iterators is one itself: what is polled, or taken from it by
`next`, `nth` and `size_hint`, in any order and wherever the object is moved in between, is what
the future or iterator in it gives. -/
theorem run_written {ops : List (Op (List Val))} (h : Written P.trait out)
    (hs : Started P.dynTrait v s) (hok : Along (Dispatch.step P out T) (Allowed P T) s ops) :
    ∃ outs u, run (Dispatch.step P out T) s ops = .ok (outs, u) ∧
      outs.reduceOption = (iterate (directly P.methods T) v (ops.filterMap Op.asCall)).1 ∧
      u.value T = (iterate (directly P.methods T) v (ops.filterMap Op.asCall)).2 := by
  obtain ⟨opts, hout⟩ := output_of_written h
  exact Dispatch.run_of_steps (fun _ _ _ hs hok =>
    Dispatch.step_simulates hout hs (allowed_written h hok)) hs hok

end

/-- A `RangeFrom` that starts at its first byte. -/
def rangeFrom : Program ℕ where
  types := noTypes
  trait := iterator
  distinct := by decide
  resolution := .fixing (· = ["Iterator"]) []
  methods name args T v :=
    let start := if h : 0 < T.size then ((v ⟨0, h⟩).getD 0).toNat else 0
    match name, args with
    | "nth", [.atom n] => (start + n, fun _ => some (.ofNat (start + n + 1)))
    | "next", _ => (start, fun _ => some (.ofNat (start + 1)))
    | _, _ => (0, v)

def nthNext : List (Op (List Val)) := [.call "nth" [.atom 2], .move 256, .call "next" []]

theorem run_written_nthNext :
    let v : Value (.bytes 1) := fun _ => some 5
    ∃ s : State (.raw 8 8), @Started .tagFirst _ rangeFrom.dynTrait _ v s ∧
      ∃ outs u, run (@Dispatch.step _ .tagFirst _ rangeFrom iteratorImpl (.bytes 1)) s nthNext =
          .ok (outs, u) ∧
        outs.reduceOption = [7, 8] := by
  intro v
  have hnew : ∃ (o : DynUtils.DynObject (StorageKind.raw 8 8).Carrier) (w : World),
      @DynUtils.DynObject.new .tagFirst _ _ _ rangeFrom.dynTrait v 64 0 .empty = .ok (o, w) :=
    ⟨_, _, rfl⟩
  obtain ⟨o, w, hnew⟩ := hnew
  let s : State (.raw 8 8) := ⟨o, 64, false, w⟩
  have hs : @Started .tagFirst (.raw 8 8) rangeFrom.dynTrait _ v s :=
    @Started.new .tagFirst _ _ _ _ _ _ _ _ _ hnew
  have hok : Along (@Dispatch.step _ .tagFirst _ rangeFrom iteratorImpl (.bytes 1))
      (@Allowed .tagFirst _ _ rangeFrom (.bytes 1)) s nthNext := by
    refine ⟨⟨⟨trivial, trivial⟩, ⟨⟨[], nth, none⟩, rfl⟩,
      List.mem_cons_of_mem _ (List.mem_cons_of_mem _ (List.mem_singleton_self _)), rfl, rfl⟩,
      fun _ t ht => ⟨⟨?_, by decide, fun b hb => ?_⟩, fun _ _ _ =>
        ⟨⟨trivial, ⟨⟨[], next, none⟩, rfl⟩, List.mem_cons_self, rfl, rfl⟩, fun _ _ _ => trivial⟩⟩⟩
    · obtain ⟨_, -, ht⟩ := bind_ok.mp ht
      obtain ⟨-, rfl⟩ := Prod.mk.inj (pure_ok.mp ht)
      rfl
    · cases hb
  obtain ⟨outs, u, hrun, hres, -⟩ := @run_written _ .tagFirst _ _ _ _ _ _ _ .iterator hs hok
  exact ⟨s, hs, outs, u, hrun, hres⟩

end DynUtils.Macros.WrittenOut
