import DynUtils.Macros.FnPointers
import DynUtils.Macros.Forwarding
import DynUtils.Macros.Receivers
import DynUtils.Transparency

/-! The generated code, run on an object in memory: a call through `DynObject` is a call of
the method itself. -/
namespace DynUtils.Macros.Dispatch

open Syn FlatMemory Machine LawfulStorage
open FnPointers (Names ProjectedSig Resolution Scope vtableFnPointer_eq_iff)
open Receivers (RefKind accessorKind declared kindOf)
open Transparency (Methods)

/-- What the generated code computes with. -/
inductive GVal (R : Type)
  | val (v : Val)
  /-- The receiver of the method: a reference to the object. -/
  | object (kind : RefKind)
  | storage (kind : RefKind)
  | vtable
  /-- A reference to the `__Dyn` in the storage. -/
  | stored (kind : RefKind) (p : Addr)
  /-- `__Dyn::name` -/
  | method (name : Ident)
  /-- With what its types mean, where they are written. -/
  | transmute (types : Option (Ty × Ty))
  | closure (inputs : List Expr) (body : Expr)
  /-- A function pointer, with the type it was made at and the one it is taken for. -/
  | fnPtr (made taken : Ty) (inputs : List Expr) (body : Expr)
  | result (r : R)

abbrev GEnv (R : Type) := List (Ident × GVal R)

/-- The object that the code runs on. Its `__Vtable` is that of `ty`, which is `__Dyn` in the
closures there. -/
structure Frame (S R : Type) where
  storage : S
  here : Addr
  ty : RustType
  vtable : GEnv R

/-- The trait, and what the types that implement it do in its methods. -/
structure Program (R : Type) where
  types : Types
  trait : ItemTrait
  distinct : ((trait.items.filterMap DynObject.itemFn).map (·.sig.ident)).Nodup
  resolution : Resolution
  methods : Methods (List Val) R

namespace Program

def fns {R : Type} (P : Program R) : List DispatchableFn :=
  P.trait.items.filterMap DynObject.itemFn

/-- What the types in both impls can name. -/
def names {R : Type} (P : Program R) : Names :=
  .of { DynObject.new P.trait {} with types := P.trait.items.filterMap DynObject.itemType }
    P.resolution

def find {R : Type} (P : Program R) (name : Ident) : Option DispatchableFn :=
  P.fns.find? (·.sig.ident = name)

/-- The receiver that the declaration of a method asks for. -/
def receiver {R : Type} (P : Program R) (name : Ident) : Option RefKind :=
  (P.find name).bind fun method => (declared method.receiver.ty).map (·.1)

end Program

/-- A reference of the first kind may be used as one of the second. -/
def coerces (kind kind' : RefKind) : Bool := kind' = kind || kind' = ⟨false, false⟩

section
variable [FieldOffsets] {S R : Type} [Storage S] (P : Program R) (F : Frame S R)

/-- The argument of a pattern, or any value behind a plain name. -/
def bindInput : Expr → GVal R → Option (GEnv R)
  | .path ⟨false, [.mk x .none]⟩, v => some [(x, v)]
  | .pat p, .val v => (p.bind P.types none .frame v).map (·.map fun b => (b.1, .val b.2))
  | _, _ => none

def bindInputs : List Expr → List (GVal R) → Option (GEnv R)
  | [], [] => some []
  | e :: es, v :: vs => do
    let env ← bindInput P e v
    return env ++ (← bindInputs es vs)
  | _, _ => none

/-- The names that patterns can speak of. -/
def valEnv (env : GEnv R) : Env :=
  env.filterMap fun
    | (x, .val v) => some (x, v)
    | _ => none

def asVal : GVal R → Option Val
  | .val v => some v
  | _ => none

/-- The accessors of `DynObject` and, in the closures, those of `Storage` for `__Dyn`. -/
def access (m : Ident) : GVal R → Except Fault (GVal R)
  | .object kind =>
    if m = "vtable" then .ok .vtable
    else match accessorKind m with
      | some kind' =>
        if m ∈ ["storage", "storage_mut", "storage_pinned_mut"] ∧ coerces kind kind' then
          .ok (.storage kind')
        else .error .notAvailable
      | none => .error .notAvailable
  | .storage kind =>
    let at' := DynObject.storageAt S F.here
    match m with
    | "as_ref" => do
      let p ← Storage.asRef F.ty F.storage at'
      return .stored ⟨false, false⟩ p
    | "as_mut" =>
      if coerces kind ⟨false, true⟩ then do
        let p ← Storage.asMut F.ty F.storage at'
        return .stored ⟨false, true⟩ p
      else .error .notAvailable
    | "as_pinned_mut" =>
      if coerces kind ⟨true, true⟩ then do
        let p ← Storage.asPinnedMut F.ty F.storage at'
        return .stored ⟨true, true⟩ p
      else .error .notAvailable
    | _ => .error .notAvailable
  | _ => .error .notAvailable

/-- Gives a function another type. A closure becomes a function pointer first. -/
def retype (src dst : Ty) : GVal R → Option (GVal R)
  | .closure inputs body => some (.fnPtr src dst inputs body)
  | .fnPtr made taken inputs body =>
    if taken = src then some (.fnPtr made dst inputs body) else none
  | _ => none

/-- What a closure does when it is called. -/
abbrev Invoke (R : Type) := List Expr → Expr → List (GVal R) → World → Except Fault (GVal R × World)

/-- A call. The concrete method runs on the value in memory. A function pointer can be called at
the type it was made at only. -/
def apply (invoke : Invoke R) : GVal R → List (GVal R) → World → Except Fault (GVal R × World)
  -- The types that are inferred are those of one signature, and differ in lifetimes at most.
  | .transmute none, [v], w => .ok (v, w)
  | .transmute (some (src, dst)), [v], w =>
    match retype src dst v with
    | some v => .ok (v, w)
    | none => .error .notAvailable
  | .method name, .stored kind p :: args, w =>
    if (P.receiver name).any (coerces kind) then
      match args.mapM asVal with
      | none => .error .notAvailable
      | some args =>
        let (result, object) := P.methods name args F.ty (w.read F.ty p)
        .ok (.result result, (w.record (.accessed F.ty p)).write p object)
    else .error .notAvailable
  | .fnPtr made taken inputs body, args, w =>
    if taken = made then invoke inputs body args w else .error .notAvailable
  | _, _, _ => .error .notAvailable

mutual

def eval (sc : Scope) (invoke : Invoke R) (env : GEnv R) : Expr → World → Except Fault (GVal R × World)
  | .path p, w =>
    match p with
    | ⟨true, [.mk "core" .none, .mk "mem" .none, .mk "transmute" .none]⟩ => .ok (.transmute none, w)
    | ⟨false, [.mk "__Dyn" .none, .mk name .none]⟩ => .ok (.method name, w)
    | ⟨false, [.mk x .none]⟩ =>
      match env.lookup x with
      | some v => .ok (v, w)
      | none => .error .notAvailable
    | _ => .error .notAvailable
  | .turbofish p tys, w =>
    match p, tys with
    | ⟨true, [.mk "core" .none, .mk "mem" .none, .mk "transmute" .none]⟩, [src, dst] =>
      .ok (.transmute (some (sc.ty src, sc.ty dst)), w)
    | _, _ => .error .notAvailable
  | .pat p, w =>
    match p.eval P.types (valEnv env) with
    | some v => .ok (.val v, w)
    | none => .error .notAvailable
  | .unsafeBlock e, w => eval sc invoke env e w
  | .closure inputs body, w => .ok (.closure inputs body, w)
  | .methodCall recv m args, w => do
    let (v, w) ← eval sc invoke env recv w
    if args.isEmpty then
      let v ← access F m v
      return (v, w)
    else .error .notAvailable
  | .field base m, w => do
    let (v, w) ← eval sc invoke env base w
    match v, F.vtable.lookup m with
    | .vtable, some f => .ok (f, w)
    | _, _ => .error .notAvailable
  | .call f args, w => do
    let (f, w) ← eval sc invoke env f w
    let (vs, w) ← evalArgs sc invoke env args w
    apply P F invoke f vs w
  | _, _ => .error .notAvailable

def evalArgs (sc : Scope) (invoke : Invoke R) (env : GEnv R) :
    List Expr → World → Except Fault (List (GVal R) × World)
  | [], w => .ok ([], w)
  | e :: es, w => do
    let (v, w) ← eval sc invoke env e w
    let (vs, w) ← evalArgs sc invoke env es w
    return (v :: vs, w)

end

/-- A closure runs with what its parameters bind; it calls no other. -/
def invoke (inputs : List Expr) (body : Expr) (vs : List (GVal R)) (w : World) :
    Except Fault (GVal R × World) :=
  match (bindInputs P inputs vs).filter fun env => (env.map (·.1)).Nodup with
  | some env => eval P F P.names.stored (fun _ _ _ _ => .error .notAvailable) env body w
  | none => .error .notAvailable

end

variable {S R : Type} (P : Program R)

/-- The value of a constant expression in the impl for the vtable. -/
def const : Expr → Option (GVal R)
  | .unsafeBlock e => const e
  | .call (.turbofish ⟨true, [.mk "core" .none, .mk "mem" .none, .mk "transmute" .none]⟩
      [src, dst]) [e] =>
    (const e).bind (retype (P.names.stored.ty src) (P.names.stored.ty dst))
  | .closure inputs body => some (.closure inputs body)
  | _ => none

/-- The scope of a method of the impl. -/
def bindFn (sig : Signature) (args : List Val) : Option (GEnv R) :=
  match sig.inputs with
  | .receiver r :: inputs => do
    let (kind, _) ← declared r.ty
    let own ← Pat.bindParams P.types (inputs.map Forwarding.argPat) args
    let env := ("self", .object kind) :: own.map fun b => (b.1, .val b.2)
    if (env.map (·.1)).Nodup then some env else none
  | _ => none

def implFns (impl : ItemImpl) : List ImplItemFn :=
  impl.items.filterMap fun
    | .fn f => some f
    | _ => none

/-- The vtable is a constant. -/
def vtableOf (impl : VtableImpl) : Option (GEnv R) :=
  impl.methods.mapM fun field => (const P field.2).map (field.1, ·)

/-- A call of the method `name` of the generated impl, on an object whose vtable is that of
`ty`. -/
def dispatch [FieldOffsets] [Storage S] (out : DynObjectOutput) (o : DynUtils.DynObject S)
    (ty : RustType) (here : Addr) (name : Ident) (args : List Val) (w : World) :
    Except Fault (R × World) :=
  let scope := ((implFns out.traitImpl).find? (·.sig.ident = name)).bind fun f =>
    (bindFn P f.sig args).map (f, ·)
  match vtableOf P out.vtableImpl, scope with
  | some vtable, some (f, env) => do
    let F : Frame S R := ⟨o.storage, here, ty, vtable⟩
    let sc := P.names.called (out.traitImpl.selfTy.pathSegments.getD [])
    let (v, w) ← eval P F sc (invoke P F) env f.block.value w
    match v with
    | .result r => .ok (r, w)
    | _ => .error .notAvailable
  | _, _ => .error .notAvailable

open Forwarding PatternAsArg

/-- What patterns bind, as the code holds it. -/
def lift (env : Env) : GEnv R := env.map fun b => (b.1, .val b.2)

theorem names_lift (env : Env) : (lift (R := R) env).map (·.1) = env.map (·.1) := by
  simp [lift]

@[simp] theorem valEnv_lift (env : Env) : valEnv (R := R) (lift env) = env := by
  induction env with
  | nil => rfl
  | cons b env ih =>
    have hrest : valEnv (R := R) (lift (b :: env)) = b :: valEnv (R := R) (lift env) := rfl
    rw [hrest, ih]

@[simp] theorem valEnv_object (x : Ident) (kind : RefKind) (env : GEnv R) :
    valEnv ((x, .object kind) :: env) = valEnv env := rfl

@[simp] theorem valEnv_storage (x : Ident) (kind : RefKind) (env : GEnv R) :
    valEnv ((x, .storage kind) :: env) = valEnv env := rfl

section
variable [FieldOffsets] [Storage S] {P} {F : Frame S R} {sc : Scope} {inv : Invoke R}
  {env : GEnv R} {w : World}

variable {w₁ w₂ : World} {v : GVal R} {vs : List (GVal R)} {e : Expr} {es : List Expr}

/-! How the parts of an expression come together. -/

theorem eval_pat {p : Pat} {v : Val} (h : p.eval P.types (valEnv env) = some v) :
    eval P F sc inv env (.pat p) w = .ok (.val v, w) := by
  simp only [eval, h]

theorem evalArgs_cons (he : eval P F sc inv env e w = .ok (v, w₁))
    (hes : evalArgs P F sc inv env es w₁ = .ok (vs, w₂)) :
    evalArgs P F sc inv env (e :: es) w = .ok (v :: vs, w₂) := by
  rw [evalArgs, he]
  exact bind_ok.mpr ⟨_, rfl, bind_ok.mpr ⟨_, hes, rfl⟩⟩

theorem eval_call {f : GVal R} {res : Except Fault (GVal R × World)}
    (he : eval P F sc inv env e w = .ok (f, w₁)) (hes : evalArgs P F sc inv env es w₁ = .ok (vs, w₂))
    (ha : apply P F inv f vs w₂ = res) : eval P F sc inv env (.call e es) w = res := by
  rw [eval, he]
  change evalArgs P F sc inv env es w₁ >>= _ = _
  rw [hes]
  exact ha

theorem eval_transmute (he : eval P F sc inv env e w = .ok (v, w₁)) :
    eval P F sc inv env (.call (.path transmute) [e]) w = .ok (v, w₁) :=
  eval_call (f := .transmute none) rfl (evalArgs_cons he rfl) rfl

theorem eval_turbofish {src dst : Ty} {u : GVal R} (he : eval P F sc inv env e w = .ok (v, w₁))
    (hu : retype (sc.ty src) (sc.ty dst) v = some u) :
    eval P F sc inv env (.call (.turbofish transmute [src, dst]) [e]) w = .ok (u, w₁) := by
  refine eval_call (f := .transmute (some (sc.ty src, sc.ty dst))) rfl (evalArgs_cons he rfl) ?_
  simp only [apply, hu]

theorem eval_methodCall {m : Ident} {u : GVal R} (he : eval P F sc inv env e w = .ok (v, w₁))
    (ha : access F m v = .ok u) : eval P F sc inv env (.methodCall e m []) w = .ok (u, w₁) := by
  rw [eval, he]
  change (access F m v >>= fun v' => _) = _
  rw [ha]
  rfl

/-- Patterns that are written as arguments in a way that keeps what they read. -/
theorem evalArgs_map {write : Pat → Expr} {ps : List Pat} {vs : List Val}
    (hwrite : ∀ p v, p.eval P.types (valEnv env) = some v →
      eval P F sc inv env (write p) w = .ok (.val v, w))
    (h : Pat.evalElems P.types (valEnv env) ps = some vs) :
    evalArgs P F sc inv env (ps.map write) w = .ok (vs.map .val, w) := by
  induction ps generalizing vs with
  | nil =>
    obtain rfl := Option.some.inj h
    rfl
  | cons p ps ih =>
    cases vs with
    | nil => cases Pat.evalElems_length h
    | cons v vs =>
      obtain ⟨hv, hvs⟩ := Pat.evalElems_cons.mp h
      exact evalArgs_cons (hwrite p v hv) (ih hvs)

theorem evalArgs_pats {ps : List Pat} {vs : List Val}
    (h : Pat.evalElems P.types (valEnv env) ps = some vs) :
    evalArgs P F sc inv env (ps.map .pat) w = .ok (vs.map .val, w) :=
  evalArgs_map (fun _ _ hv => eval_pat hv) h

/-- The closure erases their lifetimes. -/
theorem evalArgs_erased {ps : List Pat} {vs : List Val}
    (h : Pat.evalElems P.types (valEnv env) ps = some vs) :
    evalArgs P F sc inv env (ps.map fun p => .call (.path transmute) [.pat p]) w =
      .ok (vs.map .val, w) :=
  evalArgs_map (fun _ _ hv => eval_transmute (eval_pat hv)) h

omit [FieldOffsets] in
theorem bindInputs_pats {ps : List Pat} {vs : List Val} {own : Env}
    (h : Pat.bindParams P.types ps vs = some own) :
    bindInputs P (ps.map .pat) (vs.map .val) = some (lift own) := by
  induction ps generalizing vs own with
  | nil =>
    cases vs with
    | nil =>
      obtain rfl := Option.some.inj h
      rfl
    | cons v vs => cases h
  | cons p ps ih =>
    obtain ⟨v, vs, o, rest, rfl, ho, hr, rfl⟩ := Pat.bindParams_cons.mp h
    simp [bindInputs, bindInput, ho, ih hr, lift]

omit [FieldOffsets] [Storage S] in
theorem mapM_asVal (vs : List Val) : (vs.map GVal.val).mapM (asVal (R := R)) = some vs := by
  induction vs with
  | nil => rfl
  | cons v vs ih => simp [asVal, ih]

end

/-- What a caller may call the method with: what it declares, given to patterns that can be
printed as arguments. -/
structure Callable (P : Program R) (method : DispatchableFn) (args : List Val) : Prop where
  mem : method ∈ P.fns
  /-- The receiver comes first, and is what the macro takes it for. -/
  receiver : ∃ r inputs, method.sig.inputs = .receiver r :: inputs ∧
    (∀ arg ∈ inputs, ∃ pat ty, arg = .typed pat ty) ∧
    ∃ lt, declared r.ty = some (kindOf (.new method), lt)
  fromCaller : FromCallers args
  binds : ∃ own, Pat.bindParams P.types (params method.sig).tail args = some own
  reads : ReadsBackElems P.types (params method.sig).tail args
  names : ("self" :: "__self" :: Pat.namesElems (params method.sig).tail).Nodup
  /-- `Self` is in its types only where it means the same in both impls. -/
  projected : ProjectedSig P.names method.sig

/-- What is found by a name that is nobody else's. -/
theorem find?_of_mem {α : Type} {f : α → Ident} {l : List α} {a : α} (hn : (l.map f).Nodup)
    (h : a ∈ l) : l.find? (f · = f a) = some a := by
  obtain ⟨l₁, l₂, rfl⟩ := List.append_of_mem h
  rw [List.map_append, List.map_cons] at hn
  have hne : ∀ b ∈ l₁, ¬ decide (f b = f a) = true := by
    intro b hb he
    exact (List.nodup_append.mp hn).2.2 _ (List.mem_map_of_mem hb) _ List.mem_cons_self
      (of_decide_eq_true he)
  rw [List.find?_append, List.find?_eq_none.mpr hne, List.find?_cons_of_pos (by simp)]
  rfl

theorem find_eq {P : Program R} {method : DispatchableFn} (h : method ∈ P.fns) :
    P.find method.sig.ident = some method :=
  find?_of_mem P.distinct h

theorem receiver_eq {P : Program R} {method : DispatchableFn} {args : List Val} (h : Callable P method args) :
    P.receiver method.sig.ident = some (kindOf (.new method)) := by
  obtain ⟨r, inputs, hi, -, lt, hr⟩ := h.receiver
  have hrecv : method.receiver = r := by
    simp [DispatchableFn.receiver, Signature.receiver, hi]
  simp only [Program.receiver, find_eq h.mem, Option.bind_some, hrecv, hr, Option.map_some]

def closureAccessor : VtableReceiver → Ident
  | .ref => "as_ref"
  | .mut => "as_mut"
  | .pinned => "as_pinned_mut"

def objectAccessor : VtableReceiver → Ident
  | .ref => "storage"
  | .mut => "storage_mut"
  | .pinned => "storage_pinned_mut"

/-- The parameters of the closure in the vtable, and what it does. -/
def closureInputs (method : DispatchableFn) : List Expr :=
  .path (.ofIdents false ["__self"]) :: (fnArgs method.sig).drop 1

def closureBody (method : DispatchableFn) : Expr :=
  let self := Expr.path (.ofIdents false ["__self"])
  .call (.path transmute) [.call (.path (.ofIdents false ["__Dyn", method.sig.ident]))
    (.methodCall self (closureAccessor (.new method)) [] ::
      ((fnArgs method.sig).drop 1).map fun arg => .call (.path transmute) [arg])]

theorem implMethod_eq (method : DispatchableFn) : (DynObject.implMethod method).block.value =
    .unsafeBlock (.call (.call (.turbofish transmute [unsafeFn, vtableFnPointer method false])
      [.field (.methodCall selfArg "vtable" []) method.sig.ident])
        (.methodCall selfArg (objectAccessor (.new method)) [] :: (fnArgs method.sig).drop 1)) := rfl

/-- The entry of a method in the vtable. -/
def entry (P : Program R) (method : DispatchableFn) : GVal R :=
  .fnPtr (P.names.stored.ty (vtableFnPointer method true)) unsafeFn (closureInputs method)
    (closureBody method)

/-- The entry is taken for a function pointer of the type that it has been made at. -/
theorem retype_entry {P : Program R} {method : DispatchableFn} {args : List Val}
    (h : Callable P method args) (dynObject : List PathSegment) :
    retype ((P.names.called dynObject).ty unsafeFn)
        ((P.names.called dynObject).ty (vtableFnPointer method false)) (entry P method) =
      some (.fnPtr (P.names.stored.ty (vtableFnPointer method true))
        (P.names.stored.ty (vtableFnPointer method true)) (closureInputs method)
        (closureBody method)) := by
  rw [← (vtableFnPointer_eq_iff P.names dynObject method).mpr h.projected]
  exact if_pos rfl

/-- The parameters after the receiver, as they are printed. -/
theorem fnArgs_typed {method : DispatchableFn} {r : Receiver} {inputs : List FnArg}
    (hi : method.sig.inputs = .receiver r :: inputs)
    (ht : ∀ arg ∈ inputs, ∃ pat ty, arg = .typed pat ty) :
    (fnArgs method.sig).drop 1 = (visitPats (params method.sig).tail).map .pat := by
  rw [drop_fnArgs hi, params, hi, List.map_cons, List.tail_cons, visitPats_eq_map, List.map_map,
    List.map_map]
  apply List.map_congr_left
  intro arg harg
  obtain ⟨pat, ty, rfl⟩ := ht arg harg
  rfl

section
variable [FieldOffsets] [Storage S] {P} {F : Frame S R} {w : World} {method : DispatchableFn}
  {args : List Val}

theorem access_object (r : VtableReceiver) :
    access F (objectAccessor r) (.object (R := R) (kindOf r)) = .ok (.storage (kindOf r)) := by
  cases r <;> rfl

variable [LawfulStorage S]

theorem access_storage (hc : Constructed F.ty F.storage) (r : VtableReceiver) :
    access F (closureAccessor r) (.storage (R := R) (kindOf r)) =
      .ok (.stored (kindOf r) (Storage.ptr F.storage (DynObject.storageAt S F.here))) := by
  cases r <;> simp only [access, closureAccessor, kindOf, asRef_eq hc, asMut_eq hc,
    asPinnedMut_eq hc] <;> rfl

/-- What the concrete method does to the value, and gives. -/
def ran (P : Program R) (F : Frame S R) (name : Ident) (args : List Val) (w : World) :
    R × World :=
  let p := Storage.ptr F.storage (DynObject.storageAt S F.here)
  let (result, object) := P.methods name args F.ty (w.read F.ty p)
  (result, (w.record (.accessed F.ty p)).write p object)

/-- The closure calls the concrete method on the value, with the arguments it is given. -/
theorem invoke_closure (hc : Constructed F.ty F.storage) (h : Callable P method args) :
    invoke P F (closureInputs method) (closureBody method)
        (.storage (kindOf (.new method)) :: args.map .val) w =
      .ok (.result (ran P F method.sig.ident args w).1, (ran P F method.sig.ident args w).2) := by
  obtain ⟨r, inputs, hi, ht, -⟩ := h.receiver
  obtain ⟨own, hown⟩ := h.binds
  obtain ⟨hreads, own', hown'⟩ := bindParams_visitPats hown h.reads
  have hnames : (Pat.namesElems (visitPats (params method.sig).tail)).Sublist
      (Pat.namesElems (params method.sig).tail) := names_visitPats _
  have hn : ("__self" :: own'.map (·.1)).Nodup := by
    rw [Pat.bindParams_names hown']
    exact (List.nodup_cons.mp h.names).2.sublist (hnames.cons_cons "__self")
  have hbind : bindInputs P (closureInputs method)
      (.storage (kindOf (.new method)) :: args.map .val) =
        some (("__self", .storage (kindOf (.new method))) :: lift own') := by
    rw [closureInputs, fnArgs_typed hi ht]
    simp [bindInputs, bindInput, bindInputs_pats hown', Path.ofIdents, PathSegment.plain]
  have hscope : (bindInputs P (closureInputs method)
      (.storage (kindOf (.new method)) :: args.map .val)).filter (fun env => (env.map (·.1)).Nodup) =
        some (("__self", .storage (kindOf (.new method))) :: lift own') := by
    rw [hbind, Option.filter_some, if_pos]
    simpa [names_lift] using hn
  have hpart : Part own' own' := part_self (List.nodup_cons.mp hn).2
  have hargs : Pat.evalElems P.types own' (visitPats (params method.sig).tail) = some args := by
    rw [← visitPats_visitPats]
    exact (evalParams_iff h.fromCaller hpart hown').mpr hreads
  rw [invoke, hscope]
  simp only [closureBody, fnArgs_typed hi ht, List.map_map]
  have hgiven : Pat.evalElems P.types (valEnv (("__self",
      GVal.storage (R := R) (kindOf (.new method))) :: lift own'))
        (visitPats (params method.sig).tail) = some args := by
    rw [valEnv_storage, valEnv_lift]
    exact hargs
  refine eval_transmute (eval_call (f := .method method.sig.ident) rfl (evalArgs_cons
    (eval_methodCall rfl (access_storage hc _)) (evalArgs_erased hgiven)) ?_)
  simp only [apply, receiver_eq h, Option.any_some, mapM_asVal, coerces, decide_true, Bool.true_or,
    if_true, ran]

/-- The function pointer is looked up in the vtable and called with the storage. -/
theorem eval_implMethod (hc : Constructed F.ty F.storage) (h : Callable P method args)
    (dynObject : List PathSegment) (hv : F.vtable.lookup method.sig.ident = some (entry P method)) :
    ∃ env, bindFn P method.sig args = some env ∧
      eval P F (P.names.called dynObject) (invoke P F) env (DynObject.implMethod method).block.value w =
        .ok (.result (ran P F method.sig.ident args w).1, (ran P F method.sig.ident args w).2) := by
  obtain ⟨r, inputs, hi, ht, lt, hr⟩ := h.receiver
  obtain ⟨own, hown⟩ := h.binds
  have htail : (params method.sig).tail = inputs.map argPat := by
    rw [params, hi]
    rfl
  have hn : ("self" :: own.map (·.1)).Nodup := by
    rw [Pat.bindParams_names hown]
    exact h.names.sublist ((List.sublist_cons_self _ _).cons_cons "self")
  refine ⟨("self", .object (kindOf (.new method))) :: lift own, ?_, ?_⟩
  · simp only [bindFn, hi, hr, ← htail, hown]
    exact if_pos (by simpa [lift, Function.comp_def] using hn)
  · have hpart : Part own own := part_self (List.nodup_cons.mp hn).2
    have hargs : Pat.evalElems P.types (valEnv (("self",
        GVal.object (R := R) (kindOf (.new method))) :: lift own))
          (visitPats (params method.sig).tail) = some args := by
      rw [valEnv_object, valEnv_lift]
      exact (evalParams_iff h.fromCaller hpart hown).mpr h.reads
    have hself : ∀ (sc : Scope) (inv : Invoke R), eval P F sc inv
        (("self", .object (kindOf (.new method))) :: lift own) selfArg w =
          .ok (.object (kindOf (.new method)), w) := fun _ _ => rfl
    rw [implMethod_eq, eval, fnArgs_typed hi ht]
    refine eval_call (eval_turbofish (v := entry P method) ?_ (retype_entry h dynObject))
      (evalArgs_cons (eval_methodCall (hself _ _) (access_object _)) (evalArgs_pats hargs))
      ((if_pos rfl).trans (invoke_closure hc h))
    rw [eval, eval_methodCall (hself _ _) (u := .vtable) rfl]
    change (match (GVal.vtable : GVal R), F.vtable.lookup method.sig.ident with
      | .vtable, some f => Except.ok (f, w)
      | _, _ => .error Fault.notAvailable) = _
    rw [hv]

end

/-! The macro puts them in their places. -/

/-- The field of the vtable for a method. -/
def field (method : DispatchableFn) : Ident × GVal R := (method.sig.ident, entry P method)

variable {P} {opts : DynObjectOps} {out : DynObjectOutput} {method : DispatchableFn}
  {args : List Val}

theorem implFns_output (obj : DynObject) :
    implFns obj.output.traitImpl = obj.methods.map DynObject.implMethod := by
  change (obj.types.map DynObject.implType ++
    obj.methods.map fun method => ImplItem.fn (DynObject.implMethod method)).filterMap _ = _
  rw [List.filterMap_append, List.filterMap_map, List.filterMap_eq_nil_iff.mpr,
    List.filterMap_map, List.nil_append]
  · exact congrFun (List.filterMap_eq_map (f := DynObject.implMethod)) _
  · exact fun _ _ => rfl

/-- One field and one function for each method. -/
theorem output_eq (h : dynObjectImpl P.trait opts = .ok out) :
    out.vtableImpl.methods = P.fns.map DynObject.vtableMethod ∧
      implFns out.traitImpl = P.fns.map DynObject.implMethod := by
  obtain ⟨obj, hobj, hout⟩ := bind_ok.mp h
  obtain rfl := pure_ok.mp hout
  have hfns : obj.methods = P.fns := by
    obtain ⟨-, rfl⟩ := DynObject.foldlM_parseItem_ok.mp hobj
    rfl
  rw [← hfns]
  exact ⟨rfl, implFns_output obj⟩

theorem vtableOf_output (h : dynObjectImpl P.trait opts = .ok out) :
    vtableOf P out.vtableImpl = some (P.fns.map (field P)) := by
  rw [vtableOf, (output_eq h).1, List.mapM_map]
  exact List.mapM_pure

theorem find_output (h : dynObjectImpl P.trait opts = .ok out) (hm : method ∈ P.fns) :
    (implFns out.traitImpl).find? (·.sig.ident = method.sig.ident) =
      some (DynObject.implMethod method) := by
  rw [(output_eq h).2]
  apply find?_of_mem (f := (·.sig.ident)) (a := DynObject.implMethod method)
  · rw [List.map_map]
    exact P.distinct
  · exact List.mem_map_of_mem hm

theorem lookup_field (hm : method ∈ P.fns) : (P.fns.map (field P)).lookup method.sig.ident =
    some (entry P method) := by
  have hn : ((P.fns.map (field P)).map (·.1)).Nodup := by
    rw [List.map_map]
    exact P.distinct
  exact lookup_of_mem hn (List.mem_map_of_mem hm)

/-- The trait as its objects know it. -/
def receiverOf : VtableReceiver → DynUtils.VtableReceiver
  | .ref => .ref
  | .mut => .mut
  | .pinned => .pinned

def Program.dynTrait (P : Program R) : DynUtils.DynTrait :=
  .trait fun name => (P.find name).map (receiverOf <| .new ·)

theorem receiver_dynTrait (hm : method ∈ P.fns) :
    (P.dynTrait.receiver method.sig.ident).isSome := by
  simp [Program.dynTrait, DynUtils.DynTrait.receiver, find_eq hm]

section
variable [FieldOffsets] [Storage S] [LawfulStorage S] {o : DynUtils.DynObject S} {T : RustType}
  {here : Addr} {w : World}

/-- What the macro writes is what calling through a vtable means. -/
theorem dispatch_eq (h : dynObjectImpl P.trait opts = .ok out) (hb : o.BuiltFor P.dynTrait T)
    (hc : Callable P method args) : dispatch P out o T here method.sig.ident args w =
      o.call here method.sig.ident (P.methods method.sig.ident args) w := by
  let F : Frame S R := ⟨o.storage, here, T, P.fns.map (field P)⟩
  obtain ⟨env, henv, heval⟩ := eval_implMethod (F := F) (w := w) hb.constructed hc
    (out.traitImpl.selfTy.pathSegments.getD []) (lookup_field hc.mem)
  have hscope : ((implFns out.traitImpl).find? (·.sig.ident = method.sig.ident)).bind
      (fun f => (bindFn P f.sig args).map (f, ·)) = some (DynObject.implMethod method, env) := by
    rw [find_output h hc.mem, Option.bind_some]
    change (bindFn P method.sig args).map _ = _
    rw [henv]
    rfl
  rw [DynUtils.DynObject.call_eq hb, if_pos (receiver_dynTrait hc.mem), dispatch, hscope,
    vtableOf_output h]
  change (eval P F _ (invoke P F) env _ w >>= _) = _
  rw [heval]
  rfl

end

open Transparency (State Op Started Holds directly direct iterate_direct holds_started)

variable [FieldOffsets] {k : StorageKind} {s : State k} {T : RustType} {v : Value T}

/-- As in `Transparency`, but a call is one of the generated impl. -/
def step (P : Program R) (out : DynObjectOutput) (T : RustType) (s : State k) :
    Op (List Val) → Except Fault (Option R × State k)
  | .call name args => do
    let (r, w) ← dispatch P out s.obj T s.here name args s.w
    return (some r, { s with w := w })
  | op => Transparency.step P.methods s op

def Allowed (P : Program R) (T : RustType) (s : State k) : Op (List Val) → Prop
  | .call name args => ∃ method, method.sig.ident = name ∧ Callable P method args
  | op => Transparency.Allowed P.dynTrait T s op

theorem allowed {op : Op (List Val)} (h : Allowed P T s op) :
    Transparency.Allowed P.dynTrait T s op := by
  cases op with
  | call name args =>
    obtain ⟨method, rfl, hc⟩ := h
    exact receiver_dynTrait hc.mem
  | _ => exact h

theorem step_eq {op : Op (List Val)} (hout : dynObjectImpl P.trait opts = .ok out)
    (hs : Holds P.dynTrait s v) (hok : Allowed P T s op) :
    step P out T s op = Transparency.step P.methods s op := by
  cases op with
  | call name args =>
    obtain ⟨method, rfl, hc⟩ := hok
    simp only [step, Transparency.step, dispatch_eq hout hs.built hc]
  | _ => rfl

/-- A run whose steps do what the value itself would do, as `Transparency.step_simulates` has it,
gives the results of the value. -/
theorem run_of_steps {R : Type} {D : DynUtils.DynTrait} {methods : Methods (List Val) R}
    {step : State k → Op (List Val) → Except Fault (Option R × State k)}
    {Ok : State k → Op (List Val) → Prop} {ops : List (Op (List Val))}
    (hstep : ∀ (s : State k) (v : Value T) op, Holds D s v → Ok s op →
      ∃ s', step s op = .ok ((direct methods T v op).1, s') ∧ Holds D s' (direct methods T v op).2)
    (hs : Started D v s) (hok : Along step Ok s ops) :
    ∃ outs u, run step s ops = .ok (outs, u) ∧
      outs.reduceOption = (iterate (directly methods T) v (ops.filterMap Op.asCall)).1 ∧
      u.value T = (iterate (directly methods T) v (ops.filterMap Op.asCall)).2 := by
  obtain ⟨u, hu, hholds⟩ := run_simulates (f := direct methods T) (R := Holds D) hstep
    (holds_started hs) hok
  obtain ⟨hres, hval⟩ := iterate_direct methods T v ops
  exact ⟨_, u, hu, hres, hholds.value.trans hval⟩

theorem step_simulates {op : Op (List Val)} (hout : dynObjectImpl P.trait opts = .ok out)
    (hs : Holds P.dynTrait s v) (hok : Allowed P T s op) :
    ∃ s', step P out T s op = .ok ((direct P.methods T v op).1, s') ∧
      Holds P.dynTrait s' (direct P.methods T v op).2 := by
  rw [step_eq hout hs hok]
  exact Transparency.step_simulates hs (allowed hok)

/-- `trait Indexed { fn nth(&self, n: usize); }` -/
def indexed : ItemTrait :=
  ⟨[], false, "Indexed", ⟨[], none⟩, false, [],
    [.fn (nth (.ident false false "n" none)).toTraitItemFn]⟩

/-- Its values give the index back with their first byte, and count up. -/
def counting : Program (List Val × Cell) where
  types := noTypes
  trait := indexed
  distinct := List.nodup_cons.mpr ⟨List.not_mem_nil, List.nodup_nil⟩
  resolution := .fixing (· = ["Indexed"]) []
  methods := fun _ args T v =>
    ((args, if h : 0 < T.size then v ⟨0, h⟩ else none), fun i => (v i).map (· + 1))

omit [FieldOffsets] in
theorem projected_nth (n : Names) (pat : Pat) : ProjectedSig n (nth pat).sig := by
  simp [ProjectedSig, Signature.typedInputs, nth, FnPointers.ProjectedTys, FnPointers.Projected,
    FnPointers.ProjectedReturn, FnPointers.AtDyn, FnPointers.ProjectedSegments,
    FnPointers.ProjectedArguments, Ty.ofIdent, PathSegment.plain]

omit [FieldOffsets] in
theorem callable_nth (n : ℕ) :
    Callable counting (nth (.ident false false "n" none)) [.atom n] where
  mem := List.mem_singleton_self _
  receiver := ⟨_, _, rfl, by simp, _, rfl⟩
  fromCaller := by simp [FromCallers, Val.FromCaller]
  binds := ⟨_, rfl⟩
  reads := by simp [params, nth, argPat, ReadsBackElems, ReadsBack]
  names := by decide
  projected := projected_nth _ _

def nthTwice : List (Op (List Val)) := [.call "nth" [.atom 3], .move 256, .call "nth" [.atom 4]]

end DynUtils.Macros.Dispatch
