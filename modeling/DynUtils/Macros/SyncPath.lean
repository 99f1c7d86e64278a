import DynUtils.Awaiting
import DynUtils.Macros.Forwarding

/-! A method under `maybe_sync`: what a call of it through the generated trait does, by the
items that `dyn_trait` and `sync` write for it. -/
namespace DynUtils.Macros.SyncPath

open Syn Machine Awaiting Forwarding

/-- An item of an impl. `sync` is a method that the macro `sync` is on, as it is given to it. -/
inductive Written
  | plain (item : ImplItem)
  | sync (method : ImplItemFn)

namespace Written

def expand (casing : Casing) : Written → Except Error (List ImplItem)
  | plain item => .ok [item]
  | sync method => syncImpl casing method

/-- The items of the impl, once the macro has run. -/
def expandAll (casing : Casing) : List Written → Except Error (List ImplItem)
  | [] => .ok []
  | w :: ws => do
    let items ← w.expand casing
    let rest ← expandAll casing ws
    return items ++ rest

end Written

/-- What the name of a function or constant stands for. -/
inductive Member
  | fn (sig : Signature) (block : Block)
  | const (expr : Expr)

abbrev Members := List (Ident × Member)

def implMember : ImplItem → Option (Ident × Member)
  | .fn item => some (item.sig.ident, .fn item.sig item.block)
  | .const ident _ expr => some (ident, .const expr)
  | .type _ _ => none

/-- The item of a trait, where it has a default. -/
def traitMember : TraitItem → Option (Ident × Member)
  | .fn item => item.default.map fun block => (item.sig.ident, .fn item.sig block)
  | .const item => item.default.map fun expr => (item.ident, .const expr)
  | .type _ | .other _ _ => none

def traitName : TraitItem → Option Ident
  | .fn item => some item.sig.ident
  | .const item => some item.ident
  | .type _ | .other _ _ => none

/-- `__Dyn::name` is in the impl or, by default, in the trait. -/
def members (impl : List ImplItem) (trait : ItemTrait) : Members :=
  impl.filterMap implMember ++ trait.items.filterMap traitMember

/-- How a call ends that gives no result. -/
inductive Stop
  | fault (fault : Fault)
  | unwinds
  /-- It was a body like the default of a `_sync` method that was entered. -/
  | unimplemented
  /-- It has no type. -/
  | stuck

def isUnimplemented : Expr → Bool
  | .mac ⟨true, [.mk "core" .none, .mk "unimplemented" .none]⟩ => true
  | _ => false

/-- The path ends in `a::b`. -/
def endsIn (path : Path) (a b : Ident) : Bool :=
  match path.segments.reverse with
  | .mk b' .none :: .mk a' .none :: _ => a' = a && b' = b
  | _ => false

section
variable {C U O Obj : Type} (L : Lang C U O) (S : Types) (ms : Members)
  (new : Fut L → Except Fault Obj) (env : Env)

/-- A call of a function that is not async. -/
def callOut (name : Ident) (args : List Val) (u : U) : Except Stop (O × U) :=
  match ms.lookup name with
  | some (.fn sig block) =>
    if sig.asyncness then .error .stuck
    else if isUnimplemented block.value then .error .unimplemented
    else match L.resume (L.enter sig.inputs block args) none u with
      | .returns res u => .ok (res, u)
      | .unwinds _ => .error .unwinds
      | .awaits _ _ => .error .stuck
  | _ => .error .stuck

/-- A call that gives a future. That of an async function is there at once. -/
def callFut (name : Ident) (args : List Val) (u : U) : Except Stop (Fut L × U) :=
  match ms.lookup name with
  | some (.fn sig block) =>
    if sig.asyncness then .ok (.running (L.enter sig.inputs block args), u)
    else match L.make sig.inputs block args u with
      | some (fut, u) => .ok (.custom fut, u)
      | none => .error .unwinds
  | _ => .error .stuck

/-- `__Dyn::name` -/
def evalConst : Expr → Except Stop Bool
  | .path ⟨false, [.mk "__Dyn" .none, .mk name .none]⟩ =>
    match ms.lookup name with
    | some (.const (.lit value)) => .ok value
    | _ => .error .stuck
  | _ => .error .stuck

/-- `__Dyn::name(#(#exprs),*)` -/
def evalCall {R : Type} (call : Ident → List Val → U → Except Stop (R × U)) :
    Expr → U → Except Stop (R × U)
  | .call (.path ⟨false, [.mk "__Dyn" .none, .mk name .none]⟩) exprs, u =>
    match exprs.mapM (evalArg S env) with
    | some args => call name args u
    | none => .error .stuck
  | _, _ => .error .stuck

/-- `DynObject::new(expr)` -/
def evalObject : Expr → U → Except Stop (Obj × U)
  | .call (.path path) [expr], u =>
    if endsIn path "DynObject" "new" then do
      let (fut, u) ← evalCall S env (callFut L ms) expr u
      let obj ← (new fut).mapError .fault
      return (obj, u)
    else .error .stuck
  | _, _ => .error .stuck

def evalMaybeSync : Expr → U → Except Stop (MaybeSync Obj O × U)
  | .ifElse cond thenBranch elseBranch, u => do
    if ← evalConst ms cond then evalMaybeSync thenBranch u else evalMaybeSync elseBranch u
  | .call (.path path) [expr], u =>
    if endsIn path "MaybeSync" "Sync" then do
      let (res, u) ← evalCall S env (callOut L ms) expr u
      return (.sync res, u)
    else if endsIn path "MaybeSync" "Async" then do
      let (obj, u) ← evalObject L S ms new env expr u
      return (.async obj, u)
    else .error .stuck
  | _, _ => .error .stuck

/-- A call of a method of the impl for `__Dyn`. -/
def invoke (method : ImplItemFn) (args : List Val) (u : U) : Except Stop (MaybeSync Obj O × U) :=
  match Pat.bindArgs S (params method.sig) args with
  | some env => evalMaybeSync L S ms new env method.block.value u
  | none => .error .stuck

end

theorem eq_of_isUnimplemented {expr : Expr} (h : isUnimplemented expr = true) :
    expr = unimplemented := by
  unfold isUnimplemented at h
  split at h
  · rfl
  · cases h

theorem endsIn_join (crate : Path) (a b : Ident) : endsIn (crate.join [a, b]) a b = true := by
  simp [endsIn, Path.join, PathSegment.plain]

theorem endsIn_join_ne {a b c : Ident} (crate : Path) (h : b ≠ c) :
    endsIn (crate.join [a, b]) a c = false := by
  simp [endsIn, Path.join, PathSegment.plain, h]

/-- A method that `dyn_trait` is given with `maybe_sync`, in a trait that it accepts. -/
structure Declares (casing : Casing) (trait : ItemTrait) (method : TraitItemFn)
    (out : DynTraitOutput) : Prop where
  accepted : ∃ opts, dynTraitImpl casing trait opts = .ok out
  distinct : (trait.items.filterMap traitName).Nodup
  mem : .fn method ∈ trait.items
  dispatchable : isDispatchable method = true
  maybeSync : ∃ attrs method', MethodAttrs.parse method = .ok (attrs, method') ∧
    attrs.maybeSync = true

/-- An impl of the trait. The hidden items of the method are left to the macro `sync`. -/
structure Implements (casing : Casing) (trait : ItemTrait) (sig : Signature)
    (written : List Written) (impl : List ImplItem) : Prop where
  expanded : Written.expandAll casing written = .ok impl
  distinct : ((impl.filterMap implMember).map (·.1)).Nodup
  distinctItems : (trait.items.filterMap traitName).Nodup
  hidden : ∀ w ∈ written, ∀ items, w.expand casing = .ok items →
    ∀ b ∈ items.filterMap implMember, b.1 = syncFn sig ∨ b.1 = isSyncConst casing sig →
      ∃ m, w = .sync m ∧ m.sig.ident = sig.ident

/-- `sync` is on the implementation of the method. -/
def Marked (written : List Written) (name : Ident) (m : ImplItemFn) : Prop :=
  .sync m ∈ written ∧ m.sig.ident = name

/-- The body that `sync` copies is that of a function that is not async as well, and the call
returns. -/
structure Returns {C U O : Type} (L : Lang C U O) (m : ImplItemFn) (args : List Val) (u : U) :
    Prop where
  awaitFree : AwaitFree (L.enter m.sig.inputs m.block args)
  returns : ∃ res u', L.resume (L.enter m.sig.inputs m.block args) none u = .returns res u'

variable {casing : Casing} {trait : ItemTrait} {method : TraitItemFn} {out : DynTraitOutput}
  {sig : Signature} {written : List Written} {impl : List ImplItem}

theorem traitMember_name {item : TraitItem} {b : Ident × Member} (h : traitMember item = some b) :
    traitName item = some b.1 := by
  cases item with
  | fn item =>
    obtain ⟨_, -, rfl⟩ := Option.map_eq_some_iff.mp h
    rfl
  | type ty => cases h
  | const item =>
    obtain ⟨_, -, rfl⟩ := Option.map_eq_some_iff.mp h
    rfl
  | other attrs tokens => cases h

theorem traitMember_nodup {items : List TraitItem} (h : (items.filterMap traitName).Nodup) :
    ((items.filterMap traitMember).map (·.1)).Nodup := by
  rw [List.Nodup, List.pairwise_map, List.pairwise_filterMap]
  apply (List.pairwise_filterMap.mp h).imp
  exact fun hne _ hb _ hb' => hne _ (traitMember_name hb) _ (traitMember_name hb')

/-- A trait has one item of a name. -/
theorem eq_of_name {items : List TraitItem} (h : (items.filterMap traitName).Nodup)
    {a b : TraitItem} (ha : a ∈ items) (hb : b ∈ items) {name : Ident}
    (hna : traitName a = some name) (hnb : traitName b = some name) : a = b := by
  have hp := List.pairwise_filterMap.mp h
  have heq : ∀ a ∈ items, ∀ b ∈ items, traitName a = some name → traitName b = some name → a = b :=
    List.Pairwise.forall_of_forall_of_flip (fun _ _ _ _ => rfl)
      (hp.imp fun hne hna hnb => absurd rfl (hne _ hna _ hnb))
      (hp.imp fun hne hnb hna => absurd rfl (hne _ hna _ hnb))
  exact heq a ha b hb hna hnb

theorem mem_expandAll (h : Written.expandAll casing written = .ok impl) {i : ImplItem} :
    i ∈ impl ↔ ∃ w ∈ written, ∃ items, w.expand casing = .ok items ∧ i ∈ items := by
  induction written generalizing impl with
  | nil =>
    obtain rfl := Except.ok.inj h
    simp
  | cons w ws ih =>
    obtain ⟨items, hw, h⟩ := bind_ok.mp h
    obtain ⟨rest, hr, h⟩ := bind_ok.mp h
    obtain rfl := pure_ok.mp h
    simp [ih hr, hw]

theorem expand_ok (h : Written.expandAll casing written = .ok impl) {w : Written}
    (hw : w ∈ written) : ∃ items, w.expand casing = .ok items := by
  induction written generalizing impl with
  | nil => cases hw
  | cons w' ws ih =>
    obtain ⟨items, hi, h⟩ := bind_ok.mp h
    obtain ⟨rest, hr, h⟩ := bind_ok.mp h
    rcases List.mem_cons.mp hw with rfl | hw
    · exact ⟨items, hi⟩
    · exact ih hr hw

/-- What `sync` adds to an impl. -/
theorem syncImpl_ok {m : ImplItemFn} {items : List ImplItem} (h : syncImpl casing m = .ok items) :
    m.sig.asyncness = true ∧ items = [.fn m,
      .fn { m with sig := { m.sig with asyncness := false, ident := syncFn m.sig } },
      .const (isSyncConst casing m.sig) bool (.lit true)] := by
  unfold syncImpl at h
  split at h
  · cases h
  · rename_i hs
    obtain ⟨isSync, hi, h⟩ := bind_ok.mp h
    obtain ⟨-, rfl⟩ := formatIdent_ok.mp hi
    exact ⟨by simpa using hs, (pure_ok.mp h).symm⟩

section
variable (h : Implements casing trait sig written impl)

include h

/-- What an impl has is found there. -/
theorem lookup_impl {name : Ident} {member : Member}
    (hb : (name, member) ∈ impl.filterMap implMember) :
    (members impl trait).lookup name = some member := by
  rw [members, List.lookup_append, lookup_of_mem h.distinct hb, Option.some_or]

theorem lookup_expanded {w : Written} (hw : w ∈ written) {items : List ImplItem}
    (hi : w.expand casing = .ok items) {name : Ident} {member : Member}
    (hb : (name, member) ∈ items.filterMap implMember) :
    (members impl trait).lookup name = some member := by
  obtain ⟨i, hmem, hb⟩ := List.mem_filterMap.mp hb
  have himpl : i ∈ impl := (mem_expandAll h.expanded).mpr ⟨w, hw, items, hi, hmem⟩
  exact lookup_impl h (List.mem_filterMap.mpr ⟨i, himpl, hb⟩)

/-- With the attribute, all three items are those of the macro. -/
theorem lookup_marked {m : ImplItemFn} (hm : Marked written sig.ident m) :
    m.sig.asyncness = true ∧ (members impl trait).lookup sig.ident = some (.fn m.sig m.block) ∧
      (members impl trait).lookup (syncFn sig) =
        some (.fn { m.sig with asyncness := false, ident := syncFn m.sig } m.block) ∧
      (members impl trait).lookup (isSyncConst casing sig) = some (.const (.lit true)) := by
  obtain ⟨hw, hn⟩ := hm
  obtain ⟨items, hi⟩ := expand_ok h.expanded hw
  obtain ⟨hs, rfl⟩ := syncImpl_ok hi
  have hsync : syncFn sig = syncFn m.sig := by rw [syncFn, syncFn, hn]
  have hconst : isSyncConst casing sig = isSyncConst casing m.sig := by
    rw [isSyncConst, isSyncConst, hn]
  rw [← hn, hsync, hconst]
  refine ⟨hs, ?_, ?_, ?_⟩ <;> exact lookup_expanded h hw hi (by simp [implMember])

/-- Without it, the constant is that of the trait. -/
theorem lookup_unmarked (hn : ∀ m, ¬ Marked written sig.ident m) {expr : Expr}
    (ht : (isSyncConst casing sig, .const expr) ∈ trait.items.filterMap traitMember) :
    (members impl trait).lookup (isSyncConst casing sig) = some (.const expr) := by
  have himpl : (impl.filterMap implMember).lookup (isSyncConst casing sig) = none := by
    apply List.lookup_eq_none_iff.mpr
    intro b hb
    obtain ⟨i, hi, hb⟩ := List.mem_filterMap.mp hb
    obtain ⟨w, hw, items, he, hmem⟩ := (mem_expandAll h.expanded).mp hi
    apply bne_iff_ne.mpr
    intro hname
    obtain ⟨m, rfl, hm⟩ := h.hidden w hw items he b
      (List.mem_filterMap.mpr ⟨i, hmem, hb⟩) (Or.inr hname.symm)
    exact hn m ⟨hw, hm⟩
  rw [members, List.lookup_append, himpl, Option.none_or]
  exact lookup_of_mem (traitMember_nodup h.distinctItems) ht

end

/-- What a method under `maybe_sync` adds to the trait and to the impl. -/
theorem convertMethod_maybeSync (h : Declares casing trait method out) {base : DynTrait}
    {o : ItemOutput} (hc : base.convertMethod casing method = .ok o) :
    ∃ method' f c i, method'.sig = method.sig ∧
      (base.dynMethod casing method').maybeSyncImpl casing = .ok i ∧ o.implItems = [.fn i] ∧
      o.additionalTraitItems = [.fn f, .const c] ∧
      traitMember (.const c) = some (isSyncConst casing method.sig, .const (.lit false)) := by
  obtain ⟨attrs, method', hp, hcase⟩ := DynTrait.convertMethod_ok hc
  obtain ⟨attrs', method'', hp', hs⟩ := h.maybeSync
  obtain ⟨rfl, rfl⟩ := Prod.mk.inj (Except.ok.inj (hp.symm.trans hp'))
  rcases hcase with ⟨hs', -⟩ | ⟨-, f, c, i, _, -, hconst, hi, -, rfl⟩
  · rw [hs] at hs'
    cases hs'
  · obtain ⟨-, rfl⟩ := DynMethod.isSyncConst_ok hconst
    have hsig : method'.sig = method.sig := MethodAttrs.parse_sig hp
    exact ⟨method', f, _, i, hsig, hi, rfl, rfl, by rw [← hsig]; rfl⟩

/-- The constant of a method under `maybe_sync`, by default. -/
theorem mem_isSyncConst (h : Declares casing trait method out) {t : ItemTrait}
    (ht : out.optTrait = some t) :
    (isSyncConst casing method.sig, .const (.lit false)) ∈ t.items.filterMap traitMember := by
  obtain ⟨opts, hok⟩ := h.accepted
  obtain ⟨outs, ho, -, -, hitems⟩ := dynTraitImpl_ok hok
  obtain ⟨o, hmem, hc⟩ := exists_right_of_forall₂ ho h.mem
  simp only [DynTrait.convertItem, h.dispatchable, if_true] at hc
  obtain ⟨_, f, c, _, -, -, -, hadd, hmember⟩ := convertMethod_maybeSync h hc
  have hconst : .const c ∈ t.items := by
    rw [hitems t ht]
    refine List.mem_append_right _ (List.mem_flatMap.mpr ⟨o, hmem, ?_⟩)
    rw [hadd]
    exact List.mem_cons_of_mem _ (List.mem_singleton_self _)
  exact List.mem_filterMap.mpr ⟨_, hconst, hmember⟩

/-- The name of a method of the impl is that of the method that it is for. -/
theorem implItems_ident {base : DynTrait} {f : TraitItemFn} {o : ItemOutput} {g : ImplItemFn}
    (hc : base.convertMethod casing f = .ok o) (hg : .fn g ∈ o.implItems) :
    g.sig.ident = f.sig.ident := by
  obtain ⟨attrs, method', hp, hcase⟩ := DynTrait.convertMethod_ok hc
  rw [← MethodAttrs.parse_sig hp]
  rcases hcase with ⟨-, rfl⟩ | ⟨-, _, _, i, _, -, -, hi, -, rfl⟩
  · obtain rfl : g = _ := by simpa using hg
    exact DynMethod.new_ident ..
  · obtain rfl : g = i := by simpa using hg
    obtain ⟨-, ⟨_, hsig⟩, -⟩ := DynMethod.maybeSyncImpl_ok hi
    rw [hsig]
    exact DynMethod.new_ident ..

/-- The method of the impl for `__Dyn`. -/
theorem mem_dynImpl (h : Declares casing trait method out) {g : ImplItemFn}
    (hg : .fn g ∈ out.dynImpl.items) (hn : g.sig.ident = method.sig.ident) :
    ∃ crate traitGenerics method', method'.sig = method.sig ∧
      (DynMethod.new casing crate traitGenerics method').maybeSyncImpl casing = .ok g := by
  obtain ⟨opts, hok⟩ := h.accepted
  obtain ⟨outs, ho, -, hitems, -⟩ := dynTraitImpl_ok hok
  rw [hitems] at hg
  obtain ⟨o, hmem, hg⟩ := List.mem_flatMap.mp hg
  obtain ⟨item, hitem, hc⟩ := exists_left_of_forall₂ ho hmem
  obtain ⟨f, rfl, -, hc⟩ := DynTrait.convertItem_fn hc (Or.inr ⟨g, hg⟩)
  have hf : f.sig.ident = method.sig.ident := (implItems_ident hc hg).symm.trans hn
  -- so the item that gives `g` is the method itself
  cases eq_of_name h.distinct hitem h.mem (congrArg some hf) rfl
  obtain ⟨method', _, _, i, hsig, hi, himpl, -⟩ := convertMethod_maybeSync h hc
  obtain rfl : g = i := by simpa [himpl] using hg
  exact ⟨_, _, method', hsig, hi⟩

section
variable {C U O Obj : Type} {L : Lang C U O} {S : Types} {ms : Members}
  {new : Fut L → Except Fault Obj}

/-- The constant chooses between a call of the `_sync` method and an object of the future. -/
theorem invoke_eq {d : DynMethod} {g : ImplItemFn} (hg : d.maybeSyncImpl casing = .ok g)
    {args : List Val} (hargs : Delivers S (params g.sig) args (fnArgs d.origSig) args)
    {value : Bool} (hc : ms.lookup (isSyncConst casing d.origSig) = some (.const (.lit value)))
    (u : U) :
    invoke L S ms new g args u =
      if value then do
        let (res, u) ← callOut L ms (syncFn d.origSig) args u
        return (.sync res, u)
      else do
        let (fut, u) ← callFut L ms d.origSig.ident args u
        let obj ← (new fut).mapError .fault
        return (.async obj, u) := by
  obtain ⟨-, -, hblock⟩ := DynMethod.maybeSyncImpl_ok hg
  obtain ⟨env, henv, hargs⟩ := hargs
  have hconst : evalConst ms (DynMethod.dynPath (isSyncConst casing d.origSig)) = .ok value := by
    simp [evalConst, DynMethod.dynPath, Path.ofIdents, PathSegment.plain, hc]
  have hcall : ∀ {R : Type} (call : Ident → List Val → U → Except Stop (R × U)) (name : Ident),
      evalCall S env call (.call (DynMethod.dynPath name) (fnArgs d.origSig)) u =
        call name args u := fun call name => by
    simp [evalCall, DynMethod.dynPath, Path.ofIdents, PathSegment.plain, hargs]
  simp only [invoke, henv, hblock, evalMaybeSync, hconst, DynMethod.dynObjectNew, evalObject,
    endsIn_join, endsIn_join_ne _ (by decide : "Async" ≠ "Sync"), hcall, ↓reduceIte,
    Bool.false_eq_true]
  change (if value then _ else _) = _
  simp only [bind_assoc, pure_bind]

/-- A body that returns is none that is left out. -/
theorem isUnimplemented_of_returns {m : ImplItemFn} {args : List Val} {u : U}
    (h : Returns L m args u) : isUnimplemented m.block.value = false := by
  by_contra hu
  obtain ⟨res, u', hr⟩ := h.returns
  have hblock : m.block = ⟨m.block.stmts, unimplemented⟩ := by
    rw [← eq_of_isUnimplemented (Bool.of_not_eq_false hu)]
  obtain ⟨u'', hw⟩ := L.unimplemented_unwinds m.sig.inputs m.block.stmts args none u
  rw [← hblock, hr] at hw
  cases hw

end

section
variable [FieldOffsets] {C U O : Type} {L : Lang C U O} {k : StorageKind} {R : FutureType L}
  {here answer : Addr} {w : World}

/-- Through the generated trait a method under `maybe_sync` does what it does by itself. -/
theorem invoke_agrees {S : Types} {trait' t : ItemTrait} {method' : TraitItemFn}
    {out' : DynTraitOutput} {g : ImplItemFn} {args : List Val} {env : Env} {u u₀ : U} {f : Fut L}
    (h : Declares casing trait method out) (h' : Declares casing trait' method' out')
    (ht : out'.optTrait = some t) (hname : method'.sig.ident = method.sig.ident)
    (hi : Implements casing t method.sig written impl)
    (hg : .fn g ∈ out.dynImpl.items) (hgn : g.sig.ident = method.sig.ident)
    (hb : Pat.bindArgs S (params method.sig) args = some env) (hv : FromCallers args)
    (hp : ∀ p ∈ params method.sig, IsIdent p)
    (hf : callFut L (members impl t) method.sig.ident args u = .ok (f, u₀))
    (hr : ∀ m, Marked written method.sig.ident m → Returns L m args u)
    (ho : (∀ m, ¬ Marked written method.sig.ident m) →
      R.IsA f ∧ ∃ obj, object k R here answer w f = .ok obj) :
    ∃ m u', invoke L S (members impl t) (object k R here answer w) g args u = .ok (m, u') ∧
      ∀ inputs : List (Input C U), Along (step R) (Allowed R f) (m, u') inputs →
        ∃ s, run (step R) (m, u') inputs = .ok ((iterate direct (f, u₀) inputs).1, s) := by
  obtain ⟨crate, traitGenerics, source, hsig, hmaybe⟩ := mem_dynImpl h hg hgn
  have hargs : Delivers S (params g.sig) args (fnArgs source.sig) args := by
    rw [← hsig] at hb hp
    obtain ⟨-, hcalls⟩ := called_of_idents casing crate traitGenerics source hb hv hp g
      (Or.inr hmaybe)
    apply hcalls _
    rw [(dynCalls_maybeSyncImpl hmaybe).1]
    exact List.mem_cons_self
  suffices hstart : ∃ m u', invoke L S (members impl t) (object k R here answer w) g args u =
      .ok (m, u') ∧ Agrees R f (m, u') (f, u₀) by
    obtain ⟨m, u', hinv, hagrees⟩ := hstart
    refine ⟨m, u', hinv, ?_⟩
    intro inputs hok
    obtain ⟨s, hrun, -⟩ := run_agrees hagrees hok
    exact ⟨s, hrun⟩
  by_cases hm : ∃ m, Marked written method.sig.ident m
  · obtain ⟨m, hm⟩ := hm
    obtain ⟨hasync, hfn, hsync, hconst⟩ := lookup_marked hi hm
    have hret := hr m hm
    obtain ⟨res, u', hres⟩ := hret.returns
    obtain ⟨rfl, rfl⟩ : f = .running (L.enter m.sig.inputs m.block args) ∧ u₀ = u := by
      simpa [callFut, hfn, hasync, eq_comm] using hf
    refine ⟨.sync res, u', ?_, .sync fun cx => poll_running hret.awaitFree hres cx⟩
    have hcall : callOut L (members impl t) (syncFn method.sig) args u₀ = .ok (res, u') := by
      simp [callOut, hsync, isUnimplemented_of_returns hret, hres]
    rw [← hsig] at hconst hcall
    rw [invoke_eq hmaybe hargs hconst]
    exact bind_ok.mpr ⟨_, hcall, rfl⟩
  · have hm := not_exists.mp hm
    obtain ⟨hf', obj, hobj⟩ := ho hm
    refine ⟨.async obj, u₀, ?_, .async hf' (holds_object hobj)⟩
    have hconst : isSyncConst casing method'.sig = isSyncConst casing method.sig := by
      rw [isSyncConst, isSyncConst, hname]
    have hlookup := lookup_unmarked hi hm (hconst ▸ mem_isSyncConst h' ht)
    rw [← hsig] at hlookup hf
    rw [invoke_eq hmaybe hargs hlookup]
    refine bind_ok.mpr ⟨_, hf, bind_ok.mpr ⟨obj, ?_, rfl⟩⟩
    rw [hobj]
    rfl

end

/-- Every body returns `7` and leaves a mark in the world. -/
def seven : Lang Unit ℕ ℕ where
  Frame := Bool
  enter _ block _ := isUnimplemented block.value
  resume frame _ u := bif frame then .unwinds u else .returns 7 (u + 1)
  unimplemented_unwinds _ _ _ _ u := ⟨u, rfl⟩
  Custom := Empty
  pollCustom _ fut := fut.elim
  make _ _ _ _ := none

def sevenType : FutureType seven where
  T := .bytes 1
  IsA _ := True
  encode fut _ := match fut with
    | .running frame => some (bif frame then 0 else 1)
    | .finished => some 2
    | .custom fut => Empty.elim fut
  decode v := match v ⟨0, Nat.one_pos⟩ with
    | some 0 => .running true
    | some 1 => .running false
    | _ => .finished
  decode_encode fut _ := by
    cases fut with
    | running frame => cases frame <;> rfl
    | finished => rfl
    | custom fut => exact Empty.elim fut
  isA_poll _ _ _ _ := trivial

/-- `async fn run(&self) -> usize` -/
def runSig : Signature where
  asyncness := true
  unsafety := false
  ident := "run"
  generics := ⟨[], none⟩
  inputs := [.receiver ⟨some none, false, false, .reference none false (.ofIdent "Self")⟩]
  output := .type (.ofIdent "usize")

def runMethod : TraitItemFn where
  attrs := [⟨.list ["dyn_trait"] [.path ["maybe_sync"]]⟩]
  sig := runSig
  default := none

/-- `trait Job { #[dyn_trait(maybe_sync)] async fn run(&self) -> usize; }` -/
def job : ItemTrait where
  attrs := []
  unsafety := false
  ident := "Job"
  generics := ⟨[], none⟩
  colon := false
  supertraits := []
  items := [.fn runMethod]

def runImpl : ImplItemFn := ⟨[], runSig, ⟨[], .verbatim "7"⟩⟩

theorem declares_job : ∃ out t g, Declares .ascii job runMethod out ∧ out.optTrait = some t ∧
    (t.items.filterMap traitName).Nodup ∧ .fn g ∈ out.dynImpl.items ∧ g.sig.ident = "run" := by
  refine ⟨_, _, _, ⟨⟨{}, rfl⟩, ?_, List.mem_cons_self, rfl, _, _, rfl, rfl⟩, rfl, ?_,
    List.mem_cons_self, rfl⟩ <;> decide

/-- The implementation is marked, or not. -/
theorem implements_job {t : ItemTrait} (ht : (t.items.filterMap traitName).Nodup) {w : Written}
    (hw : w = .sync runImpl ∨ w = .plain (.fn runImpl)) :
    ∃ impl, Implements .ascii t runSig [w] impl ∧ .fn runImpl ∈ impl := by
  rcases hw with rfl | rfl
  · refine ⟨_, ⟨rfl, by decide, ht, ?_⟩, List.mem_cons_self⟩
    intro w hw _ _ _ _ _
    obtain rfl := List.mem_singleton.mp hw
    exact ⟨_, rfl, rfl⟩
  · refine ⟨_, ⟨rfl, by decide, ht, ?_⟩, List.mem_cons_self⟩
    intro w hw items he b hb hname
    obtain rfl := List.mem_singleton.mp hw
    obtain rfl := Except.ok.inj he
    obtain rfl := List.mem_singleton.mp hb
    exact absurd hname (by decide)

/-- Two polls of `run`, called through the generated trait. -/
def TwoPolls (w : Written) : Prop :=
  ∃ out t g impl, Declares .ascii job runMethod out ∧ out.optTrait = some t ∧
    .fn g ∈ out.dynImpl.items ∧ Implements .ascii t runSig [w] impl ∧
    letI : FieldOffsets := .tagFirst
    ∃ m u s, invoke seven noTypes (members impl t) (object (.raw 8 8) sevenType 64 0 .empty) g
        [.atom 0] 0 = .ok (m, u) ∧
      run (step sevenType) (m, u) [.poll (), .poll ()] =
        .ok ([some (.ready 7, 1), some (.panics, 1)], s)

theorem returns_run : Returns seven runImpl [.atom 0] 0 where
  awaitFree _ _ := ⟨rfl, fun _ _ h => by cases h⟩
  returns := ⟨7, 1, rfl⟩

theorem invoke_agrees_job : TwoPolls (.sync runImpl) ∧ TwoPolls (.plain (.fn runImpl)) := by
  suffices hw : ∀ w, w = .sync runImpl ∨ w = .plain (.fn runImpl) → TwoPolls w from
    ⟨hw _ (Or.inl rfl), hw _ (Or.inr rfl)⟩
  intro w hw
  obtain ⟨out, t, g, h, ht, hn, hg, hgn⟩ := declares_job
  obtain ⟨impl, hi, hmem⟩ := implements_job hn hw
  let _ : FieldOffsets := .tagFirst
  have hf : callFut seven (members impl t) "run" [.atom 0] 0 = .ok (.running false, 0) := by
    have hl : (members impl t).lookup "run" = some (.fn runSig runImpl.block) :=
      lookup_impl hi (List.mem_filterMap.mpr ⟨_, hmem, rfl⟩)
    simp only [callFut, hl]
    rfl
  have hr : ∀ m, Marked [w] "run" m → Returns seven m [.atom 0] 0 := by
    rintro m ⟨hm, -⟩
    obtain rfl := List.mem_singleton.mp hm
    rcases hw with hw | hw
    · exact Written.sync.inj hw ▸ returns_run
    · cases hw
  have hargs : Pat.bindArgs noTypes (params runMethod.sig) [.atom 0] = some [("self", .atom 0)] :=
    rfl
  have ho : (∀ m, ¬ Marked [w] "run" m) → sevenType.IsA (.running false) ∧
      ∃ obj, object (.raw 8 8) sevenType 64 0 .empty (.running false) = .ok obj :=
    fun _ => ⟨trivial, _, rfl⟩
  obtain ⟨m, u, hinv, hrun⟩ := invoke_agrees h h ht rfl hi hg hgn hargs
    (by simp [FromCallers, Val.FromCaller]) (by simp [params, runMethod, runSig, argPat, IsIdent])
    hf hr ho
  obtain ⟨s, hs⟩ := hrun _ (along_polls (m, u) [(), ()])
  exact ⟨out, t, g, impl, h, ht, hg, hi, m, u, s, hinv, hs⟩

end DynUtils.Macros.SyncPath
