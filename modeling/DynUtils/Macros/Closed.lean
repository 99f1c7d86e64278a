import DynUtils.Macros.Conditional
import DynUtils.Macros.Naming

/-! What the blanket impl names through `__Dyn`, and where it is declared. -/
namespace DynUtils.Macros.Closed

open Syn Conditional Naming

/-- The `name` of `__Dyn::name`. -/
def dynMember : Path → List Ident
  | ⟨false, [.mk "__Dyn" .none, .mk name _]⟩ => [name]
  | _ => []

mutual

/-- The functions that an expression calls through `__Dyn`, and the constants that it reads. -/
def exprNames : Expr → List Key
  | .path path => (dynMember path).map .const
  | .turbofish path _ => (dynMember path).map .fn
  | .call (.path path) args => (dynMember path).map .fn ++ exprsNames args
  | .call func args => exprNames func ++ exprsNames args
  | .methodCall receiver _ args => exprNames receiver ++ exprsNames args
  | .field base _ => exprNames base
  | .closure inputs body => exprsNames inputs ++ exprNames body
  | .unsafeBlock value => exprNames value
  | .ifElse cond thenBranch elseBranch =>
    exprNames cond ++ exprNames thenBranch ++ exprNames elseBranch
  | .mac _ | .pat _ | .lit _ | .verbatim _ => []

def exprsNames : List Expr → List Key
  | [] => []
  | e :: es => exprNames e ++ exprsNames es

end

/-- The `name` of `<__Dyn as path>::name`. -/
def typeNames : Ty → List Key
  | .qpath (.path false [.mk "__Dyn" .none]) position _ segments =>
    (segments[position]?).toList.map (.type ·.ident)
  | _ => []

/-- The signatures are those of the generated trait, which has no `__Dyn`. -/
def implNames : ImplItem → List Key
  | .fn item => exprsNames item.block.stmts ++ exprNames item.block.value
  | .type _ ty => typeNames ty
  | .const _ ty expr => typeNames ty ++ exprNames expr

/-- The items of the trait that bounds `__Dyn`: of the pasted declaration, or of the one that is
emitted. -/
def boundItems (trait : ItemTrait) (opts : DynTraitOpts) (out : DynTraitOutput) : List TraitItem :=
  match opts.remote with
  | some _ => trait.items
  | none => out.optTrait.toList.flatMap (·.items)

/-- The bound on `__Dyn` has whatever the impl names through it. -/
def ImplClosed (trait : ItemTrait) (opts : DynTraitOpts) (out : DynTraitOutput) : Prop :=
  ∀ item ∈ out.dynImpl.items, ∀ n ∈ implNames item, n ∈ (boundItems trait opts out).map traitKey

/-- The hidden items of a method under `maybe_sync`. -/
def hidden (casing : Casing) (method : TraitItemFn) : List Key :=
  [.fn (syncFn method.sig), .const (isSyncConst casing method.sig)]

/-- What the impl names for an item of the trait. -/
def uses (casing : Casing) : TraitItem → List Key
  | .type ty => if isNotGeneric ty then [.type ty.ident] else []
  | .fn method =>
    if isDispatchable method then
      .fn method.sig.ident :: if isMaybeSync method then hidden casing method else []
    else []
  | .const _ | .other _ _ => []

variable {casing : Casing} {crate : Path}

theorem exprsNames_fnArgs (sig : Signature) : exprsNames (fnArgs sig) = [] := by
  unfold fnArgs
  induction sig.inputs with
  | nil => rfl
  | cons arg args ih => cases arg <;> exact ih

theorem dynMember_join {a b : Ident} (ha : a ≠ "__Dyn") : dynMember (crate.join [a, b]) = [] := by
  obtain ⟨leading, segments⟩ := crate
  match segments with
  | [] => cases leading <;> simp [Path.join, PathSegment.plain, dynMember, ha]
  | [s] => simp [Path.join, dynMember]
  | s :: t :: ss => simp [Path.join, dynMember]

/-- A call of a method of `__Dyn` names that method only. -/
theorem exprNames_dynPath (name : Ident) (sig : Signature) :
    exprNames (.call (DynMethod.dynPath name) (fnArgs sig)) = [.fn name] :=
  (congrArg (Key.fn name :: ·) (exprsNames_fnArgs sig) :)

theorem exprNames_dynObjectNew (e : Expr) :
    exprNames (DynMethod.dynObjectNew crate e) = exprNames e := by
  simp [DynMethod.dynObjectNew, exprNames, exprsNames,
    dynMember_join (by decide : "DynObject" ≠ "__Dyn")]

theorem exprNames_ifElse (cond thenBranch elseBranch : Expr) :
    exprNames (.ifElse cond thenBranch elseBranch) =
      exprNames cond ++ exprNames thenBranch ++ exprNames elseBranch := rfl

theorem typeNames_dynType (remote : Path) (name : Ident) :
    typeNames (DynTrait.dynType remote name) = [.type name] := by
  simp [DynTrait.dynType, typeNames, Ty.ofIdent, PathSegment.plain, PathSegment.ident]

theorem implNames_implMethod (method : DynMethod) :
    implNames (.fn method.implMethod) = [.fn method.origSig.ident] := by
  simp only [implNames, DynMethod.implMethod, implMethod, exprsNames, List.nil_append]
  split
  · rw [exprNames_dynObjectNew, exprNames_dynPath]
  · exact exprNames_dynPath ..

/-- The constant, and both of the methods that it chooses between. -/
theorem implNames_maybeSyncImpl {method : DynMethod} {f : ImplItemFn}
    (h : method.maybeSyncImpl casing = .ok f) :
    implNames (.fn f) = [.const (isSyncConst casing method.origSig), .fn (syncFn method.origSig),
      .fn method.origSig.ident] := by
  obtain ⟨-, -, hblock⟩ := DynMethod.maybeSyncImpl_ok h
  have hvariant : ∀ (v : Ident) (e : Expr),
      exprNames (.call (.path (method.crate.join ["MaybeSync", v])) [e]) = exprNames e :=
    fun v e => by
      simp [exprNames, exprsNames, dynMember_join (by decide : "MaybeSync" ≠ "__Dyn")]
  simp only [implNames, hblock, exprsNames, List.nil_append]
  rw [exprNames_ifElse, hvariant, hvariant, exprNames_dynObjectNew, exprNames_dynPath,
    exprNames_dynPath]
  rfl

theorem uses_eq_nil {item : TraitItem} (ht : ∀ ty, item = .type ty → isNotGeneric ty = false)
    (hf : ∀ method, item = .fn method → isDispatchable method = false) :
    uses casing item = [] := by
  cases item with
  | type ty => simp [uses, ht ty rfl]
  | fn method => simp [uses, hf method rfl]
  | const item => rfl
  | other attrs tokens => rfl

/-- What an item gives to the impl and to the source trait, by name. -/
theorem convertItem_uses {base : DynTrait} {item : TraitItem} {o : ItemOutput}
    (h : base.convertItem casing item = .ok o) :
    (∀ n, n ∈ o.implItems.flatMap implNames ↔ n ∈ uses casing item) ∧
      traitKey o.item = traitKey item ∧ o.additionalTraitItems.map traitKey =
        ((itemFn item).toList.filter isMaybeSync).flatMap (hidden casing) := by
  rcases DynTrait.convertItem_cases h with ⟨ty, rfl, hn, rfl⟩ | ⟨method, rfl, hd, h⟩ | ⟨ht, hf, rfl⟩
  · simp [implNames, typeNames_dynType, uses, hn, itemFn]
  · obtain ⟨attrs, method', hp, hcase⟩ := DynTrait.convertMethod_ok h
    have hsig : method'.sig = method.sig := MethodAttrs.parse_sig hp
    have horig : (base.dynMethod casing method').origSig = method.sig := hsig
    have hkey : traitKey (.fn method') = traitKey (.fn method) := by
      rw [traitKey, traitKey, hsig]
    rcases hcase with ⟨hs, rfl⟩ | ⟨hs, f, c, i, _, hf, hc, hi, -, rfl⟩
    · have hsync : attrs.maybeSync = true →
          ∃ f, (base.dynMethod casing method').syncMethod = .ok f := by simp [hs]
      have hm : isMaybeSync method = false := (isMaybeSync_eq hd hp hsync).trans hs
      simp [implNames_implMethod, horig, uses, hd, hm, itemFn, hkey]
    · have hm : isMaybeSync method = true := (isMaybeSync_eq hd hp fun _ => ⟨f, hf⟩).trans hs
      obtain ⟨-, -, -, -, rfl⟩ := DynMethod.syncMethod_ok hf
      obtain ⟨-, rfl⟩ := DynMethod.isSyncConst_ok hc
      refine ⟨?_, hkey, ?_⟩
      · intro n
        simp only [List.flatMap_cons, List.flatMap_nil, List.append_nil,
          implNames_maybeSyncImpl hi, horig, uses, hd, hm, hidden, if_true, List.mem_cons,
          List.not_mem_nil, or_false]
        tauto
      · simp [itemFn, hm, hidden, traitKey, horig]
  · rw [uses_eq_nil ht hf, (filter_itemFn_eq_nil hf).2]
    exact ⟨fun n => Iff.rfl, rfl, rfl⟩

theorem mem_maybeSync {trait : ItemTrait} {method : TraitItemFn} :
    method ∈ maybeSync trait ↔ .fn method ∈ trait.items ∧ isMaybeSync method = true := by
  rw [maybeSync, List.mem_filter, List.mem_filterMap]
  refine and_congr_left fun _ => ⟨?_, fun h => ⟨_, h, rfl⟩⟩
  rintro ⟨item, hi, hm⟩
  cases item with
  | fn m => exact Option.some.inj hm ▸ hi
  | type ty => cases hm
  | const item => cases hm
  | other attrs tokens => cases hm

/-- An item uses its own name, and the hidden ones under `maybe_sync`. -/
theorem mem_uses {item : TraitItem} {n : Key} (h : n ∈ uses casing item) :
    n = traitKey item ∨ ∃ m, item = .fn m ∧ isMaybeSync m = true ∧ n ∈ hidden casing m := by
  cases item with
  | type ty =>
    simp only [uses] at h
    split at h
    · exact Or.inl (List.mem_singleton.mp h)
    · cases h
  | const item => cases h
  | other attrs tokens => cases h
  | fn method =>
    simp only [uses] at h
    split at h
    · rcases List.mem_cons.mp h with h | h
      · exact Or.inl h
      · split at h
        · rename_i hm
          exact Or.inr ⟨method, rfl, hm, h⟩
        · cases h
    · cases h

theorem hidden_subset_uses {method : TraitItemFn} (hm : isMaybeSync method = true) :
    hidden casing method ⊆ uses casing (.fn method) := by
  have hd : isDispatchable method = true := by
    simp only [isMaybeSync, Bool.and_eq_true] at hm
    exact hm.1.1
  intro n hn
  simp only [uses, hd, hm, if_true]
  exact List.mem_cons_of_mem _ hn

section
variable {trait : ItemTrait} {opts : DynTraitOpts} {out : DynTraitOutput}
  (h : dynTraitImpl casing trait opts = .ok out)

include h

/-- The impl is closed if the bound has what each of the items uses. -/
theorem implClosed_iff_uses : ImplClosed trait opts out ↔
    ∀ item ∈ trait.items, ∀ n ∈ uses casing item,
      n ∈ (boundItems trait opts out).map traitKey := by
  obtain ⟨outs, ho, -, hi, -⟩ := dynTraitImpl_ok h
  have hnames : ∀ n, (∃ i ∈ out.dynImpl.items, n ∈ implNames i) ↔
      ∃ item ∈ trait.items, n ∈ uses casing item := by
    intro n
    rw [hi]
    constructor
    · rintro ⟨i, him, hn⟩
      obtain ⟨o, hmem, him⟩ := List.mem_flatMap.mp him
      obtain ⟨item, hitem, hc⟩ := Machine.exists_left_of_forall₂ ho hmem
      exact ⟨item, hitem, ((convertItem_uses hc).1 n).mp (List.mem_flatMap.mpr ⟨i, him, hn⟩)⟩
    · rintro ⟨item, hitem, hn⟩
      obtain ⟨o, hmem, hc⟩ := Machine.exists_right_of_forall₂ ho hitem
      obtain ⟨i, him, hn⟩ := List.mem_flatMap.mp (((convertItem_uses hc).1 n).mpr hn)
      exact ⟨i, List.mem_flatMap.mpr ⟨o, hmem, him⟩, hn⟩
  constructor
  · intro hc item hitem n hn
    obtain ⟨i, him, hn⟩ := (hnames n).mpr ⟨item, hitem, hn⟩
    exact hc i him n hn
  · intro hc i him n hn
    obtain ⟨item, hitem, hn⟩ := (hnames n).mp ⟨i, him, hn⟩
    exact hc item hitem n hn

/-- The emitted trait has the pasted items and the hidden ones. -/
theorem boundItems_emitted (hr : opts.remote = none) : (boundItems trait opts out).map traitKey =
    trait.items.map traitKey ++ (maybeSync trait).flatMap (hidden casing) := by
  obtain ⟨outs, _, _, ho, rfl⟩ := dynTraitImpl_eq h
  have hitems : (outs.map (·.item)).map traitKey = trait.items.map traitKey := by
    rw [List.map_map, List.map_eq_flatMap, List.map_eq_flatMap]
    exact Machine.flatMap_of_forall₂ ho fun _ _ hc =>
      congrArg (fun n => [n]) (convertItem_uses hc).2.1
  have hadditional : (outs.flatMap (·.additionalTraitItems)).map traitKey =
      (maybeSync trait).flatMap (hidden casing) := by
    rw [List.map_flatMap, maybeSync, List.filterMap_eq_flatMap_toList, List.filter_flatMap,
      List.flatMap_assoc]
    exact Machine.flatMap_of_forall₂ ho fun _ _ hc => (convertItem_uses hc).2.2
  simp [boundItems, hr, DynTrait.output, DynTrait.new, hitems, hadditional]

/-- The impl is closed exactly without `remote`, or if the pasted declaration has the hidden items
that `maybe_sync` asks for. -/
theorem implClosed_iff : ImplClosed trait opts out ↔ opts.remote = none ∨
    ∀ m ∈ maybeSync trait, ∀ n ∈ hidden casing m, n ∈ trait.items.map traitKey := by
  rw [implClosed_iff_uses h]
  cases hr : opts.remote with
  | none =>
    rw [boundItems_emitted h hr]
    refine iff_of_true ?_ (Or.inl rfl)
    intro item hitem n hn
    rcases mem_uses hn with rfl | ⟨m, rfl, hm, hn⟩
    · exact List.mem_append_left _ (List.mem_map_of_mem hitem)
    · exact List.mem_append_right _ (List.mem_flatMap.mpr ⟨m, mem_maybeSync.mpr ⟨hitem, hm⟩, hn⟩)
  | some remote =>
    simp only [boundItems, hr, reduceCtorEq, false_or]
    constructor
    · intro hc m hm n hn
      obtain ⟨hitem, hm⟩ := mem_maybeSync.mp hm
      exact hc _ hitem n (hidden_subset_uses hm hn)
    · intro hc item hitem n hn
      rcases mem_uses hn with rfl | ⟨m, rfl, hm, hn⟩
      · exact List.mem_map_of_mem hitem
      · exact hc m (mem_maybeSync.mpr ⟨hitem, hm⟩) n hn

end

/-- The path of a trait that is declared elsewhere. -/
def other : DynTraitOpts := { remote := some (.ofIdents false ["other", "Fetch"]) }

theorem implClosed_iff_fetch :
    (∃ out, dynTraitImpl .ascii (fetch [asyncFn [attrMaybeSync] "get"]) {} = .ok out ∧
      ImplClosed (fetch [asyncFn [attrMaybeSync] "get"]) {} out) ∧
    ∃ out, dynTraitImpl .ascii (fetch [asyncFn [] "get"]) other = .ok out ∧
      ImplClosed (fetch [asyncFn [] "get"]) other out := by
  obtain ⟨out, h⟩ : ∃ out, dynTraitImpl .ascii (fetch [asyncFn [attrMaybeSync] "get"]) {} =
    .ok out := ⟨_, rfl⟩
  obtain ⟨out', h'⟩ : ∃ out, dynTraitImpl .ascii (fetch [asyncFn [] "get"]) other = .ok out :=
    ⟨_, rfl⟩
  exact ⟨⟨out, h, (implClosed_iff h).mpr (Or.inl rfl)⟩,
    ⟨out', h', (implClosed_iff h').mpr (Or.inr (by decide))⟩⟩

/-- `__Dyn: other::Fetch`, where `other::Fetch` is pasted without `get_sync` and `GET_IS_SYNC`. -/
theorem other_not_closed :
    ∃ out, dynTraitImpl .ascii (fetch [asyncFn [attrMaybeSync] "get"]) other = .ok out ∧
      ¬ ImplClosed (fetch [asyncFn [attrMaybeSync] "get"]) other out := by
  refine ⟨_, rfl, ?_⟩
  intro h
  have hsync := h _ List.mem_cons_self (.fn "get_sync") (by decide)
  exact absurd hsync (by decide)

end DynUtils.Macros.Closed
