import DynUtils.Macros.DynObject

/-! Several attributes `#[dyn_object(..)]` on one trait. -/
namespace DynUtils.Macros.Stacked

open Syn Machine

/-- The predicate and the attributes of `cfg_attr(..)`. -/
def cfgAttr : Meta → Option (Meta × List Meta)
  | .list ["cfg_attr"] (predicate :: attrs) => some (predicate, attrs)
  | _ => none

def isCfgAttr (m : Meta) : Bool := (cfgAttr m).isSome

def isDynObject (m : Meta) : Bool := (metaLastSegment m "dyn_object").isSome

/-- The arguments that an attribute gives to the macro. -/
def readOpts : Meta → Except Error DynObjectOps
  | .path _ => DynObjectOps.parse {} []
  | .list _ args => DynObjectOps.parse {} args
  | .nameValue _ _ => .error .parse

/-- The declaration, as long as there is one, and what has been written besides. -/
structure Program where
  item : Option ItemTrait
  outputs : List DynObjectOutput := []

/-- The outermost attribute that satisfies `p`, with those around it. -/
def outermost (p : Meta → Bool) :
    List Attribute → Option (List Attribute × Meta × List Attribute)
  | [] => none
  | attr :: attrs =>
    if p attr.content then some ([], attr.content, attrs)
    else (outermost p attrs).map fun (passed, m, rest) => (attr :: passed, m, rest)

/-- The compiler resolves every `cfg_attr` of an item before it calls the first macro. -/
def nextAttr (attrs : List Attribute) : Option (List Attribute × Meta × List Attribute) :=
  (outermost isCfgAttr attrs).or (outermost isDynObject attrs)

section
variable (cfg : Meta → Bool)

/-- The compiler takes the attribute off. It puts those of a `cfg_attr` in its place, or hands the
trait with all its other attributes to the macro. -/
def expandNext (p : Program) : Except Error (Option Program) :=
  match p.item with
  | none => .ok none
  | some trait =>
    match nextAttr trait.attrs with
    | none => .ok none
    | some (passed, m, rest) =>
      match cfgAttr m with
      | some (predicate, attrs) =>
        let attrs := if cfg predicate then attrs.map Attribute.mk else []
        .ok (some { p with item := some { trait with attrs := passed ++ attrs ++ rest } })
      | none => do
        let opts ← readOpts m
        let out ← dynObjectImpl { trait with attrs := passed ++ rest } opts
        return some { item := out.optTrait, outputs := p.outputs ++ [out] }

/-- What remains once nothing is to be expanded any more. -/
def Expands (trait : ItemTrait) (p : Program) : Prop :=
  Completes (expandNext cfg) { item := some trait } p

mutual

def resolveIn : Meta → List Meta
  | .list ["cfg_attr"] (predicate :: attrs) => if cfg predicate then resolve attrs else []
  | m => [m]

/-- The attributes of the enabled `cfg_attr`s, in their place. -/
def resolve : List Meta → List Meta
  | [] => []
  | m :: ms => resolveIn m ++ resolve ms

end

/-- The attributes for `dyn_object` that are enabled. -/
def enabled (attrs : List Meta) : List Meta := (resolve cfg attrs).filter isDynObject

/-- The macro takes the items, and the arguments that each of the attributes has. Either all of
them have `remote` or none. -/
structure Accepted (trait : ItemTrait) (remote : Bool) : Prop where
  items : ∀ item ∈ trait.items, DynObject.Supported item
  opts : ∀ m ∈ enabled cfg (trait.attrs.map (·.content)),
    ∃ opts, readOpts m = .ok opts ∧ opts.remote.isSome = remote
  nonempty : enabled cfg (trait.attrs.map (·.content)) ≠ []

end

/-- The vtable and the impls are those that the attribute gives where there is no other. -/
def Implements (trait : ItemTrait) (m : Meta) (out : DynObjectOutput) : Prop :=
  ∃ opts alone, readOpts m = .ok opts ∧
    dynObjectImpl { trait with attrs := [] } opts = .ok alone ∧
      out = { alone with optTrait := out.optTrait }

/-- One vtable and one impl for each of the attributes, and the declaration unless it is for a
remote trait. -/
structure Expanded (trait : ItemTrait) (remote : Bool) (attrs : List Meta) (p : Program) :
    Prop where
  outputs : List.Forall₂ (Implements trait) attrs p.outputs
  item : p.item.map (fun t => { t with attrs := [] }) =
    if remote then none else some { trait with attrs := [] }

variable {cfg : Meta → Bool} {m predicate : Meta} {attrs l : List Meta}

theorem cfgAttr_eq_some : cfgAttr m = some (predicate, attrs) ↔
    m = .list ["cfg_attr"] (predicate :: attrs) := by
  constructor
  · intro h
    unfold cfgAttr at h
    split at h
    · obtain ⟨rfl, rfl⟩ := Prod.mk.inj (Option.some.inj h)
      rfl
    · cases h
  · rintro rfl
    rfl

theorem isCfgAttr_eq_false : isCfgAttr m = false ↔ cfgAttr m = none := by
  rw [isCfgAttr, Option.isSome_eq_false_iff, Option.isNone_iff_eq_none]

theorem cfgAttr_of_isDynObject (h : isDynObject m = true) : cfgAttr m = none := by
  cases hc : cfgAttr m with
  | none => rfl
  | some p =>
    obtain rfl := cfgAttr_eq_some.mp hc
    cases h

theorem resolveIn_of_some (h : cfgAttr m = some (predicate, attrs)) :
    resolveIn cfg m = if cfg predicate then resolve cfg attrs else [] := by
  rw [cfgAttr_eq_some.mp h, resolveIn]

theorem resolveIn_of_none (h : cfgAttr m = none) : resolveIn cfg m = [m] := by
  rw [resolveIn]
  rintro predicate attrs rfl
  cases h

theorem resolve_append (l l' : List Meta) :
    resolve cfg (l ++ l') = resolve cfg l ++ resolve cfg l' := by
  induction l with
  | nil => rfl
  | cons m l ih => rw [List.cons_append, resolve, resolve, ih, List.append_assoc]

theorem enabled_append (l l' : List Meta) :
    enabled cfg (l ++ l') = enabled cfg l ++ enabled cfg l' := by
  rw [enabled, resolve_append, List.filter_append]
  rfl

mutual

/-- The number of attributes, on all levels. -/
def weight : Meta → ℕ
  | .list _ nested => 1 + weights nested
  | .path _ | .nameValue _ _ => 1

def weights : List Meta → ℕ
  | [] => 0
  | m :: ms => weight m + weights ms

end

theorem weights_append (l l' : List Meta) : weights (l ++ l') = weights l + weights l' := by
  induction l with
  | nil => simp [weights]
  | cons m l ih => rw [List.cons_append, weights, weights, ih, Nat.add_assoc]

theorem weight_pos (m : Meta) : 0 < weight m := by
  cases m with
  | list path nested => exact Nat.lt_add_right _ Nat.one_pos
  | path path => exact Nat.one_pos
  | nameValue path value => exact Nat.one_pos

/-- The induction along the resolution: each step leaves fewer attributes, on all levels. -/
theorem resolve_induction {motive : List Meta → Prop} (nil : motive [])
    (plain : ∀ m l, cfgAttr m = none → motive l → motive (m :: l))
    (conditional : ∀ m l predicate attrs, cfgAttr m = some (predicate, attrs) →
      motive attrs → motive l → motive (attrs ++ l) → motive (m :: l))
    (l : List Meta) : motive l := by
  induction hw : weights l using Nat.strongRecOn generalizing l with
  | ind w ih =>
    subst hw
    cases l with
    | nil => exact nil
    | cons m l =>
      have hl : motive l := ih _ (Nat.lt_add_of_pos_left (weight_pos m)) l rfl
      cases hc : cfgAttr m with
      | none => exact plain m l hc hl
      | some p =>
        have hm : weight m = 1 + (weight p.1 + weights p.2) := by
          rw [cfgAttr_eq_some.mp hc, weight, weights]
        refine conditional m l p.1 p.2 hc (ih _ ?_ _ rfl) hl (ih _ ?_ _ rfl)
        · rw [weights]
          omega
        · rw [weights, weights_append]
          omega

theorem resolve_plain (cfg : Meta → Bool) (l : List Meta) :
    ∀ m ∈ resolve cfg l, cfgAttr m = none := by
  induction l using resolve_induction with
  | nil => exact List.forall_mem_nil _
  | plain m l hc ih =>
    rw [resolve, resolveIn_of_none hc]
    exact List.forall_mem_cons.mpr ⟨hc, ih⟩
  | conditional m l predicate attrs hc ihattrs ih _ =>
    rw [resolve, resolveIn_of_some hc]
    cases cfg predicate with
    | false => exact ih
    | true => exact List.forall_mem_append.mpr ⟨ihattrs, ih⟩

/-! Single steps. -/

variable {trait : ItemTrait} {passed rest : List Attribute} {outputs : List DynObjectOutput}
  {p : Meta → Bool}

theorem outermost_eq_none (h : ∀ attr ∈ passed, p attr.content = false) :
    outermost p passed = none := by
  induction passed with
  | nil => rfl
  | cons attr passed ih =>
    obtain ⟨ha, h⟩ := List.forall_mem_cons.mp h
    simp [outermost, ha, ih h]

theorem outermost_append (h : ∀ attr ∈ passed, p attr.content = false) (hm : p m = true) :
    outermost p (passed ++ ⟨m⟩ :: rest) = some (passed, m, rest) := by
  induction passed with
  | nil => exact if_pos hm
  | cons attr passed ih =>
    obtain ⟨ha, h⟩ := List.forall_mem_cons.mp h
    simp [outermost, ha, ih h]

/-- None of the attributes is a `cfg_attr`. -/
def Plain (attrs : List Attribute) : Prop := ∀ attr ∈ attrs, isCfgAttr attr.content = false

/-- The compiler leaves the attributes alone. -/
def Inert (attrs : List Attribute) : Prop := ∀ attr ∈ attrs, isDynObject attr.content = false

theorem expandNext_inert (hp : Plain passed) (hi : Inert passed) :
    expandNext cfg ⟨some { trait with attrs := passed }, outputs⟩ = .ok none := by
  have hnext : nextAttr passed = none := by
    rw [nextAttr, outermost_eq_none hp, outermost_eq_none hi]
    rfl
  simp only [expandNext, hnext]

theorem expandNext_cfgAttr (cfg : Meta → Bool) (trait : ItemTrait) (rest : List Attribute)
    (outputs : List DynObjectOutput) (hp : Plain passed)
    (hc : cfgAttr m = some (predicate, attrs)) :
    expandNext cfg ⟨some { trait with attrs := passed ++ ⟨m⟩ :: rest }, outputs⟩ =
      .ok (some ⟨some { trait with attrs := passed ++
        (if cfg predicate then attrs.map Attribute.mk else []) ++ rest }, outputs⟩) := by
  have hm : isCfgAttr m = true := by rw [isCfgAttr, hc]; rfl
  have hnext : nextAttr (passed ++ ⟨m⟩ :: rest) = some (passed, m, rest) := by
    rw [nextAttr, outermost_append hp hm]
    rfl
  simp only [expandNext, hnext, hc]

/-- What the macro writes depends on the other attributes in the declaration only. -/
theorem dynObjectImpl_attrs {opts : DynObjectOps} (hopts : readOpts m = .ok opts)
    (hitems : ∀ item ∈ trait.items, DynObject.Supported item) (attrs : List Attribute) :
    ∃ out, dynObjectImpl { trait with attrs } opts = .ok out ∧ Implements trait m out ∧
      out.optTrait = if opts.remote.isNone || attrs.any (isDynObject ·.content)
        then some { trait with attrs } else none := by
  have hread : ∀ attrs, readDynObject { trait with attrs } opts = .ok _ := fun attrs =>
    DynObject.foldlM_parseItem_ok.mpr ⟨hitems, rfl⟩
  exact ⟨_, Machine.bind_ok.mpr ⟨_, hread attrs, rfl⟩,
    ⟨opts, _, hopts, Machine.bind_ok.mpr ⟨_, hread [], rfl⟩, rfl⟩, rfl⟩

/-- The declaration is kept if there is no `remote`, or if another attribute is there to see. -/
theorem expandNext_dynObject (cfg : Meta → Bool) (outputs : List DynObjectOutput)
    (hp : Plain (passed ++ ⟨m⟩ :: rest)) (hi : Inert passed) (hm : isDynObject m = true)
    (hitems : ∀ item ∈ trait.items, DynObject.Supported item) {opts : DynObjectOps}
    (hopts : readOpts m = .ok opts) : ∃ out, Implements trait m out ∧
      expandNext cfg ⟨some { trait with attrs := passed ++ ⟨m⟩ :: rest }, outputs⟩ =
        .ok (some ⟨if opts.remote.isNone || rest.any (isDynObject ·.content)
          then some { trait with attrs := passed ++ rest } else none, outputs ++ [out]⟩) := by
  obtain ⟨out, hout, himpl, htrait⟩ := dynObjectImpl_attrs hopts hitems (passed ++ rest)
  have hnext : nextAttr (passed ++ ⟨m⟩ :: rest) = some (passed, m, rest) := by
    rw [nextAttr, outermost_eq_none hp, outermost_append hi hm]
    rfl
  have hpassed : passed.any (isDynObject ·.content) = false :=
    List.any_eq_false.mpr fun attr ha => by simp [hi attr ha]
  rw [List.any_append, hpassed, Bool.false_or] at htrait
  refine ⟨out, himpl, ?_⟩
  simp only [expandNext, hnext, cfgAttr_of_isDynObject hm]
  refine Machine.bind_ok.mpr ⟨opts, hopts, Machine.bind_ok.mpr ⟨out, hout, ?_⟩⟩
  rw [htrait]
  rfl

/-! All steps. -/

/-- The declaration with these attributes has the same expansion as with the resolved ones. -/
theorem completes_resolve {q : Program} {l : List Meta} (hp : Plain passed)
    (h : Completes (expandNext cfg)
      ⟨some { trait with attrs := passed ++ (resolve cfg l).map Attribute.mk }, outputs⟩ q) :
    Completes (expandNext cfg)
      ⟨some { trait with attrs := passed ++ l.map Attribute.mk }, outputs⟩ q := by
  induction l using resolve_induction generalizing passed with
  | nil => exact h
  | plain m l hc ih =>
    have hp' : Plain (passed ++ [⟨m⟩]) :=
      List.forall_mem_append.mpr ⟨hp, List.forall_mem_singleton.mpr (isCfgAttr_eq_false.mpr hc)⟩
    rw [resolve, resolveIn_of_none hc] at h
    simpa using ih hp' (by simpa using h)
  | conditional m l predicate attrs hc _ ih ihattrs =>
    refine .step (expandNext_cfgAttr cfg trait (l.map Attribute.mk) outputs hp hc) ?_
    rw [resolve, resolveIn_of_some hc] at h
    cases hcfg : cfg predicate with
    | false =>
      rw [hcfg] at h
      simpa using ih hp h
    | true =>
      rw [hcfg, if_pos rfl, ← resolve_append] at h
      simpa using ihattrs hp h

variable (cfg passed outputs) in
/-- Each expansion sees the attributes that are left, and keeps the declaration for them. -/
theorem expanded_plain {remote : Bool} (hitems : ∀ item ∈ trait.items, DynObject.Supported item)
    (hl : ∀ m ∈ l, cfgAttr m = none) (hp : Plain passed) (hi : Inert passed)
    (hopts : ∀ m ∈ l.filter isDynObject,
      ∃ opts, readOpts m = .ok opts ∧ opts.remote.isSome = remote)
    (hne : remote = true → l.filter isDynObject ≠ []) :
    ∃ item outs, Expanded trait remote (l.filter isDynObject) ⟨item, outs⟩ ∧
      Completes (expandNext cfg)
        ⟨some { trait with attrs := passed ++ l.map Attribute.mk }, outputs⟩
        ⟨item, outputs ++ outs⟩ := by
  induction l generalizing passed outputs with
  | nil =>
    obtain rfl : remote = false := by simpa using hne
    refine ⟨some { trait with attrs := passed }, [], ⟨.nil, rfl⟩, ?_⟩
    rw [List.map_nil, List.append_nil, List.append_nil]
    exact .done (expandNext_inert hp hi)
  | cons m l ih =>
    obtain ⟨hc, hl⟩ := List.forall_mem_cons.mp hl
    have hm : isCfgAttr m = false := isCfgAttr_eq_false.mpr hc
    cases hd : isDynObject m with
    | false =>
      rw [List.filter_cons_of_neg (by simp [hd])] at hopts hne ⊢
      obtain ⟨item, outs, hout, hrun⟩ := ih (passed ++ [⟨m⟩]) outputs hl
        (List.forall_mem_append.mpr ⟨hp, List.forall_mem_singleton.mpr hm⟩)
        (List.forall_mem_append.mpr ⟨hi, List.forall_mem_singleton.mpr hd⟩) hopts hne
      exact ⟨item, outs, hout, by simpa using hrun⟩
    | true =>
      rw [List.filter_cons_of_pos hd] at hopts ⊢
      obtain ⟨⟨opts, ho, hr⟩, hopts⟩ := List.forall_mem_cons.mp hopts
      have hplain : Plain (passed ++ ⟨m⟩ :: l.map Attribute.mk) := by
        refine List.forall_mem_append.mpr ⟨hp, List.forall_mem_cons.mpr ⟨hm, ?_⟩⟩
        intro attr ha
        obtain ⟨m', hm', rfl⟩ := List.mem_map.mp ha
        exact isCfgAttr_eq_false.mpr (hl m' hm')
      obtain ⟨out, himpl, hstep⟩ := expandNext_dynObject cfg outputs hplain hi hd hitems ho
      have hany : (l.map Attribute.mk).any (isDynObject ·.content) =
          !(l.filter isDynObject).isEmpty := by
        rw [List.any_map, Bool.eq_iff_iff]
        simp [Function.comp_def, List.filter_eq_nil_iff]
      have hnone : opts.remote.isNone = !remote := by rw [← hr, Option.not_isSome]
      rw [hany, hnone] at hstep
      by_cases hlast : remote = true ∧ l.filter isDynObject = []
      · -- The last of the attributes takes the declaration of a remote trait with it.
        obtain ⟨rfl, hnil⟩ := hlast
        rw [hnil] at hstep ⊢
        exact ⟨none, [out], ⟨.cons himpl .nil, rfl⟩, .step hstep (.done rfl)⟩
      · have hseen : (!remote || !(l.filter isDynObject).isEmpty) = true := by
          cases remote <;> simp_all
        rw [hseen, if_pos rfl] at hstep
        obtain ⟨item, outs, hout, hrun⟩ := ih passed (outputs ++ [out]) hl hp hi hopts
          fun hremote hnil => hlast ⟨hremote, hnil⟩
        refine ⟨item, out :: outs, ⟨hout.outputs.cons himpl, hout.item⟩, .step hstep ?_⟩
        simpa using hrun

/-- The expansion of a trait that has these attributes, of which those for `dyn_object` are
`enabled`. -/
theorem expands_enabled {remote : Bool}
    (hitems : ∀ item ∈ trait.items, DynObject.Supported item)
    (hopts : ∀ m ∈ enabled cfg (trait.attrs.map (·.content)),
      ∃ opts, readOpts m = .ok opts ∧ opts.remote.isSome = remote)
    (hne : remote = true → enabled cfg (trait.attrs.map (·.content)) ≠ []) :
    ∃ p, Expands cfg trait p ∧
      Expanded trait remote (enabled cfg (trait.attrs.map (·.content))) p := by
  have hattrs : (trait.attrs.map (·.content)).map Attribute.mk = trait.attrs := by
    rw [List.map_map]
    exact List.map_id _
  have hplain := resolve_plain cfg (trait.attrs.map (·.content))
  obtain ⟨item, outs, hout, hrun⟩ := expanded_plain cfg [] [] hitems hplain
    (List.forall_mem_nil _) (List.forall_mem_nil _) hopts hne
  have hstart := completes_resolve (List.forall_mem_nil _) hrun
  rw [hattrs] at hstart
  exact ⟨⟨item, outs⟩, hstart, hout⟩

/-- `trait Callback { fn call(&self); }` with these attributes. -/
def callback (attrs : List Meta) : ItemTrait where
  attrs := attrs.map Attribute.mk
  unsafety := false
  ident := "Callback"
  generics := ⟨[], none⟩
  colon := false
  supertraits := []
  items := [.fn {
    attrs := []
    sig := {
      asyncness := false
      unsafety := false
      ident := "call"
      generics := ⟨[], none⟩
      inputs := [.receiver ⟨some none, false, false, .reference none false (.ofIdent "Self")⟩]
      output := .default }
    default := none }]

/-- `dyn_utils::dyn_object(..)` -/
def dynObject (args : List Meta) : Meta := .list ["dyn_utils", "dyn_object"] args

/-- `remote = other::Callback` -/
def argRemote : Meta := .nameValue ["remote"] (.path (.ofIdents false ["other", "Callback"]))

/-- `bounds = Send` -/
def argSend : Meta := .nameValue ["bounds"] (.path (.ofIdents false ["Send"]))

/-- `cfg_attr(all(), ..)` -/
def cfgAll (attrs : List Meta) : Meta := .list ["cfg_attr"] (.list ["all"] [] :: attrs)

theorem supported_callback (attrs : List Meta) :
    ∀ item ∈ (callback attrs).items, DynObject.Supported item :=
  List.forall_mem_singleton.mpr rfl

end DynUtils.Macros.Stacked
