import DynUtils.Macros.DynTraitSpec
import Mathlib.Data.List.Nodup

/-! The names that `dyn_trait` makes from those of the methods. -/
namespace DynUtils.Macros.Naming

open Syn Names

/-- What the recasing relies on: a name in pascal case consists of the letters and digits that it
had, in upper or lower case. -/
structure Follows (casing : Casing) (chars : Chars) : Prop where
  toPascalCase : ∀ s, ∀ d ∈ (casing.toPascalCase s).toList, ∃ c ∈ s.toList,
    chars.isAlphanumeric c = true ∧ d ∈ chars.toUppercase c ++ chars.toLowercase c
  toUppercase : ∀ s, (casing.toUppercase s).toList = chars.uppercase s
  isIdent : ∀ s, casing.isIdent s = chars.isIdent s

/-- The method returns a storage after the conversion. -/
def isConverted (method : TraitItemFn) : Bool :=
  isDispatchable method && (returnImplTrait (DynMethod.convertAsync method.sig)).isSome

/-- The method is under `maybe_sync`, and returns a future. -/
def isMaybeSync (method : TraitItemFn) : Bool :=
  isDispatchable method &&
    ((returnImplTrait (DynMethod.convertAsync method.sig)).bind futureOutput).isSome &&
    match MethodAttrs.parse method with
    | .ok (attrs, _) => attrs.maybeSync
    | .error _ => false

def itemFn : TraitItem → Option TraitItemFn
  | .fn method => some method
  | _ => none

def itemName : TraitItem → Option Ident
  | .fn item => some item.sig.ident
  | .type item => some item.ident
  | .const item => some item.ident
  | .other _ _ => none

section
variable (casing : Casing) (trait : ItemTrait)

def converted : List TraitItemFn := (trait.items.filterMap itemFn).filter isConverted

def maybeSync : List TraitItemFn := (trait.items.filterMap itemFn).filter isMaybeSync

/-- `"__Storage{}"` -/
def storageName (method : TraitItemFn) : Ident :=
  "__Storage" ++ casing.toPascalCase method.sig.ident

def storages : List Ident := (converted trait).map (storageName casing)

def syncFns : List Ident := (maybeSync trait).map (syncFn ·.sig)

def isSyncConsts : List Ident := (maybeSync trait).map (isSyncConst casing ·.sig)

def derived : List Ident := storages casing trait ++ (syncFns trait ++ isSyncConsts casing trait)

/-- The names of the items and of the parameters. -/
def declared : List String :=
  (trait.items.filterMap itemName ++ trait.generics.params.filterMap (·.typeIdent)).map unraw

/-- The names are identifiers, raw ones or others, and no two items have the same. -/
structure WellNamed (chars : Chars) : Prop where
  ident : ∀ n ∈ trait.items.filterMap itemName, chars.isIdent (unraw n) = true
  distinct : ((trait.items.filterMap itemName).map unraw).Nodup

/-- The derived names are identifiers, each for one thing only. -/
structure NamesFine : Prop where
  valid : ∀ n ∈ derived casing trait, formatIdent casing n = .ok n
  distinct : (derived casing trait).Nodup
  fresh : ∀ n ∈ derived casing trait, n ∉ declared trait

/-- The names of the methods are told apart once they are recased, a method under `maybe_sync` has
no raw one, and nothing else is called after them. -/
structure Separated : Prop where
  plain : ∀ m ∈ maybeSync trait, unraw m.sig.ident = m.sig.ident
  pascal : ((converted trait).map (casing.toPascalCase ·.sig.ident)).Nodup
  upper : ((maybeSync trait).map (casing.toUppercase ·.sig.ident)).Nodup
  storage : ∀ n ∈ declared trait, ∀ m ∈ converted trait,
    n ≠ "__Storage" ++ casing.toPascalCase m.sig.ident
  sync : ∀ n ∈ declared trait, ∀ m ∈ maybeSync trait, n ≠ unraw m.sig.ident ++ "_sync"
  isSync : ∀ n ∈ declared trait, ∀ m ∈ maybeSync trait,
    n ≠ casing.toUppercase m.sig.ident ++ "_IS_SYNC"

end

/-! Raw identifiers. -/

theorem unraw_cases (n : Ident) :
    (∃ cs, n.toList = 'r' :: '#' :: cs ∧ (unraw n).toList = cs) ∨ unraw n = n := by
  unfold unraw
  split
  · rename_i cs h
    exact Or.inl ⟨cs, h, String.toList_ofList⟩
  · exact Or.inr rfl

variable {chars : Chars} {n : Ident}

/-- What is a letter or a digit in a name belongs to an identifier. -/
theorem continue_of_alphanumeric (h : chars.isIdent (unraw n) = true) {c : Char}
    (hc : c ∈ n.toList) (ha : chars.isAlphanumeric c = true) : chars.isContinue c = true := by
  rcases unraw_cases n with ⟨cs, hn, hcs⟩ | hu
  · rw [hn] at hc
    rcases List.mem_cons.mp hc with rfl | hc
    · exact chars.continue_of_ascii (by decide)
    rcases List.mem_cons.mp hc with rfl | hc
    · simp [chars.not_alphanumeric_hash] at ha
    · exact Chars.continue_of_isIdent h c (hcs ▸ hc)
  · rw [hu] at h
    exact Chars.continue_of_isIdent h c hc

/-- `#` is in a raw identifier, and in no other. -/
theorem hash_mem_iff (h : chars.isIdent (unraw n) = true) : '#' ∈ n.toList ↔ unraw n ≠ n := by
  rcases unraw_cases n with ⟨cs, hn, hcs⟩ | hu
  · apply iff_of_true (by simp [hn])
    intro hu
    have hlen := congrArg List.length (hcs.symm.trans (congrArg String.toList hu))
    rw [hn, List.length_cons, List.length_cons] at hlen
    omega
  · refine iff_of_false ?_ fun hne => hne hu
    intro hm
    rw [hu] at h
    exact absurd (Chars.continue_of_isIdent h _ hm) (by simp [chars.not_continue_hash])

/-- What is made of letters, digits and underscores in ASCII. -/
theorem continue_of_text {s : String} (h : s.toList.all Ascii.isContinue = true) :
    ∀ c ∈ s.toList, chars.isContinue c = true := by
  intro c hc
  have ha := List.all_eq_true.mp h c hc
  simp only [Ascii.isContinue, Bool.or_eq_true, beq_iff_eq] at ha
  rcases ha with ha | rfl
  · exact chars.continue_of_ascii ha
  · exact chars.continue_underscore

section
variable {casing : Casing} (hf : Follows casing chars)

include hf

/-- Words are joined without anything between them. -/
theorem mem_toPascalCase (h : chars.isIdent (unraw n) = true) {d : Char}
    (hd : d ∈ (casing.toPascalCase n).toList) : chars.isContinue d = true ∧ d ≠ '_' := by
  obtain ⟨c, hc, ha, hd⟩ := hf.toPascalCase n d hd
  have hcont := continue_of_alphanumeric h hc ha
  constructor
  · rcases List.mem_append.mp hd with hd | hd
    · exact chars.continue_uppercase hcont d hd
    · exact chars.continue_lowercase hcont d hd
  · rintro rfl
    exact chars.not_underscore ha hd

theorem isIdent_storage (h : chars.isIdent (unraw n) = true) :
    casing.isIdent ("__Storage" ++ casing.toPascalCase n) = true := by
  rw [hf.isIdent]
  refine Chars.isIdent_append ?_ fun d hd => (mem_toPascalCase hf h hd).1
  exact Chars.isIdent_iff.mpr ⟨'_', "_Storage".toList, rfl, Or.inr rfl,
    continue_of_text (by decide)⟩

theorem isIdent_syncFn {sig : Signature} (h : chars.isIdent (unraw sig.ident) = true) :
    casing.isIdent (syncFn sig) = true := by
  rw [hf.isIdent]
  exact Chars.isIdent_append h (continue_of_text (by decide))

/-- `to_uppercase` leaves the `#` of a raw identifier where it is. -/
theorem isIdent_isSyncConst {sig : Signature} (h : chars.isIdent (unraw sig.ident) = true) :
    casing.isIdent (isSyncConst casing sig) = true ↔ unraw sig.ident = sig.ident := by
  rw [hf.isIdent]
  constructor
  · intro hid
    by_contra hraw
    have hash : '#' ∈ (isSyncConst casing sig).toList := by
      rw [isSyncConst, String.toList_append, hf.toUppercase]
      refine List.mem_append_left _ (List.mem_flatMap.mpr ⟨'#', (hash_mem_iff h).mpr hraw, ?_⟩)
      simp [chars.uppercase_hash]
    have := Chars.continue_of_isIdent hid _ hash
    simp [chars.not_continue_hash] at this
  · intro hplain
    rw [hplain] at h
    exact Chars.isIdent_append (Chars.isIdent_uppercase h (hf.toUppercase _))
      (continue_of_text (by decide))

end

/-! Names of different kinds. -/

/-- After the first two characters there is no underscore in the name of a storage. -/
theorem storage_ne_append {p q s : String} (hp : '_' ∉ p.toList) (hs : s.toList.length = 4) :
    "__Storage" ++ p ≠ q ++ ("_" ++ s) := by
  intro h
  have hl : "__Storage".toList ++ p.toList = q.toList ++ '_' :: s.toList := by
    simpa [String.toList_append] using congrArg String.toList h
  have hlen := congrArg List.length hl
  simp only [List.length_append, List.length_cons] at hlen
  have hq : 2 ≤ q.toList.length := by
    have : "__Storage".toList.length = 9 := rfl
    omega
  have hmem : '_' ∈ ("__Storage".toList ++ p.toList).drop 2 := by
    rw [hl, List.drop_append_of_le_length hq]
    simp
  rw [show ("__Storage".toList ++ p.toList).drop 2 = "Storage".toList ++ p.toList from rfl] at hmem
  rcases List.mem_append.mp hmem with hmem | hmem
  · exact absurd hmem (by decide)
  · exact hp hmem

theorem sync_ne_isSync {p q : String} : p ++ "_sync" ≠ q ++ "_IS_SYNC" := by
  intro h
  have hl : p.toList ++ "_sync".toList = (q.toList ++ "_IS".toList) ++ "_SYNC".toList := by
    simpa [String.toList_append] using congrArg String.toList h
  exact absurd (List.append_inj_right' hl rfl) (by decide)

/-! The names of a whole trait. -/

variable {casing : Casing} {trait : ItemTrait}

theorem fn_names_sublist (items : List TraitItem) :
    ((items.filterMap itemFn).map (·.sig.ident)).Sublist (items.filterMap itemName) := by
  induction items with
  | nil => exact List.Sublist.refl []
  | cons item items ih =>
    cases item with
    | fn method => exact ih.cons_cons _
    | type ty => exact ih.cons _
    | const item => exact ih.cons _
    | other attrs tokens => exact ih

theorem WellNamed.method (h : WellNamed trait chars) {m : TraitItemFn}
    (hm : m ∈ trait.items.filterMap itemFn) : chars.isIdent (unraw m.sig.ident) = true :=
  h.ident _ ((fn_names_sublist trait.items).subset (List.mem_map_of_mem hm))

/-- The names of functions are as different as those of the methods. -/
theorem syncFns_nodup (h : WellNamed trait chars) : (syncFns trait).Nodup := by
  have hsub : ((maybeSync trait).map (·.sig.ident)).Sublist (trait.items.filterMap itemName) :=
    (List.filter_sublist.map _).trans (fn_names_sublist trait.items)
  have hnames := h.distinct.sublist (hsub.map unraw)
  rw [List.map_map] at hnames
  rw [syncFns, List.Nodup, List.pairwise_map]
  refine (List.pairwise_map.mp hnames).imp fun hne he => hne ?_
  have hl := congrArg String.toList he
  rw [syncFn, syncFn, String.toList_append, String.toList_append] at hl
  exact String.toList_inj.mp (List.append_cancel_right hl)

theorem fresh_iff : (∀ n ∈ derived casing trait, n ∉ declared trait) ↔
    (∀ n ∈ declared trait, ∀ m ∈ converted trait,
        n ≠ "__Storage" ++ casing.toPascalCase m.sig.ident) ∧
      (∀ n ∈ declared trait, ∀ m ∈ maybeSync trait, n ≠ unraw m.sig.ident ++ "_sync") ∧
        ∀ n ∈ declared trait, ∀ m ∈ maybeSync trait,
          n ≠ casing.toUppercase m.sig.ident ++ "_IS_SYNC" := by
  constructor
  · intro hfresh
    refine ⟨?_, ?_, ?_⟩
    · rintro n hn m hm rfl
      exact hfresh _ (List.mem_append_left _ (List.mem_map_of_mem hm)) hn
    · rintro n hn m hm rfl
      refine hfresh _ (List.mem_append_right _ (List.mem_append_left _ ?_)) hn
      exact List.mem_map.mpr ⟨m, hm, rfl⟩
    · rintro n hn m hm rfl
      refine hfresh _ (List.mem_append_right _ (List.mem_append_right _ ?_)) hn
      exact List.mem_map.mpr ⟨m, hm, rfl⟩
  · rintro ⟨hstorage, hsync, hisSync⟩ n hn hd
    rcases List.mem_append.mp hn with hn | hn
    · obtain ⟨m, hm, rfl⟩ := List.mem_map.mp hn
      exact hstorage _ hd m hm rfl
    rcases List.mem_append.mp hn with hn | hn
    · obtain ⟨m, hm, rfl⟩ := List.mem_map.mp hn
      exact hsync _ hd m hm rfl
    · obtain ⟨m, hm, rfl⟩ := List.mem_map.mp hn
      exact hisSync _ hd m hm rfl

section
variable (hf : Follows casing chars) (h : WellNamed trait chars)

include hf h

/-- Names of different kinds never meet. -/
theorem kinds_apart {a b : Ident} :
    (a ∈ storages casing trait → b ∈ syncFns trait ++ isSyncConsts casing trait → a ≠ b) ∧
      (a ∈ syncFns trait → b ∈ isSyncConsts casing trait → a ≠ b) := by
  constructor
  · intro ha hb
    obtain ⟨m, hm, rfl⟩ := List.mem_map.mp ha
    have hn := h.method (List.mem_of_mem_filter hm)
    have hp : '_' ∉ (casing.toPascalCase m.sig.ident).toList := fun hc =>
      (mem_toPascalCase hf hn hc).2 rfl
    rcases List.mem_append.mp hb with hb | hb
    · obtain ⟨m', -, rfl⟩ := List.mem_map.mp hb
      exact storage_ne_append hp (by rfl : "sync".toList.length = 4)
    · obtain ⟨m', -, rfl⟩ := List.mem_map.mp hb
      have hne := storage_ne_append (q := casing.toUppercase m'.sig.ident ++ "_IS") hp
        (by rfl : "SYNC".toList.length = 4)
      rwa [String.append_assoc] at hne
  · intro ha hb
    obtain ⟨m, -, rfl⟩ := List.mem_map.mp ha
    obtain ⟨m', -, rfl⟩ := List.mem_map.mp hb
    exact sync_ne_isSync

theorem derived_nodup_iff : (derived casing trait).Nodup ↔
    ((converted trait).map (casing.toPascalCase ·.sig.ident)).Nodup ∧
      ((maybeSync trait).map (casing.toUppercase ·.sig.ident)).Nodup := by
  have hstorage : (storages casing trait).Nodup ↔
      ((converted trait).map (casing.toPascalCase ·.sig.ident)).Nodup := by
    have hinj : Function.Injective fun s : String => "__Storage" ++ s :=
      fun _ _ => (String.append_right_inj _).mp
    rw [← List.nodup_map_iff hinj (l := (converted trait).map _), List.map_map]
    rfl
  have hconst : (isSyncConsts casing trait).Nodup ↔
      ((maybeSync trait).map (casing.toUppercase ·.sig.ident)).Nodup := by
    have hinj : Function.Injective fun s : String => s ++ "_IS_SYNC" :=
      fun _ _ => (String.append_left_inj _).mp
    rw [← List.nodup_map_iff hinj (l := (maybeSync trait).map _), List.map_map]
    rfl
  rw [derived, List.nodup_append, List.nodup_append, hstorage, hconst]
  constructor
  · rintro ⟨hp, ⟨-, hu, -⟩, -⟩
    exact ⟨hp, hu⟩
  · rintro ⟨hp, hu⟩
    exact ⟨hp, ⟨syncFns_nodup h, hu, fun a ha b hb => (kinds_apart hf h).2 ha hb⟩,
      fun a ha b hb => (kinds_apart hf h).1 ha hb⟩

/-- Only the constants can be no identifiers. -/
theorem derived_valid_iff : (∀ n ∈ derived casing trait, formatIdent casing n = .ok n) ↔
    ∀ m ∈ maybeSync trait, unraw m.sig.ident = m.sig.ident := by
  simp only [formatIdent_ok, and_true]
  constructor
  · intro hv m hm
    have hname := h.method (List.mem_of_mem_filter hm)
    refine (isIdent_isSyncConst hf hname).mp (hv _ ?_)
    exact List.mem_append_right _ (List.mem_append_right _ (List.mem_map_of_mem hm))
  · intro hplain n hn
    rcases List.mem_append.mp hn with hn | hn
    · obtain ⟨m, hm, rfl⟩ := List.mem_map.mp hn
      exact isIdent_storage hf (h.method (List.mem_of_mem_filter hm))
    rcases List.mem_append.mp hn with hn | hn
    · obtain ⟨m, hm, rfl⟩ := List.mem_map.mp hn
      exact isIdent_syncFn hf (h.method (List.mem_of_mem_filter hm))
    · obtain ⟨m, hm, rfl⟩ := List.mem_map.mp hn
      exact (isIdent_isSyncConst hf (h.method (List.mem_of_mem_filter hm))).mpr (hplain m hm)

/-- The names are fine exactly if recasing keeps those of the methods apart, no method under
`maybe_sync` has a raw one, and nothing that the trait declares is called after a method. -/
theorem namesFine_iff : NamesFine casing trait ↔ Separated casing trait := by
  constructor
  · intro hn
    obtain ⟨hp, hu⟩ := (derived_nodup_iff hf h).mp hn.distinct
    obtain ⟨hstorage, hsync, hisSync⟩ := fresh_iff.mp hn.fresh
    exact ⟨(derived_valid_iff hf h).mp hn.valid, hp, hu, hstorage, hsync, hisSync⟩
  · intro hs
    exact ⟨(derived_valid_iff hf h).mpr hs.plain,
      (derived_nodup_iff hf h).mpr ⟨hs.pascal, hs.upper⟩,
      fresh_iff.mpr ⟨hs.storage, hs.sync, hs.isSync⟩⟩

end

theorem follows_ascii : Follows .ascii Ascii.chars where
  toPascalCase s d hd := by
    obtain ⟨c, hc, ha, hd⟩ := Ascii.mem_toPascalCase hd
    exact ⟨c, hc, ha, by simpa [Ascii.chars] using hd⟩
  toUppercase s := by
    have hmap : (Ascii.toUppercase s).toList = s.toList.map Char.toUpper := String.toList_ofList
    exact hmap.trans List.map_eq_flatMap
  isIdent _ := rfl

/-- `async fn #name(&self);` with these attributes. -/
def asyncFn (attrs : List Attribute) (name : Ident) : TraitItem := .fn {
  attrs
  sig := {
    asyncness := true
    unsafety := false
    ident := name
    generics := ⟨[], none⟩
    inputs := [.receiver ⟨some none, false, false, .reference none false (.ofIdent "Self")⟩]
    output := .default }
  default := none }

/-- `trait Fetch { .. }` -/
def fetch (items : List TraitItem) : ItemTrait where
  attrs := []
  unsafety := false
  ident := "Fetch"
  generics := ⟨[], none⟩
  colon := false
  supertraits := []
  items

/-- `#[dyn_trait(maybe_sync)]` -/
def attrMaybeSync : Attribute := ⟨.list ["dyn_trait"] [.path ["maybe_sync"]]⟩

theorem namesFine_iff_fetch :
    NamesFine .ascii (fetch [asyncFn [attrMaybeSync] "get_page", asyncFn [] "r#try"]) := by
  have hnamed : WellNamed (fetch [asyncFn [attrMaybeSync] "get_page", asyncFn [] "r#try"])
      Ascii.chars := ⟨by decide, by decide⟩
  exact (namesFine_iff follows_ascii hnamed).mpr
    ⟨by decide, by decide, by decide, by decide, by decide, by decide⟩

/-- `R#TRY_IS_SYNC` is no identifier: the macro panics. And two methods ask for the same storage,
`__StorageGetPage`. -/
theorem fetch_not_fine :
    (WellNamed (fetch [asyncFn [attrMaybeSync] "r#try"]) Ascii.chars ∧
      dynTraitImpl .ascii (fetch [asyncFn [attrMaybeSync] "r#try"]) {} = .error .panic ∧
      ¬ NamesFine .ascii (fetch [asyncFn [attrMaybeSync] "r#try"])) ∧
    WellNamed (fetch [asyncFn [] "get_page", asyncFn [] "getPage"]) Ascii.chars ∧
      ¬ NamesFine .ascii (fetch [asyncFn [] "get_page", asyncFn [] "getPage"]) := by
  refine ⟨⟨⟨by decide, by decide⟩, rfl, ?_⟩, ⟨by decide, by decide⟩, ?_⟩
  · intro h
    have hv := h.valid "R#TRY_IS_SYNC" (by decide)
    exact absurd (formatIdent_ok.mp hv).1 (by decide)
  · intro h
    exact absurd h.distinct (by decide)

/-! What the macro does with the names. -/

theorem typeIdent_printed (generics : Generics) :
    generics.printed.filterMap (·.typeIdent) = generics.params.filterMap (·.typeIdent) := by
  rw [Generics.printed, List.filterMap_append, List.filterMap_filter, List.filterMap_filter]
  have hlt : (generics.params.filterMap fun p => if p.isLifetime then p.typeIdent else none) = [] :=
    List.filterMap_eq_nil_iff.mpr fun p _ => by cases p <;> simp [GenericParam.isLifetime,
      GenericParam.typeIdent]
  rw [hlt, List.nil_append]
  apply List.filterMap_congr
  intro p _
  cases p <;> simp [GenericParam.isLifetime, GenericParam.typeIdent]

theorem genericStorage_name (crate : Path) (traitGenerics : List Ident) (method : TraitItemFn)
    (default : Option Path) :
    ((DynMethod.new casing crate traitGenerics method).genericStorage default).toList.filterMap
        (·.typeIdent) =
      if (returnImplTrait (DynMethod.convertAsync method.sig)).isSome
        then [storageName casing method] else [] := by
  cases h : returnImplTrait (DynMethod.convertAsync method.sig) with
  | none => simp [DynMethod.new, DynMethod.genericStorage, h]
  | some rpit =>
    simp [DynMethod.new, DynMethod.genericStorage, h, GenericParam.typeIdent, storageName]

/-- Whether a method that is converted gets the hidden items. -/
theorem isMaybeSync_eq {base : DynTrait} {method method' : TraitItemFn} {attrs : MethodAttrs}
    (hd : isDispatchable method = true) (hp : MethodAttrs.parse method = .ok (attrs, method'))
    (hs : attrs.maybeSync = true → ∃ f, (base.dynMethod casing method').syncMethod = .ok f) :
    isMaybeSync method = attrs.maybeSync := by
  cases ha : attrs.maybeSync with
  | false => simp [isMaybeSync, hp, ha]
  | true =>
    obtain ⟨f, hf⟩ := hs ha
    obtain ⟨rpit, output, hr, ho, -⟩ := DynMethod.syncMethod_ok hf
    have hr : returnImplTrait (DynMethod.convertAsync method.sig) = some rpit :=
      MethodAttrs.parse_sig hp ▸ hr
    simp [isMaybeSync, hp, ha, hd, hr, ho]

/-- An item that stays where it is asks for no names. -/
theorem filter_itemFn_eq_nil {item : TraitItem}
    (h : ∀ method, item = .fn method → isDispatchable method = false) :
    (itemFn item).toList.filter isConverted = [] ∧
      (itemFn item).toList.filter isMaybeSync = [] := by
  cases item with
  | fn method => simp [itemFn, isConverted, isMaybeSync, h method rfl]
  | type ty => exact ⟨rfl, rfl⟩
  | const item => exact ⟨rfl, rfl⟩
  | other attrs tokens => exact ⟨rfl, rfl⟩

/-- What an item adds to the names that are there. -/
theorem convertItem_names {base : DynTrait} {item : TraitItem} {o : ItemOutput}
    (h : base.convertItem casing item = .ok o) :
    itemName o.item = itemName item ∧
      o.genericStorages.filterMap (·.typeIdent) =
        ((itemFn item).toList.filter isConverted).map (storageName casing) ∧
      o.additionalTraitItems.filterMap itemName =
        ((itemFn item).toList.filter isMaybeSync).flatMap fun m =>
          [syncFn m.sig, isSyncConst casing m.sig] := by
  rcases DynTrait.convertItem_cases h with ⟨ty, rfl, -, rfl⟩ | ⟨method, rfl, hd, h⟩ | ⟨-, hf, rfl⟩
  · exact ⟨rfl, rfl, rfl⟩
  · obtain ⟨attrs, method', hp, hcase⟩ := DynTrait.convertMethod_ok h
    have hsig : method'.sig = method.sig := MethodAttrs.parse_sig hp
    have hitem : itemName (.fn method') = itemName (.fn method) := by
      rw [itemName, itemName, hsig]
    have hstorage :
        ((base.dynMethod casing method').genericStorage attrs.storage).toList.filterMap
          (·.typeIdent) =
        ((itemFn (.fn method)).toList.filter isConverted).map (storageName casing) := by
      rw [DynTrait.dynMethod, genericStorage_name, storageName, hsig]
      by_cases hr : (returnImplTrait (DynMethod.convertAsync method.sig)).isSome <;>
        simp [itemFn, isConverted, hd, hr, storageName]
    rcases hcase with ⟨hs, rfl⟩ | ⟨hs, f, c, _, _, hf, hc, -, -, rfl⟩
    · refine ⟨hitem, hstorage, ?_⟩
      simp [itemFn, isMaybeSync, hp, hs]
    · refine ⟨hitem, hstorage, ?_⟩
      have hm : isMaybeSync method = true := (isMaybeSync_eq hd hp fun _ => ⟨f, hf⟩).trans hs
      obtain ⟨-, -, -, -, rfl⟩ := DynMethod.syncMethod_ok hf
      obtain ⟨-, rfl⟩ := DynMethod.isSyncConst_ok hc
      have horig : (base.dynMethod casing method').origSig = method.sig := hsig
      simp [itemFn, hm, itemName, horig]
  · obtain ⟨hconverted, hsync⟩ := filter_itemFn_eq_nil hf
    rw [hconverted, hsync]
    exact ⟨rfl, rfl, rfl⟩

/-- The names are the parameters that the generated trait has besides those of the trait itself,
and the items that the trait has besides its own. -/
theorem dynTraitImpl_names {opts : DynTraitOpts} {out : DynTraitOutput}
    (h : dynTraitImpl casing trait opts = .ok out) :
    out.dynTrait.generics.params.filterMap (·.typeIdent) =
        trait.generics.params.filterMap (·.typeIdent) ++ storages casing trait ∧
      ∀ t ∈ out.optTrait, t.items.filterMap itemName = trait.items.filterMap itemName ++
        (maybeSync trait).flatMap fun m => [syncFn m.sig, isSyncConst casing m.sig] := by
  obtain ⟨outs, _, _, ho, rfl⟩ := dynTraitImpl_eq h
  have hitems : (outs.map (·.item)).filterMap itemName = trait.items.filterMap itemName := by
    rw [List.filterMap_map, List.filterMap_eq_flatMap_toList, List.filterMap_eq_flatMap_toList]
    exact Machine.flatMap_of_forall₂ ho fun _ _ hc =>
      congrArg Option.toList (convertItem_names hc).1
  have hstorages : (outs.flatMap (·.genericStorages)).filterMap (·.typeIdent) =
      storages casing trait := by
    rw [List.filterMap_flatMap, storages, converted, List.filterMap_eq_flatMap_toList,
      List.filter_flatMap, List.map_flatMap]
    exact Machine.flatMap_of_forall₂ ho fun _ _ hc => (convertItem_names hc).2.1
  have hadditional : (outs.flatMap (·.additionalTraitItems)).filterMap itemName =
      (maybeSync trait).flatMap fun m => [syncFn m.sig, isSyncConst casing m.sig] := by
    rw [List.filterMap_flatMap, maybeSync, List.filterMap_eq_flatMap_toList, List.filter_flatMap,
      List.flatMap_assoc]
    exact Machine.flatMap_of_forall₂ ho fun _ _ hc => (convertItem_names hc).2.2
  constructor
  · simp only [DynTrait.output]
    rw [typeIdent_printed, List.filterMap_append, hstorages]
  · intro t ht
    obtain ⟨-, ht⟩ := Option.ite_none_right_eq_some.mp ht
    obtain rfl := Option.some.inj ht
    exact (List.filterMap_append ..).trans (congrArg₂ _ hitems hadditional)

end DynUtils.Macros.Naming
