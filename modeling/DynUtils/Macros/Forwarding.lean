import DynUtils.Syn.Binding
import DynUtils.Macros.FnPointers
import DynUtils.Macros.DynTraitSpec

/-! Whether the arguments of a method arrive as they were given. -/
namespace DynUtils.Macros.Forwarding

open Syn PatternAsArg

mutual

/-- A pattern that gives what it is matched against, when it is printed as an expression. -/
def ReadsBack (S : Types) : Pat → Val → Prop
  | .ident _ _ _ (some .rest), _ | .wild, _ | .reference _ _, _ | .other _, _ => False
  | .ident byRef _ _ _, _ => byRef = false
  | .rest, v => v = .rangeFull
  | .tuple elems, v => Pat.isRest elems = false ∧ ∃ vs, v = .tuple vs ∧ ReadsBackElems S elems vs
  | .tupleStruct path elems, v => ∃ vs, v = .adt (S.ctor path) vs ∧ ReadsBackElems S elems vs
  | .struct path fields dots, v => dots = false ∧ ∃ vs, v = .adt (S.ctor path) vs ∧
      ReadsBackFields S fields ((S.members (S.ctor path)).zip vs)
  | .slice elems, v => ∃ vs, v = .array vs ∧ ReadsBackElems S elems vs
  | .paren pat, v => ReadsBack S pat v

def ReadsBackElems (S : Types) : List Pat → List Val → Prop
  | [], [] => True
  | p :: ps, v :: vs => ReadsBack S p v ∧ ReadsBackElems S ps vs
  | _, _ => False

def ReadsBackFields (S : Types) : List FieldPat → List (Ident × Val) → Prop
  | [], _ => True
  | .mk member p :: fs, vals =>
    (∃ v, vals.lookup member = some v ∧ ReadsBack S p v) ∧ ReadsBackFields S fs vals

end

/-- The names of one environment mean the same in another. -/
def Part (env Γ : Env) : Prop := ∀ b ∈ env, Γ.lookup b.1 = some b.2

theorem Part.append {env env' Γ : Env} (h : Part (env ++ env') Γ) : Part env Γ ∧ Part env' Γ :=
  ⟨fun b hb => h b (List.mem_append_left _ hb), fun b hb => h b (List.mem_append_right _ hb)⟩

/-- A value is no array of itself. -/
theorem array_singleton_ne (v : Val) : Val.array [v] ≠ v := by
  intro h
  have hs := congrArg sizeOf h
  simp only [Val.array.sizeOf_spec, List.cons.sizeOf_spec, List.nil.sizeOf_spec] at hs
  omega

theorem lookup_cons_ne {m m' : Ident} {v : Val} {vals : List (Ident × Val)} (h : m' ≠ m) :
    ((m, v) :: vals).lookup m' = vals.lookup m' := by
  rw [List.lookup_cons, beq_false_of_ne h]

theorem mem_of_lookup {m : Ident} {v : Val} {vals : List (Ident × Val)}
    (h : vals.lookup m = some v) : (m, v) ∈ vals := by
  obtain ⟨l, l', rfl, -⟩ := List.lookup_eq_some_iff.mp h
  simp

theorem fromCallers_iff {vs : List Val} : FromCallers vs ↔ ∀ v ∈ vs, v.FromCaller := by
  induction vs with
  | nil => simp [FromCallers]
  | cons v vs ih => simp [FromCallers, ih]

theorem fromCaller_zip {ms : List Ident} {vs : List Val} (h : FromCallers vs) :
    ∀ b ∈ ms.zip vs, b.2.FromCaller :=
  fun _ hb => fromCallers_iff.mp h _ (List.of_mem_zip hb).2

theorem lookup_zip_cons {m m' : Ident} {ms : List Ident} {v : Val} {vs : List Val} (h : m' ≠ m) :
    ((m :: ms).zip (v :: vs)).lookup m' = (ms.zip vs).lookup m' :=
  lookup_cons_ne h

/-- A struct expression gives the fields that are in the struct. -/
theorem mapM_lookup_eq {f : Ident → Option Val} {ms : List Ident} {vs : List Val}
    (hn : ms.Nodup) (hl : vs.length = ms.length) :
    ms.mapM f = some vs ↔ ∀ m ∈ ms, f m = (ms.zip vs).lookup m := by
  induction ms generalizing vs with
  | nil =>
    obtain rfl := List.length_eq_zero_iff.mp hl
    simp
  | cons m ms ih =>
    obtain ⟨v, vs, rfl⟩ := List.exists_cons_of_length_eq_add_one hl
    obtain ⟨hm, hn⟩ := List.nodup_cons.mp hn
    have hrest : ∀ m' ∈ ms, ((m :: ms).zip (v :: vs)).lookup m' = (ms.zip vs).lookup m' :=
      fun m' hm' => lookup_zip_cons fun he => hm (he ▸ hm')
    simp only [List.mapM_cons, Option.bind_eq_bind, Option.bind_eq_some_iff, Option.pure_def,
      Option.some.injEq, List.cons.injEq, List.forall_mem_cons]
    constructor
    · rintro ⟨v', hv, vs', hvs, rfl, rfl⟩
      refine ⟨by simpa using hv, ?_⟩
      intro m' hm'
      rw [hrest m' hm']
      exact (ih hn (by simpa using hl)).mp hvs m' hm'
    · rintro ⟨hv, hvs⟩
      refine ⟨v, by simpa using hv, vs, ?_, rfl, rfl⟩
      exact (ih hn (by simpa using hl)).mpr fun m' hm' => by rw [hvs m' hm', hrest m' hm']

theorem isRest_visitPats (ps : List Pat) : Pat.isRest (visitPats ps) = Pat.isRest ps := by
  match ps with
  | [] => rfl
  | [p] => cases p <;> rfl
  | p :: q :: ps => cases p <;> rfl

theorem length_visitPats (ps : List Pat) : (visitPats ps).length = ps.length := by
  induction ps with
  | nil => rfl
  | cons p ps ih => simpa [visitPats] using ih

theorem length_readsBackElems {S : Types} {ps : List Pat} {vs : List Val}
    (h : ReadsBackElems S ps vs) : vs.length = ps.length := by
  induction ps generalizing vs with
  | nil =>
    cases vs with
    | nil => rfl
    | cons v vs => exact h.elim
  | cons p ps ih =>
    cases vs with
    | nil => exact h.elim
    | cons v vs => simp [ih h.2]

variable {S : Types} {Γ : Env}

/-- Only the value that an identifier is bound to by value is the argument itself. -/
theorem bound_eq_iff {byRef mutability : Bool} {place : Place} {v : Val} (hv : v.FromCaller)
    (hp : place.inFrame = true) :
    Mode.bound none byRef mutability place v = v ↔ byRef = false := by
  cases byRef with
  | false => simp [Mode.bound]
  | true =>
    simp only [Mode.bound, if_true, Bool.true_eq_false, iff_false]
    intro h
    rw [← h, Val.FromCaller, hp] at hv
    exact absurd hv.1 (by simp)

/-- `x @ ..` binds no single element. -/
theorem bound_array_ne {byRef mutability : Bool} {place : Place} {v : Val} {vs : List Val}
    (hv : v.FromCaller) (hp : place.inFrame = true) :
    Mode.bound none byRef mutability place (.array ((v :: vs).take 1)) ≠ v := by
  cases byRef with
  | false => exact array_singleton_ne v
  | true =>
    intro h
    rw [← h, Mode.bound, if_pos rfl, Val.FromCaller, hp] at hv
    exact absurd hv.1 (by simp)

theorem bindFields_lookup {mode : Mode} {place : Place} {vals : List (Ident × Val)} {env : Env}
    {fs : List FieldPat} (h : Pat.bindFields S fs mode place vals = some env) :
    ∀ m ∈ fs.map Pat.memberOf, ∃ v, (m, v) ∈ vals := by
  induction fs generalizing env with
  | nil => simp
  | cons f fs ih =>
    obtain ⟨member, p⟩ := f
    obtain ⟨v, own, rest, hl, -, hr, rfl⟩ := Pat.bindFields_cons h
    simp only [List.map_cons, List.forall_mem_cons]
    exact ⟨⟨v, mem_of_lookup hl⟩, ih hr⟩

mutual

/-- Printed as an expression, a pattern gives back exactly those values that it reads back. -/
theorem eval_visitPat_iff {place : Place} {v : Val} {env : Env} (hp : place.inFrame = true)
    (hv : v.FromCaller) (hΓ : Part env Γ) :
    ∀ p : Pat, p.bind S none place v = some env →
      ((visitPat p).eval S Γ = some v ↔ ReadsBack S p v)
  | .ident byRef mutability x subpat, hb => by
    simp only [Pat.bind, Option.bind_eq_bind, Option.bind_eq_some_iff, Option.pure_def,
      Option.some.injEq] at hb
    obtain ⟨sub, hs, rfl⟩ := hb
    have hx : Γ.lookup x = some _ := hΓ _ List.mem_cons_self
    have hr : ReadsBack S (.ident byRef mutability x subpat) v ↔ byRef = false := by
      cases subpat with
      | none => exact Iff.rfl
      | some p =>
        cases p with
        | rest => cases hs
        | _ => exact Iff.rfl
    rw [hr, visitPat, Pat.eval, hx, Option.some_inj, bound_eq_iff hv hp]
  | .wild, _ => by simp [visitPat, Pat.eval, ReadsBack]
  | .rest, hb | .other _, hb => by cases hb
  | .tuple elems, hb => by
    cases v with
    | tuple vs =>
      have ih := evalElems_visitPats_iff hp hv hΓ elems hb
      simp only [visitPat, Pat.eval, isRest_visitPats, ReadsBack, Val.tuple.injEq]
      cases Pat.isRest elems with
      | true => simp
      | false => simp [Option.map_eq_some_iff, ih]
    | ref mutability place v =>
      simp only [visitPat, Pat.eval, ReadsBack]
      split <;> simp
    | _ => cases hb
  | .tupleStruct path elems, hb => by
    cases v with
    | adt ctor vs =>
      simp only [Pat.bind, Val.peel] at hb
      split at hb
      · rename_i hc
        subst hc
        have ih := evalElems_visitPats_iff hp hv hΓ elems hb
        simp [visitPat, Pat.eval, ReadsBack, Option.map_eq_some_iff, ih]
      · cases hb
    | ref mutability place v => simp [visitPat, Pat.eval, ReadsBack]
    | _ => cases hb
  | .slice elems, hb => by
    cases v with
    | array vs =>
      have ih := evalElems_visitPats_iff hp hv hΓ elems hb
      simp [visitPat, Pat.eval, ReadsBack, Option.map_eq_some_iff, ih]
    | ref mutability place v => simp [visitPat, Pat.eval, ReadsBack]
    | _ => cases hb
  | .struct path fields dots, hb => by
    cases v with
    | adt ctor vs =>
      simp only [Pat.bind, Val.peel] at hb
      split at hb
      · rename_i hc
        obtain ⟨rfl, hl, hok⟩ := hc
        obtain ⟨hn, hall⟩ := Bool.and_eq_true_iff.mp hok
        have ih := evalFields_visitFields_iff hp (fromCaller_zip hv) hΓ fields
          (by simpa using hn) hb
        cases dots with
        | true => simp [visitPat, Pat.eval, ReadsBack]
        | false =>
          have hmem : ∀ m, m ∈ fields.map Pat.memberOf ↔ m ∈ S.members (S.ctor path) := by
            refine fun m => ⟨?_, fun hm => by simp_all⟩
            intro hm
            obtain ⟨v, hv⟩ := bindFields_lookup hb m hm
            exact (List.of_mem_zip hv).1
          simp only [hmem] at ih
          simp [visitPat, Pat.eval, ReadsBack, Option.bind_eq_some_iff, Option.map_eq_some_iff,
            mapM_lookup_eq (S.nodup _) hl, ← ih]
      · cases hb
    | ref mutability place v =>
      cases dots <;> simp [visitPat, Pat.eval, ReadsBack, Option.bind_eq_some_iff]
    | _ => cases hb
  | .reference mutability pat, hb => by
    simp only [visitPat, Pat.eval, ReadsBack, iff_false, Option.map_eq_some_iff, not_exists]
    rintro v' ⟨-, rfl⟩
    exact absurd hv.1 (by simp [Place.inFrame])
  | .paren pat, hb => eval_visitPat_iff hp hv hΓ pat hb

theorem evalElems_visitPats_iff {many : Bool} {place : Place} {i : ℕ} {vs : List Val} {env : Env}
    (hp : place.inFrame = true) (hv : FromCallers vs) (hΓ : Part env Γ) :
    ∀ ps : List Pat, Pat.bindElems S ps many none place i vs = some env →
      (Pat.evalElems S Γ (visitPats ps) = some vs ↔ ReadsBackElems S ps vs)
  | [], hb => by
    simp only [Pat.bindElems] at hb
    split at hb
    · rename_i hvs
      obtain rfl := List.isEmpty_iff.mp hvs
      exact iff_of_true rfl trivial
    · cases hb
  | p :: ps, hb => by
    cases hs : p.slurp with
    | none =>
      obtain ⟨v, vs, own, rest, rfl, ho, hr, rfl⟩ := Pat.bindElems_cons hs hb
      have hpv : (visitPat p).eval S Γ = some v ↔ ReadsBack S p v :=
        eval_visitPat_iff (show (place.elem i).inFrame = true from hp) hv.1 hΓ.append.1 p ho
      have hps := evalElems_visitPats_iff hp hv.2 hΓ.append.2 ps hr
      rw [visitPats, Pat.evalElems_cons, hpv, hps, ReadsBackElems]
    | some slurped =>
      obtain ⟨hl, own, rest, ho, hr, rfl⟩ := Pat.bindElems_slurp hs hb
      -- Both sides ask for as many values as there are patterns.
      by_cases hlen : vs.length = ps.length + 1
      · obtain ⟨v, vs, rfl⟩ := List.exists_cons_of_length_eq_add_one hlen
        have hn : (v :: vs).length - ps.length = 1 := by omega
        rw [hn] at ho hr
        have hps := evalElems_visitPats_iff hp hv.2 hΓ.append.2 ps hr
        rw [visitPats, Pat.evalElems_cons, hps, ReadsBackElems]
        apply and_congr_left
        intro _
        cases slurped with
        | none =>
          rw [show p = .rest from Pat.slurp_eq_some hs, visitPat, Pat.eval, ReadsBack,
            Option.some_inj, eq_comm]
        | some b =>
          obtain ⟨byRef, mutability, x⟩ := b
          obtain rfl := Pat.bindSlurped_some ho
          have hx : Γ.lookup x = some _ := hΓ.append.1 _ (List.mem_singleton_self _)
          rw [show p = .ident byRef mutability x (some .rest) from Pat.slurp_eq_some hs,
            visitPat, Pat.eval, hx, ReadsBack, Option.some_inj, iff_false]
          exact bound_array_ne hv.1 hp
      · refine iff_of_false (fun h => hlen ?_) fun h => hlen ?_
        · simpa [visitPats, length_visitPats] using Pat.evalElems_length h
        · simpa using length_readsBackElems h

theorem evalFields_visitFields_iff {place : Place} {vals : List (Ident × Val)} {env : Env}
    (hp : place.inFrame = true) (hv : ∀ b ∈ vals, b.2.FromCaller) (hΓ : Part env Γ) :
    ∀ fs : List FieldPat, (fs.map Pat.memberOf).Nodup →
      Pat.bindFields S fs none place vals = some env →
        ((∃ evaluated, Pat.evalFields S Γ (visitFields fs) = some evaluated ∧
            ∀ m ∈ fs.map Pat.memberOf, evaluated.lookup m = vals.lookup m) ↔
          ReadsBackFields S fs vals)
  | [], _, _ => by simp [visitFields, Pat.evalFields, ReadsBackFields]
  | .mk member p :: fs, hn, hb => by
    obtain ⟨v, own, rest, hl, ho, hr, rfl⟩ := Pat.bindFields_cons hb
    obtain ⟨hm, hn⟩ := List.nodup_cons.mp hn
    have hpv : (visitPat p).eval S Γ = some v ↔ ReadsBack S p v :=
      eval_visitPat_iff (show (place.field member).inFrame = true from hp)
        (hv _ (mem_of_lookup hl)) hΓ.append.1 p ho
    have ih := evalFields_visitFields_iff hp hv hΓ.append.2 fs hn hr
    have hne : ∀ m ∈ fs.map Pat.memberOf, m ≠ member := fun m hmem he => hm (he ▸ hmem)
    simp only [visitFields, Pat.evalFields, Option.bind_eq_bind, Option.bind_eq_some_iff,
      Option.pure_def, Option.some.injEq, ReadsBackFields, List.map_cons, List.forall_mem_cons,
      Pat.memberOf, hl, ← ih]
    constructor
    · rintro ⟨_, ⟨w, hw, evaluated, he, rfl⟩, hfst, hrest⟩
      obtain rfl : w = v := by simpa using hfst
      refine ⟨⟨w, rfl, hpv.mp hw⟩, evaluated, he, ?_⟩
      intro m hmem
      rw [← hrest m hmem, lookup_cons_ne (hne m hmem)]
    · rintro ⟨⟨w, rfl, hw⟩, evaluated, he, hrest⟩
      refine ⟨_, ⟨v, hpv.mpr hw, evaluated, he, rfl⟩, by simp, ?_⟩
      intro m hmem
      rw [lookup_cons_ne (hne m hmem), hrest m hmem]

end

theorem slurp_visitPat {p : Pat} (h : p.slurp = none) : (visitPat p).slurp = none := by
  cases p <;> first | rfl | cases h

theorem memberOf_visitFields (fs : List FieldPat) :
    (visitFields fs).map Pat.memberOf = fs.map Pat.memberOf := by
  induction fs with
  | nil => rfl
  | cons f fs ih =>
    obtain ⟨member, p⟩ := f
    simpa [visitFields, Pat.memberOf] using ih

mutual

/-- Where a pattern reads back, what is left of it when it is cleaned binds and reads back too. -/
theorem bind_visitPat {place : Place} {v : Val} {env : Env} :
    ∀ p : Pat, p.bind S none place v = some env → ReadsBack S p v →
      ReadsBack S (visitPat p) v ∧ ∃ env', (visitPat p).bind S none place v = some env'
  | .ident _ _ _ _, _, _ => ⟨rfl, _, rfl⟩
  | .wild, _, h | .reference _ _, _, h | .other _, _, h => by cases h
  | .rest, hb, _ => by cases hb
  | .tuple elems, hb, h => by
    obtain ⟨hr, vs, rfl, he⟩ := h
    obtain ⟨he', env', hb'⟩ := bindElems_visitPats elems hb he
    exact ⟨⟨by rw [isRest_visitPats, hr], vs, rfl, he'⟩, env', hb'⟩
  | .tupleStruct path elems, hb, h => by
    obtain ⟨vs, rfl, he⟩ := h
    simp only [Pat.bind, Val.peel, if_true] at hb
    obtain ⟨he', env', hb'⟩ := bindElems_visitPats elems hb he
    exact ⟨⟨vs, rfl, he'⟩, env', by simpa [visitPat, Pat.bind, Val.peel] using hb'⟩
  | .slice elems, hb, h => by
    obtain ⟨vs, rfl, he⟩ := h
    obtain ⟨he', env', hb'⟩ := bindElems_visitPats elems hb he
    exact ⟨⟨vs, rfl, he'⟩, env', hb'⟩
  | .struct path fields dots, hb, h => by
    obtain ⟨hd, vs, rfl, hf⟩ := h
    simp only [Pat.bind, Val.peel, true_and] at hb
    split at hb
    · rename_i hok
      obtain ⟨hf', env', hb'⟩ := bindFields_visitFields fields hb hf
      refine ⟨⟨hd, vs, rfl, hf'⟩, env', ?_⟩
      simp only [visitPat, Pat.bind, Val.peel, true_and, Pat.fieldsOk, memberOf_visitFields]
      exact (if_pos hok).trans hb'
    · cases hb
  | .paren pat, hb, h => bind_visitPat pat hb h

theorem bindElems_visitPats {many : Bool} {place : Place} {i : ℕ} {vs : List Val} {env : Env} :
    ∀ ps : List Pat, Pat.bindElems S ps many none place i vs = some env →
      ReadsBackElems S ps vs → ReadsBackElems S (visitPats ps) vs ∧
        ∃ env', Pat.bindElems S (visitPats ps) many none place i vs = some env'
  | [], hb, h => ⟨h, env, hb⟩
  | p :: ps, hb, h => by
    have hl := length_readsBackElems h
    cases hs : p.slurp with
    | none =>
      obtain ⟨v, vs, own, rest, rfl, ho, hr, rfl⟩ := Pat.bindElems_cons hs hb
      obtain ⟨hp, own', ho'⟩ := bind_visitPat p ho h.1
      obtain ⟨hps, rest', hr'⟩ := bindElems_visitPats ps hr h.2
      refine ⟨⟨hp, hps⟩, own' ++ rest', ?_⟩
      simp [visitPats, Pat.bindElems, slurp_visitPat hs, ho', hr']
    | some slurped =>
      obtain ⟨-, own, rest, ho, hr, rfl⟩ := Pat.bindElems_slurp hs hb
      obtain ⟨v, vs, rfl⟩ := List.exists_cons_of_length_eq_add_one hl
      obtain hl : vs.length = ps.length := by simpa using hl
      have hn : (v :: vs).length - ps.length = 1 := by simp [hl]
      rw [hn] at hr
      obtain ⟨hps, rest', hr'⟩ := bindElems_visitPats ps hr h.2
      cases slurped with
      | none =>
        have hp : p = .rest := Pat.slurp_eq_some hs
        rw [hp] at h ⊢
        refine ⟨⟨h.1, hps⟩, rest', ?_⟩
        simp only [List.drop_one, List.tail_cons] at hr'
        simp [visitPats, visitPat, Pat.bindElems, Pat.slurp, Pat.bindSlurped, length_visitPats,
          hl, hr']
      | some b =>
        have hp : p = .ident _ _ _ (some .rest) := Pat.slurp_eq_some hs
        rw [hp] at h
        exact h.1.elim

theorem bindFields_visitFields {place : Place} {vals : List (Ident × Val)} {env : Env} :
    ∀ fs : List FieldPat, Pat.bindFields S fs none place vals = some env →
      ReadsBackFields S fs vals → ReadsBackFields S (visitFields fs) vals ∧
        ∃ env', Pat.bindFields S (visitFields fs) none place vals = some env'
  | [], hb, h => ⟨h, env, hb⟩
  | .mk member p :: fs, hb, h => by
    obtain ⟨v, own, rest, hl, ho, hr, rfl⟩ := Pat.bindFields_cons hb
    obtain ⟨⟨v', hl', hv⟩, hf⟩ := h
    obtain rfl := Option.some.inj (hl'.symm.trans hl)
    obtain ⟨hp, own', ho'⟩ := bind_visitPat p ho hv
    obtain ⟨hf', rest', hr'⟩ := bindFields_visitFields fs hr hf
    refine ⟨⟨⟨v', hl, hp⟩, hf'⟩, own' ++ rest', ?_⟩
    simp [visitFields, Pat.bindFields, hl, ho', hr']

end

mutual

theorem visitPat_visitPat : ∀ p : Pat, visitPat (visitPat p) = visitPat p
  | .ident _ _ _ _ | .wild | .rest | .other _ => rfl
  | .tuple elems | .tupleStruct _ elems | .slice elems => by
    simp [visitPat, visitPats_visitPats elems]
  | .struct _ fields _ => by simp [visitPat, visitFields_visitFields fields]
  | .reference _ pat | .paren pat => by simp [visitPat, visitPat_visitPat pat]

theorem visitPats_visitPats : ∀ ps : List Pat, visitPats (visitPats ps) = visitPats ps
  | [] => rfl
  | p :: ps => by simp [visitPats, visitPat_visitPat p, visitPats_visitPats ps]

theorem visitFields_visitFields : ∀ fs : List FieldPat,
    visitFields (visitFields fs) = visitFields fs
  | [] => rfl
  | .mk _ p :: fs => by simp [visitFields, visitPat_visitPat p, visitFields_visitFields fs]

end

mutual

/-- Cleaning drops names only. -/
theorem names_visitPat : ∀ p : Pat, (visitPat p).names.Sublist p.names
  | .ident _ _ x _ => by simp [visitPat, Pat.names, Pat.namesSub]
  | .wild | .rest | .other _ => List.Sublist.refl _
  | .tuple elems | .tupleStruct _ elems | .slice elems => names_visitPats elems
  | .struct _ fields _ => names_visitFields fields
  | .reference _ pat | .paren pat => names_visitPat pat

theorem names_visitPats : ∀ ps : List Pat,
    (Pat.namesElems (visitPats ps)).Sublist (Pat.namesElems ps)
  | [] => List.Sublist.refl _
  | p :: ps => (names_visitPat p).append (names_visitPats ps)

theorem names_visitFields : ∀ fs : List FieldPat,
    (Pat.namesFields (visitFields fs)).Sublist (Pat.namesFields fs)
  | [] => List.Sublist.refl _
  | .mk _ p :: fs => (names_visitPat p).append (names_visitFields fs)

end

/-- `mut self`, with a type -/
def isMutSelf : FnArg → Bool
  | .receiver r => r.reference.isNone && r.mutability
  | .typed _ _ => false

/-- The pattern of a parameter. The receiver binds `self`. -/
def argPat : FnArg → Pat
  | .receiver r => .ident false (isMutSelf (.receiver r)) "self" none
  | .typed pat _ => pat

def params (sig : Signature) : List Pat := sig.inputs.map argPat

def evalPlain (S : Types) (env : Env) : Expr → Option Val
  | .path ⟨false, [.mk x .none]⟩ => env.lookup x
  | .pat p => p.eval S env
  | _ => none

/-- The value of an argument. `transmute` changes the lifetimes in its type only. -/
def evalArg (S : Types) (env : Env) : Expr → Option Val
  | .call (.path ⟨true, [.mk "core" .none, .mk "mem" .none, .mk "transmute" .none]⟩) [e] =>
    evalPlain S env e
  | e => evalPlain S env e

/-- Bound to these parameters, the arguments are given on by the expressions. -/
def Delivers (S : Types) (ps : List Pat) (args : List Val) (exprs : List Expr)
    (given : List Val) : Prop :=
  ∃ env, Pat.bindArgs S ps args = some env ∧ exprs.mapM (evalArg S env) = some given

mutual

/-- The arguments of the calls of `__Dyn::method`. -/
def dynCalls : Expr → List (List Expr)
  | .call (.path ⟨false, [.mk "__Dyn" .none, _]⟩) args => [args]
  | .call _ args => dynCallsArgs args
  | .ifElse _ thenBranch elseBranch => dynCalls thenBranch ++ dynCalls elseBranch
  | _ => []

def dynCallsArgs : List Expr → List (List Expr)
  | [] => []
  | e :: es => dynCalls e ++ dynCallsArgs es

end

/-- A method without a body takes nothing else. -/
def Declarable : Pat → Prop
  | .ident byRef mutability _ subpat => byRef = false ∧ mutability = false ∧ subpat = none
  | .wild => True
  | _ => False

structure DynTraitForwards (S : Types) (casing : Casing) (method : DynMethod)
    (args : List Val) : Prop where
  declared : ∀ p ∈ params method.dynMethod.sig, Declarable p
  called : ∀ f, f = method.implMethod ∨ method.maybeSyncImpl casing = .ok f →
    dynCalls f.block.value ≠ [] ∧
      ∀ exprs ∈ dynCalls f.block.value, Delivers S (params f.sig) args exprs args

/-- The parameters of the closure in the vtable, and what it calls the method with after the
receiver. -/
def closureOf : Expr → Option (List Expr × List Expr)
  | .unsafeBlock (.call _ [.closure inputs (.call _ [.call _ (_ :: args)])]) =>
    some (inputs, args)
  | _ => none

/-- What the function pointer is called with after the storage. -/
def pointerArgs : Expr → Option (List Expr)
  | .unsafeBlock (.call (.call _ _) (_ :: args)) => some args
  | _ => none

/-- The parameter of a closure. -/
def inputPat : Expr → Option Pat
  | .path ⟨false, [.mk x .none]⟩ => some (.ident false false x none)
  | .pat p => some p
  | _ => none

/-- The closure gets the storage in place of the receiver. -/
structure DynObjectForwards (S : Types) (method : DispatchableFn) (storage : Val)
    (args : List Val) : Prop where
  closure : ∃ inputs exprs ps, closureOf (DynObject.vtableMethod method).2 = some (inputs, exprs) ∧
    inputs.mapM inputPat = some ps ∧ Delivers S ps (storage :: args.tail) exprs args.tail
  impl : ∃ exprs, pointerArgs (DynObject.implMethod method).block.value = some exprs ∧
    Delivers S (params (DynObject.implMethod method).sig) args exprs args.tail

def IsIdent : Pat → Prop
  | .ident _ _ _ _ => True
  | _ => False

theorem visitPats_eq_map (ps : List Pat) : visitPats ps = ps.map visitPat := by
  induction ps with
  | nil => rfl
  | cons p ps ih => simp [visitPats, ih]

/-- The generated method has the patterns of the source, cleaned. The receiver is as it was. -/
theorem params_new (casing : Casing) (crate : Path) (traitGenerics : List Ident)
    (method : TraitItemFn) :
    params (DynMethod.new casing crate traitGenerics method).dynMethod.sig =
      method.sig.inputs.map fun arg => argPat (visitFnArg arg) := by
  have hconv : params (DynMethod.convertAsync method.sig) =
      method.sig.inputs.map fun arg => argPat (visitFnArg arg) := by
    simp [params]
  rw [← hconv]
  simp only [DynMethod.new]
  cases returnImplTrait (DynMethod.convertAsync method.sig) with
  | none => rfl
  | some rpit =>
    simp only [params, DynMethod.updateDynSignature, List.map_map]
    apply List.map_congr_left
    intro arg _
    cases arg with
    | receiver r =>
      simp [argPat, isMutSelf, CapturedLifetimes.visitFnArg, CapturedLifetimes.visitReceiver]
    | typed pat ty => rfl

/-- A receiver binds the same whether or not it is `mut`. -/
theorem bindParams_visitFnArg (inputs : List FnArg) (vs : List Val) :
    Pat.bindParams S (inputs.map fun arg => argPat (visitFnArg arg)) vs =
      Pat.bindParams S (visitPats (inputs.map argPat)) vs := by
  induction inputs generalizing vs with
  | nil => rfl
  | cons arg inputs ih =>
    cases vs with
    | nil => rfl
    | cons v vs =>
      simp only [List.map_cons, visitPats, Pat.bindParams, ih]
      cases arg <;> rfl

theorem delivers_visitFnArg {inputs : List FnArg} {args given : List Val} {exprs : List Expr} :
    Delivers S (inputs.map fun arg => argPat (visitFnArg arg)) args exprs given ↔
      Delivers S (visitPats (inputs.map argPat)) args exprs given := by
  simp only [Delivers, Pat.bindArgs, bindParams_visitFnArg]

/-- Printed arguments are cleaned patterns. -/
theorem evalElems_params (S : Types) (env : Env) (args : List FnArg) {f : FnArg → Option Val}
    (hf : ∀ arg, f arg = (visitPat (argPat arg)).eval S env) :
    args.mapM f = Pat.evalElems S env (visitPats (args.map argPat)) := by
  induction args with
  | nil => rfl
  | cons arg args ih =>
    rw [List.mapM_cons, ih, hf]
    rfl

theorem mapM_fnArgs (S : Types) (env : Env) (sig : Signature) :
    (fnArgs sig).mapM (evalArg S env) = Pat.evalElems S env (visitPats (params sig)) := by
  rw [fnArgs, List.mapM_map]
  exact evalElems_params S env sig.inputs fun arg => by cases arg <;> rfl

/-- Paths into the crate are no calls of the method. -/
theorem dynCalls_join (crate : Path) {a b : Ident} (ha : a ≠ "__Dyn") (args : List Expr) :
    dynCalls (.call (.path (crate.join [a, b])) args) = dynCallsArgs args := by
  obtain ⟨leading, segments⟩ := crate
  match segments with
  | [] => cases leading <;> simp [Path.join, PathSegment.plain, dynCalls, ha]
  | [s] => simp [Path.join, dynCalls]
  | s :: t :: ss => simp [Path.join, dynCalls]

theorem dynCalls_dynPath (ident : Ident) (args : List Expr) :
    dynCalls (.call (DynMethod.dynPath ident) args) = [args] := rfl

theorem dynCalls_dynObjectNew (crate : Path) (ident : Ident) (args : List Expr) :
    dynCalls (DynMethod.dynObjectNew crate (.call (DynMethod.dynPath ident) args)) = [args] := by
  rw [DynMethod.dynObjectNew, dynCalls_join crate (by decide)]
  rfl

theorem dynCalls_implMethod (method : DynMethod) :
    dynCalls method.implMethod.block.value = [fnArgs method.origSig] := by
  simp only [DynMethod.implMethod, implMethod]
  split
  · exact dynCalls_dynObjectNew ..
  · rfl

/-- Both branches give the arguments on. -/
theorem dynCalls_maybeSyncImpl {casing : Casing} {method : DynMethod} {f : ImplItemFn}
    (h : method.maybeSyncImpl casing = .ok f) :
    dynCalls f.block.value = [fnArgs method.origSig, fnArgs method.origSig] ∧
      f.sig.inputs = method.dynMethod.sig.inputs := by
  obtain ⟨-, ⟨_, hsig⟩, hblock⟩ := DynMethod.maybeSyncImpl_ok h
  refine ⟨?_, by rw [hsig]⟩
  simp [hblock, dynCalls, dynCalls_join _ (by decide : "MaybeSync" ≠ "__Dyn"), dynCallsArgs,
    dynCalls_dynPath, dynCalls_dynObjectNew]

theorem part_self {env : Env} (h : (env.map (·.1)).Nodup) : Part env env :=
  fun _ hb => lookup_of_mem h hb

theorem evalParams_iff {ps : List Pat} {vs : List Val} {env : Env} (hv : FromCallers vs)
    (hΓ : Part env Γ) (hb : Pat.bindParams S ps vs = some env) :
    Pat.evalElems S Γ (visitPats ps) = some vs ↔ ReadsBackElems S ps vs := by
  induction ps generalizing vs env with
  | nil =>
    cases vs with
    | nil => exact iff_of_true rfl trivial
    | cons v vs => cases hb
  | cons p ps ih =>
    obtain ⟨v, vs, own, rest, rfl, ho, hr, rfl⟩ := Pat.bindParams_cons.mp hb
    rw [visitPats, Pat.evalElems_cons, eval_visitPat_iff rfl hv.1 hΓ.append.1 p ho,
      ih hv.2 hΓ.append.2 hr, ReadsBackElems]

theorem bindParams_visitPats {ps : List Pat} {vs : List Val} {env : Env}
    (hb : Pat.bindParams S ps vs = some env) (h : ReadsBackElems S ps vs) :
    ReadsBackElems S (visitPats ps) vs ∧ ∃ env', Pat.bindParams S (visitPats ps) vs = some env' := by
  induction ps generalizing vs env with
  | nil => exact ⟨h, env, hb⟩
  | cons p ps ih =>
    obtain ⟨v, vs, own, rest, rfl, ho, hr, rfl⟩ := Pat.bindParams_cons.mp hb
    obtain ⟨hp, own', ho'⟩ := bind_visitPat p ho h.1
    obtain ⟨hps, rest', hr'⟩ := ih hr h.2
    exact ⟨⟨hp, hps⟩, _, Pat.bindParams_cons.mpr ⟨v, vs, own', rest', rfl, ho', hr', rfl⟩⟩

/-- Identifiers bind, and read back, once they are cleaned. -/
theorem bindParams_idents {ps : List Pat} {vs : List Val} {env : Env}
    (hb : Pat.bindParams S ps vs = some env) (h : ∀ p ∈ ps, IsIdent p) :
    ReadsBackElems S (visitPats ps) vs ∧ ∃ env', Pat.bindParams S (visitPats ps) vs = some env' := by
  induction ps generalizing vs env with
  | nil =>
    cases vs with
    | nil => exact ⟨trivial, env, hb⟩
    | cons v vs => cases hb
  | cons p ps ih =>
    obtain ⟨v, vs, own, rest, rfl, -, hr, rfl⟩ := Pat.bindParams_cons.mp hb
    obtain ⟨hp, h⟩ := List.forall_mem_cons.mp h
    obtain ⟨hps, rest', hr'⟩ := ih hr h
    cases p with
    | ident byRef mutability x subpat =>
      exact ⟨⟨rfl, hps⟩, _, Pat.bindParams_cons.mpr ⟨v, vs, _, rest', rfl, rfl, hr', rfl⟩⟩
    | _ => exact hp.elim

/-- Cleaned parameters give on what they read back. -/
theorem delivers_visitPats {ps : List Pat} {vs : List Val} {exprs : List Expr} {env : Env}
    (hn : (Pat.namesElems (visitPats ps)).Nodup) (hv : FromCallers vs)
    (hb : Pat.bindParams S (visitPats ps) vs = some env) (hr : ReadsBackElems S (visitPats ps) vs)
    (he : exprs.mapM (evalArg S env) = Pat.evalElems S env (visitPats ps)) :
    Delivers S (visitPats ps) vs exprs vs := by
  refine ⟨env, Pat.bindArgs_eq_some.mpr ⟨hb, hn⟩, ?_⟩
  have hpart : Part env env := part_self (by rwa [Pat.bindParams_names hb])
  rw [he, ← visitPats_visitPats]
  exact (evalParams_iff hv hpart hb).mpr hr

theorem evalElems_mem {ps : List Pat} {vs : List Val} (h : Pat.evalElems S Γ ps = some vs) :
    ∀ p ∈ ps, ∃ v, p.eval S Γ = some v := by
  induction ps generalizing vs with
  | nil => simp
  | cons p ps ih =>
    cases vs with
    | nil => cases Pat.evalElems_length h
    | cons v vs =>
      obtain ⟨hv, hvs⟩ := Pat.evalElems_cons.mp h
      exact List.forall_mem_cons.mpr ⟨⟨v, hv⟩, ih hvs⟩

theorem mem_visitPats {q : Pat} {ps : List Pat} : q ∈ visitPats ps ↔ ∃ p ∈ ps, visitPat p = q := by
  rw [visitPats_eq_map, List.mem_map]

/-- The arguments of a `dyn_trait` method arrive if they are declared by identifiers. -/
theorem called_of_idents (casing : Casing) (crate : Path) (traitGenerics : List Ident)
    (method : TraitItemFn) {args : List Val} {env : Env}
    (hb : Pat.bindArgs S (params method.sig) args = some env) (hv : FromCallers args)
    (h : ∀ p ∈ params method.sig, IsIdent p) (f : ImplItemFn)
    (hf : f = (DynMethod.new casing crate traitGenerics method).implMethod ∨
      (DynMethod.new casing crate traitGenerics method).maybeSyncImpl casing = .ok f) :
    dynCalls f.block.value ≠ [] ∧
      ∀ exprs ∈ dynCalls f.block.value, Delivers S (params f.sig) args exprs args := by
  obtain ⟨hb, hn⟩ := Pat.bindArgs_eq_some.mp hb
  obtain ⟨hr, env', hb'⟩ := bindParams_idents hb h
  have hdel : Delivers S (visitPats (params method.sig)) args (fnArgs method.sig) args :=
    delivers_visitPats (hn.sublist (names_visitPats _)) hv hb' hr (mapM_fnArgs ..)
  -- Both methods have the cleaned parameters, and all their calls have the same arguments.
  obtain ⟨hinputs, hne, hcalls⟩ : f.sig.inputs =
      (DynMethod.new casing crate traitGenerics method).dynMethod.sig.inputs ∧
        dynCalls f.block.value ≠ [] ∧
        ∀ exprs ∈ dynCalls f.block.value, exprs = fnArgs method.sig := by
    rcases hf with rfl | hf
    · rw [dynCalls_implMethod]
      exact ⟨rfl, List.cons_ne_nil _ _, by simp [DynMethod.new]⟩
    · obtain ⟨hcalls, hi⟩ := dynCalls_maybeSyncImpl hf
      rw [hcalls]
      exact ⟨hi, List.cons_ne_nil _ _, by simp [DynMethod.new]⟩
  refine ⟨hne, ?_⟩
  intro exprs he
  have hparams : params f.sig = method.sig.inputs.map fun arg => argPat (visitFnArg arg) := by
    rw [params, hinputs]
    exact params_new ..
  rw [hcalls exprs he, hparams]
  exact delivers_visitFnArg.mpr hdel

/-- They arrive exactly then, and are declared as Rust requires if the receiver is not
`mut self`. -/
theorem dynTraitForwards_iff (casing : Casing) (crate : Path) (traitGenerics : List Ident)
    (method : TraitItemFn) {args : List Val} {env : Env}
    (hb : Pat.bindArgs S (params method.sig) args = some env) (hv : FromCallers args) :
    DynTraitForwards S casing (.new casing crate traitGenerics method) args ↔
      (∀ p ∈ params method.sig, IsIdent p) ∧ ∀ arg ∈ method.sig.inputs, isMutSelf arg = false := by
  constructor
  · rintro ⟨hd, hc⟩
    rw [params_new, List.forall_mem_map] at hd
    obtain ⟨-, hcalls⟩ := hc _ (Or.inl rfl)
    rw [dynCalls_implMethod] at hcalls
    obtain ⟨Γ, -, hm⟩ := hcalls _ (List.mem_singleton_self _)
    have heval := evalElems_mem ((mapM_fnArgs S Γ _).symm.trans hm)
    refine ⟨List.forall_mem_map.mpr ?_, ?_⟩
    · intro arg ha
      obtain ⟨v, hv⟩ := heval _ (mem_visitPats.mpr ⟨_, List.mem_map.mpr ⟨arg, ha, rfl⟩, rfl⟩)
      cases arg with
      | receiver r => trivial
      | typed p ty =>
        have hdecl : Declarable (visitPat p) := hd _ ha
        cases p with
        | ident byRef mutability x subpat => trivial
        | wild => cases hv
        | _ => exact hdecl.elim
    · intro arg ha
      cases arg with
      | receiver r => exact (hd _ ha).2.1
      | typed p ty => rfl
  · rintro ⟨h, hself⟩
    refine ⟨?_, called_of_idents casing crate traitGenerics method hb hv h⟩
    rw [params_new, List.forall_mem_map]
    intro arg ha
    cases arg with
    | receiver r => exact ⟨rfl, hself _ ha, rfl⟩
    | typed p ty =>
      have hident : IsIdent p := h _ (List.mem_map.mpr ⟨_, ha, rfl⟩)
      cases p with
      | ident byRef mutability x subpat => exact ⟨rfl, rfl, rfl⟩
      | _ => exact hident.elim

theorem exists_receiver (method : DispatchableFn) :
    ∃ r args, method.sig.inputs = .receiver r :: args := by
  have h := method.receiver_isSome
  unfold Signature.receiver at h
  split at h
  · rename_i r args he
    exact ⟨r, args, he⟩
  · cases h

section
variable {method : DispatchableFn} {r : Receiver} {inputs : List FnArg}
  (hi : method.sig.inputs = .receiver r :: inputs)

include hi

theorem drop_fnArgs : (fnArgs method.sig).drop 1 = inputs.map fun
    | .receiver _ => selfArg
    | .typed pat _ => .pat (visitPat pat) := by
  rw [fnArgs, hi]
  rfl

/-- The closure has the cleaned patterns of the other parameters. -/
theorem closureOf_vtableMethod : ∃ exprs,
    closureOf (DynObject.vtableMethod method).2 =
        some (.path (.ofIdents false ["__self"]) :: (fnArgs method.sig).drop 1, exprs) ∧
      ((.path (.ofIdents false ["__self"]) :: (fnArgs method.sig).drop 1 : List Expr).mapM inputPat =
        some (.ident false false "__self" none :: visitPats (inputs.map argPat))) ∧
      ∀ Γ, exprs.mapM (evalArg S Γ) = Pat.evalElems S Γ (visitPats (inputs.map argPat)) := by
  refine ⟨_, rfl, ?_, fun Γ => ?_⟩
  · rw [drop_fnArgs hi, List.mapM_cons, List.mapM_map]
    have hin : inputs.mapM (inputPat ∘ fun
        | .receiver _ => selfArg
        | .typed pat _ => .pat (visitPat pat)) = some (visitPats (inputs.map argPat)) := by
      clear hi
      induction inputs with
      | nil => rfl
      | cons arg inputs ih =>
        rw [List.mapM_cons, ih]
        cases arg <;> rfl
    rw [hin]
    rfl
  · rw [drop_fnArgs hi, List.mapM_map, List.mapM_map]
    exact evalElems_params S Γ inputs fun arg => by cases arg <;> rfl

theorem pointerArgs_implMethod : ∃ exprs,
    pointerArgs (DynObject.implMethod method).block.value = some exprs ∧
      ∀ Γ, exprs.mapM (evalArg S Γ) = Pat.evalElems S Γ (visitPats (inputs.map argPat)) := by
  refine ⟨_, rfl, fun Γ => ?_⟩
  rw [drop_fnArgs hi, List.mapM_map]
  exact evalElems_params S Γ inputs fun arg => by cases arg <;> rfl

end

/-- The arguments of a `dyn_object` method arrive exactly if each pattern reads back what is
passed for it, and none takes the name that the closure has for the storage. -/
theorem dynObjectForwards_iff (method : DispatchableFn) {args : List Val} {env : Env}
    (hb : Pat.bindArgs S (params method.sig) args = some env) (hv : FromCallers args)
    (storage : Val) :
    DynObjectForwards S method storage args ↔ ReadsBackElems S (params method.sig) args ∧
      "__self" ∉ Pat.namesElems (visitPats (params method.sig)) := by
  obtain ⟨r, inputs, hi⟩ := exists_receiver method
  obtain ⟨hparams, hn⟩ := Pat.bindArgs_eq_some.mp hb
  have henv : Part env env := part_self (by rwa [Pat.bindParams_names hparams])
  have hps : params method.sig =
      .ident false (isMutSelf (.receiver r)) "self" none :: inputs.map argPat := by
    rw [params, hi]
    rfl
  rw [hps] at hparams hn ⊢
  obtain ⟨recv, vals, own, rest, rfl, ho, hr, rfl⟩ := Pat.bindParams_cons.mp hparams
  have hreads : ReadsBackElems S
      (.ident false (isMutSelf (.receiver r)) "self" none :: inputs.map argPat) (recv :: vals) ↔ ReadsBackElems S (inputs.map argPat) vals :=
    and_iff_right rfl
  have hnames : "__self" ∉ Pat.namesElems (visitPats
      (.ident false (isMutSelf (.receiver r)) "self" none :: inputs.map argPat)) ↔
        "__self" ∉ Pat.namesElems (visitPats (inputs.map argPat)) := by
    simp [visitPats, visitPat, Pat.namesElems, Pat.names, Pat.namesSub]
  rw [hreads, hnames]
  obtain ⟨erased, hclosure, hinputs, herased⟩ := closureOf_vtableMethod (S := S) hi
  obtain ⟨given, hpointer, hgiven⟩ := pointerArgs_implMethod (S := S) hi
  constructor
  · rintro ⟨⟨_, _, ps, hc, hp, Γ, hΓ, -⟩, exprs, he, Γ', hΓ', hm⟩
    obtain ⟨rfl, rfl⟩ := Prod.mk.inj (Option.some.inj (hclosure.symm.trans hc))
    obtain rfl := Option.some.inj (hinputs.symm.trans hp)
    obtain rfl := Option.some.inj (hpointer.symm.trans he)
    obtain rfl : Γ' = own ++ rest := Option.some.inj (hΓ'.symm.trans hb)
    refine ⟨(evalParams_iff hv.2 henv.append.2 hr).mp ((hgiven _).symm.trans hm), ?_⟩
    have hnd := (Pat.bindArgs_eq_some.mp hΓ).2
    simp only [Pat.namesElems, Pat.names, Pat.namesSub, List.singleton_append,
      List.nodup_cons] at hnd
    exact hnd.1
  · rintro ⟨hreads, hself⟩
    have hnr : (Pat.namesElems (inputs.map argPat)).Nodup :=
      (List.nodup_append.mp hn).2.1
    obtain ⟨hreads', env', hr'⟩ := bindParams_visitPats hr hreads
    have hbind : Pat.bindParams S (.ident false false "__self" none ::
        visitPats (inputs.map argPat)) (storage :: vals) = some (("__self", storage) :: env') :=
      Pat.bindParams_cons.mpr ⟨storage, vals, [("__self", storage)], env', rfl, rfl, hr', rfl⟩
    have hnodup : (Pat.namesElems (.ident false false "__self" none ::
        visitPats (inputs.map argPat))).Nodup :=
      List.nodup_cons.mpr ⟨hself, hnr.sublist (names_visitPats _)⟩
    have hΓ : Part (("__self", storage) :: env') (("__self", storage) :: env') :=
      part_self (by rwa [Pat.bindParams_names hbind])
    have hsub : Part env' (("__self", storage) :: env') :=
      fun b hb => hΓ b (List.mem_cons_of_mem _ hb)
    refine ⟨⟨_, erased, _, hclosure, hinputs, _, Pat.bindArgs_eq_some.mpr ⟨hbind, hnodup⟩, ?_⟩,
      given, hpointer, _, hb, ?_⟩
    · rw [herased, ← visitPats_visitPats]
      exact (evalParams_iff hv.2 hsub hr').mpr hreads'
    · rw [hgiven]
      exact (evalParams_iff hv.2 henv.append.2 hr).mpr hreads

/-- When arguments that match the patterns of a method arrive in what each of the two macros
makes of it. -/
theorem forwards_iff (S : Types) (casing : Casing) (crate : Path) (traitGenerics : List Ident)
    (method : DispatchableFn) {args : List Val} {env : Env}
    (hb : Pat.bindArgs S (params method.sig) args = some env) (hv : FromCallers args)
    (storage : Val) :
    (DynTraitForwards S casing (.new casing crate traitGenerics method.toTraitItemFn) args ↔
        (∀ p ∈ params method.sig, IsIdent p) ∧
          ∀ arg ∈ method.sig.inputs, isMutSelf arg = false) ∧
      (DynObjectForwards S method storage args ↔ ReadsBackElems S (params method.sig) args ∧
        "__self" ∉ Pat.namesElems (visitPats (params method.sig))) :=
  ⟨dynTraitForwards_iff casing crate traitGenerics method.toTraitItemFn hb hv,
    dynObjectForwards_iff method hb hv storage⟩

/-- Nothing in scope but atoms. -/
def noTypes : Types := ⟨id, fun _ => [], fun _ => List.nodup_nil⟩

/-- `fn nth(&self, #pat: usize);` -/
def nth (pat : Pat) : DispatchableFn where
  attrs := []
  sig := {
    asyncness := false
    unsafety := false
    ident := "nth"
    generics := ⟨[], none⟩
    inputs := [.receiver ⟨some none, false, false, .reference none false (.ofIdent "Self")⟩,
      .typed pat (.ofIdent "usize")]
    output := .default }
  default := none
  dispatchable := rfl

/-- What is named arrives. -/
theorem forwards_iff_nth :
    DynTraitForwards noTypes .ascii
        (.new .ascii crateName [] (nth (.ident false false "n" none)).toTraitItemFn)
        [.atom 0, .atom 1] ∧
      DynObjectForwards noTypes (nth (.ident false false "n" none)) (.atom 2)
        [.atom 0, .atom 1] := by
  have h := forwards_iff noTypes .ascii crateName [] (nth (.ident false false "n" none))
    (rfl : Pat.bindArgs noTypes _ [.atom 0, .atom 1] = some [("self", .atom 0), ("n", .atom 1)])
    (by simp [FromCallers, Val.FromCaller]) (.atom 2)
  refine ⟨h.1.mpr ⟨?_, ?_⟩, h.2.mpr ⟨?_, ?_⟩⟩
  · simp [params, nth, argPat, IsIdent]
  · simp [nth, isMutSelf]
  · simp [params, nth, argPat, ReadsBackElems, ReadsBack]
  · decide

/-- What is not named does not. -/
theorem nth_wild_lost : ¬ ∀ (S : Types) (casing : Casing) (crate : Path)
    (traitGenerics : List Ident) (method : DispatchableFn) (args : List Val) (env : Env),
    Pat.bindArgs S (params method.sig) args = some env → FromCallers args → ∀ storage : Val,
      DynTraitForwards S casing (.new casing crate traitGenerics method.toTraitItemFn) args ∧
        DynObjectForwards S method storage args := by
  intro h
  have hb : Pat.bindArgs noTypes (params (nth .wild).sig) [.atom 0, .atom 1] =
      some [("self", .atom 0)] := rfl
  have hv : FromCallers [.atom 0, .atom 1] := by simp [FromCallers, Val.FromCaller]
  have hobj := (h noTypes .ascii crateName [] (nth .wild) _ _ hb hv (.atom 2)).2
  exact ((dynObjectForwards_iff (nth .wild) hb hv (.atom 2)).mp hobj).1.2.1

end DynUtils.Macros.Forwarding
