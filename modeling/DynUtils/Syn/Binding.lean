import DynUtils.Syn.Ast

/-! What patterns bind, and what they give when they are read as expressions. -/
namespace Syn

/-- Where a value stands: with the caller, or in the frame of the function. -/
inductive Place
  | caller (id : ℕ)
  | frame
  | elem (place : Place) (index : ℕ)
  | field (place : Place) (member : Ident)

/-- `adt` is a struct, or a variant, with its fields in the order of the declaration. -/
inductive Val
  | atom (id : ℕ)
  /-- What `..` is as an expression. -/
  | rangeFull
  | tuple (elems : List Val)
  | adt (ctor : Ident) (fields : List Val)
  | array (elems : List Val)
  | ref (mutability : Bool) (place : Place) (val : Val)

def Place.inFrame : Place → Bool
  | caller _ => false
  | frame => true
  | elem place _ | field place _ => place.inFrame

mutual

/-- The value was there before the function was called. -/
def Val.FromCaller : Val → Prop
  | .atom _ | .rangeFull => True
  | .tuple vs | .adt _ vs | .array vs => FromCallers vs
  | .ref _ place v => place.inFrame = false ∧ v.FromCaller

def FromCallers : List Val → Prop
  | [] => True
  | v :: vs => v.FromCaller ∧ FromCallers vs

end

abbrev Env := List (Ident × Val)

/-- What a name stands for where no name is there twice. -/
theorem lookup_of_mem {β : Type} {l : List (Ident × β)} (hn : (l.map (·.1)).Nodup)
    {b : Ident × β} (h : b ∈ l) : l.lookup b.1 = some b.2 := by
  induction l with
  | nil => cases h
  | cons c l ih =>
    obtain ⟨hc, hn⟩ := List.nodup_cons.mp hn
    rcases List.mem_cons.mp h with rfl | h
    · exact List.lookup_cons_self
    · have hne : b.1 ≠ c.1 := fun he => hc (List.mem_map.mpr ⟨b, h, he⟩)
      rw [List.lookup_cons, beq_false_of_ne hne]
      exact ih hn h

/-- What the paths of patterns stand for, and the members of the types. -/
structure Types where
  ctor : Tokens → Ident
  members : Ident → List Ident
  nodup : ∀ ctor, (members ctor).Nodup

/-- How an identifier binds: by value, or by reference below a reference that the pattern
went through. -/
abbrev Mode := Option Bool

namespace Mode

def through (mode : Mode) (mutability : Bool) : Mode :=
  match mode with
  | none => some mutability
  | some m => some (m && mutability)

def bound (mode : Mode) (byRef mutability : Bool) (place : Place) (v : Val) : Val :=
  match mode with
  | some m => .ref m place v
  | none => if byRef then .ref mutability place v else v

end Mode

/-- A pattern that is not a reference goes through references. -/
def Val.peel (mode : Mode) (place : Place) : Val → Mode × Place × Val
  | .ref mutability place v => v.peel (mode.through mutability) place
  | v => (mode, place, v)

namespace Pat

/-- `..` or `x @ ..`, which take any number of elements. -/
def slurp : Pat → Option (Option (Bool × Bool × Ident))
  | .rest => some none
  | .ident byRef mutability x (some .rest) => some (some (byRef, mutability, x))
  | _ => none

/-- `(..)` is no tuple when it is read as an expression. -/
def isRest : List Pat → Bool
  | [.rest] => true
  | _ => false

mutual

/-- The identifiers that a pattern binds. -/
def names : Pat → List Ident
  | .ident _ _ x subpat => x :: namesSub subpat
  | .wild | .rest | .other _ => []
  | .tuple elems | .tupleStruct _ elems | .slice elems => namesElems elems
  | .struct _ fields _ => namesFields fields
  | .reference _ pat | .paren pat => names pat

def namesSub : Option Pat → List Ident
  | none => []
  | some p => names p

def namesElems : List Pat → List Ident
  | [] => []
  | p :: ps => names p ++ namesElems ps

def namesFields : List FieldPat → List Ident
  | [] => []
  | .mk _ p :: fs => names p ++ namesFields fs

end

def memberOf : FieldPat → Ident
  | .mk member _ => member

/-- The fields of a struct pattern are those of the struct, each at most once, and all of
them unless there is a `..`. -/
def fieldsOk (members : List Ident) (fields : List FieldPat) (dots : Bool) : Bool :=
  (fields.map memberOf).Nodup && (dots || members.all (· ∈ fields.map memberOf))

/-- What `..` and `x @ ..` bind. `many` says that elements may be bound together. -/
def bindSlurped (many : Bool) (mode : Mode) (place : Place) (vs : List Val) :
    Option (Bool × Bool × Ident) → Option Env
  | none => some []
  | some (byRef, mutability, x) =>
    if many then some [(x, mode.bound byRef mutability place (.array vs))] else none

variable (S : Types)

mutual

def bind : Pat → Mode → Place → Val → Option Env
  | .ident byRef mutability x subpat, mode, place, v => do
    let env ← bindSub subpat mode place v
    return (x, mode.bound byRef mutability place v) :: env
  | .wild, _, _, _ => some []
  | .rest, _, _, _ | .other _, _, _, _ => none
  | .tuple elems, mode, place, v =>
    match v.peel mode place with
    | (mode, place, .tuple vs) => bindElems elems false mode place 0 vs
    | _ => none
  | .tupleStruct path elems, mode, place, v =>
    match v.peel mode place with
    | (mode, place, .adt ctor vs) =>
      if S.ctor path = ctor then bindElems elems false mode place 0 vs else none
    | _ => none
  | .struct path fields dots, mode, place, v =>
    match v.peel mode place with
    | (mode, place, .adt ctor vs) =>
      if S.ctor path = ctor ∧ vs.length = (S.members ctor).length ∧
          fieldsOk (S.members ctor) fields dots then
        bindFields fields mode place ((S.members ctor).zip vs)
      else none
    | _ => none
  | .reference mutability pat, mode, _, v =>
    match mode, v with
    | none, .ref mutability' place v =>
      if mutability = mutability' then bind pat none place v else none
    | _, _ => none
  | .paren pat, mode, place, v => bind pat mode place v
  | .slice elems, mode, place, v =>
    match v.peel mode place with
    | (mode, place, .array vs) => bindElems elems true mode place 0 vs
    | _ => none

def bindSub : Option Pat → Mode → Place → Val → Option Env
  | none, _, _, _ => some []
  | some p, mode, place, v => bind p mode place v

def bindElems : List Pat → Bool → Mode → Place → ℕ → List Val → Option Env
  | [], _, _, _, _, vs => if vs.isEmpty then some [] else none
  | p :: ps, many, mode, place, i, vs =>
    match p.slurp with
    | some slurped =>
      let n := vs.length - ps.length
      if ps.length ≤ vs.length then do
        let env ← bindSlurped many mode (place.elem i) (vs.take n) slurped
        return env ++ (← bindElems ps many mode place (i + n) (vs.drop n))
      else none
    | none =>
      match vs with
      | [] => none
      | v :: vs => do
        let env ← bind p mode (place.elem i) v
        return env ++ (← bindElems ps many mode place (i + 1) vs)

def bindFields : List FieldPat → Mode → Place → List (Ident × Val) → Option Env
  | [], _, _, _ => some []
  | .mk member p :: fs, mode, place, vals => do
    let v ← vals.lookup member
    let env ← bind p mode (place.field member) v
    return env ++ (← bindFields fs mode place vals)

end

mutual

/-- A pattern that is printed where an expression is expected. `none` is an error of the
compiler. -/
def eval (env : Env) : Pat → Option Val
  | .ident false false x none => env.lookup x
  | .ident _ _ _ _ | .wild | .other _ => none
  | .rest => some .rangeFull
  | .tuple elems => if isRest elems then some .rangeFull else (evalElems env elems).map .tuple
  | .tupleStruct path elems => (evalElems env elems).map (.adt (S.ctor path))
  | .struct path fields dots => do
    let vals ← evalFields env fields
    if dots then none
    else (.adt (S.ctor path)) <$> (S.members (S.ctor path)).mapM fun m => vals.lookup m
  | .reference mutability pat => (eval env pat).map (.ref mutability .frame)
  | .paren pat => eval env pat
  | .slice elems => (evalElems env elems).map .array

def evalElems (env : Env) : List Pat → Option (List Val)
  | [] => some []
  | p :: ps => do return (← eval env p) :: (← evalElems env ps)

def evalFields (env : Env) : List FieldPat → Option (List (Ident × Val))
  | [] => some []
  | .mk member p :: fs => do return (member, ← eval env p) :: (← evalFields env fs)

end

/-- The parameters of a function, one pattern for each argument. -/
def bindParams : List Pat → List Val → Option Env
  | [], [] => some []
  | p :: ps, v :: vs => do
    let env ← bind S p none .frame v
    return env ++ (← bindParams ps vs)
  | _, _ => none

/-- The scope of a function body. No two parameters have one name. -/
def bindArgs (ps : List Pat) (vs : List Val) : Option Env :=
  (bindParams S ps vs).filter fun env => (env.map (·.1)).Nodup

section
variable {S}

/-- `..` and `x @ ..` take what the others leave. -/
theorem bindElems_slurp {p : Pat} {ps : List Pat} {many : Bool} {mode : Mode} {place : Place}
    {i : ℕ} {vs : List Val} {env : Env} {slurped : Option (Bool × Bool × Ident)}
    (hs : p.slurp = some slurped) (h : bindElems S (p :: ps) many mode place i vs = some env) :
    ps.length ≤ vs.length ∧ ∃ own rest,
      bindSlurped many mode (place.elem i) (vs.take (vs.length - ps.length)) slurped = some own ∧
      bindElems S ps many mode place (i + (vs.length - ps.length))
        (vs.drop (vs.length - ps.length)) = some rest ∧ env = own ++ rest := by
  simp only [bindElems, hs] at h
  split at h
  · rename_i hl
    simp only [Option.bind_eq_bind, Option.bind_eq_some_iff, Option.pure_def,
      Option.some.injEq] at h
    obtain ⟨own, ho, rest, hr, rfl⟩ := h
    exact ⟨hl, own, rest, ho, hr, rfl⟩
  · cases h

theorem bindSlurped_some {many : Bool} {mode : Mode} {place : Place} {vs : List Val} {env : Env}
    {b : Bool × Bool × Ident} (h : bindSlurped many mode place vs (some b) = some env) :
    env = [(b.2.2, mode.bound b.1 b.2.1 place (.array vs))] := by
  simp only [bindSlurped] at h
  split at h
  · exact (Option.some.inj h).symm
  · cases h

theorem bindElems_cons {p : Pat} {ps : List Pat} {many : Bool} {mode : Mode} {place : Place}
    {i : ℕ} {vs : List Val} {env : Env} (hs : p.slurp = none)
    (h : bindElems S (p :: ps) many mode place i vs = some env) :
    ∃ v vs' own rest, vs = v :: vs' ∧ bind S p mode (place.elem i) v = some own ∧
      bindElems S ps many mode place (i + 1) vs' = some rest ∧ env = own ++ rest := by
  simp only [bindElems, hs] at h
  cases vs with
  | nil => cases h
  | cons v vs =>
    simp only [Option.bind_eq_bind, Option.bind_eq_some_iff, Option.pure_def,
      Option.some.injEq] at h
    obtain ⟨own, ho, rest, hr, rfl⟩ := h
    exact ⟨v, vs, own, rest, rfl, ho, hr, rfl⟩

theorem bindFields_cons {member : Ident} {p : Pat} {fs : List FieldPat} {mode : Mode}
    {place : Place} {vals : List (Ident × Val)} {env : Env}
    (h : bindFields S (.mk member p :: fs) mode place vals = some env) :
    ∃ v own rest, vals.lookup member = some v ∧
      bind S p mode (place.field member) v = some own ∧
      bindFields S fs mode place vals = some rest ∧ env = own ++ rest := by
  simp only [bindFields, Option.bind_eq_bind, Option.bind_eq_some_iff, Option.pure_def,
    Option.some.injEq] at h
  obtain ⟨v, hv, own, ho, rest, hr, rfl⟩ := h
  exact ⟨v, own, rest, hv, ho, hr, rfl⟩

/-- What `..` and `x @ ..` are, as patterns. -/
theorem slurp_eq_some {p : Pat} {slurped : Option (Bool × Bool × Ident)}
    (h : p.slurp = some slurped) :
    match slurped with
    | none => p = .rest
    | some (byRef, mutability, x) => p = .ident byRef mutability x (some .rest) := by
  unfold slurp at h
  split at h
  · obtain rfl := Option.some.inj h
    rfl
  · obtain rfl := Option.some.inj h
    rfl
  · cases h

mutual

/-- A pattern binds its own names, in order. -/
theorem bind_names {mode : Mode} {place : Place} {v : Val} {env : Env} :
    ∀ p : Pat, bind S p mode place v = some env → env.map (·.1) = names p
  | .ident byRef mutability x subpat, h => by
    simp only [bind, Option.bind_eq_bind, Option.bind_eq_some_iff, Option.pure_def,
      Option.some.injEq] at h
    obtain ⟨sub, hs, rfl⟩ := h
    simp [names, bindSub_names subpat hs]
  | .wild, h => by
    obtain rfl := Option.some.inj h
    rfl
  | .rest, h | .other _, h => by cases h
  | .tuple elems, h | .tupleStruct _ elems, h | .slice elems, h => by
    simp only [bind] at h
    split at h
    · first
        | exact bindElems_names elems h
        | (split at h
           · exact bindElems_names elems h
           · cases h)
    · cases h
  | .struct path fields dots, h => by
    simp only [bind] at h
    split at h
    · split at h
      · exact bindFields_names fields h
      · cases h
    · cases h
  | .reference mutability pat, h => by
    simp only [bind] at h
    split at h
    · split at h
      · exact bind_names pat h
      · cases h
    · cases h
  | .paren pat, h => bind_names pat h

theorem bindSub_names {mode : Mode} {place : Place} {v : Val} {env : Env} :
    ∀ p : Option Pat, bindSub S p mode place v = some env → env.map (·.1) = namesSub p
  | none, h => by
    obtain rfl := Option.some.inj h
    rfl
  | some p, h => bind_names p h

theorem bindElems_names {many : Bool} {mode : Mode} {place : Place} {i : ℕ} {vs : List Val}
    {env : Env} : ∀ ps : List Pat, bindElems S ps many mode place i vs = some env →
      env.map (·.1) = namesElems ps
  | [], h => by
    simp only [bindElems] at h
    split at h
    · obtain rfl := Option.some.inj h
      rfl
    · cases h
  | p :: ps, h => by
    cases hs : p.slurp with
    | some slurped =>
      obtain ⟨-, own, rest, ho, hr, rfl⟩ := bindElems_slurp hs h
      have hp := slurp_eq_some hs
      rw [List.map_append, bindElems_names ps hr, namesElems]
      congr 1
      cases slurped with
      | none =>
        obtain rfl := Option.some.inj ho
        rw [show p = .rest from hp]
        rfl
      | some b =>
        rw [bindSlurped_some ho, show p = .ident _ _ _ (some .rest) from hp]
        rfl
    | none =>
      obtain ⟨v, vs', own, rest, rfl, ho, hr, rfl⟩ := bindElems_cons hs h
      simp [namesElems, bind_names p ho, bindElems_names ps hr]

theorem bindFields_names {mode : Mode} {place : Place} {vals : List (Ident × Val)}
    {env : Env} : ∀ fs : List FieldPat, bindFields S fs mode place vals = some env →
      env.map (·.1) = namesFields fs
  | [], h => by
    obtain rfl := Option.some.inj h
    rfl
  | .mk member p :: fs, h => by
    obtain ⟨v, own, rest, -, ho, hr, rfl⟩ := bindFields_cons h
    simp [namesFields, bind_names p ho, bindFields_names fs hr]

end

theorem bindParams_cons {p : Pat} {ps : List Pat} {vs : List Val} {env : Env} :
    bindParams S (p :: ps) vs = some env ↔ ∃ v vs' own rest, vs = v :: vs' ∧
      bind S p none .frame v = some own ∧ bindParams S ps vs' = some rest ∧
      env = own ++ rest := by
  cases vs with
  | nil => simp [bindParams]
  | cons v vs =>
    simp only [bindParams, Option.bind_eq_bind, Option.bind_eq_some_iff, Option.pure_def,
      Option.some.injEq, List.cons.injEq]
    constructor
    · rintro ⟨own, ho, rest, hr, rfl⟩
      exact ⟨v, vs, own, rest, ⟨rfl, rfl⟩, ho, hr, rfl⟩
    · rintro ⟨_, _, own, rest, ⟨rfl, rfl⟩, ho, hr, rfl⟩
      exact ⟨own, ho, rest, hr, rfl⟩

theorem bindParams_names {ps : List Pat} {vs : List Val} {env : Env}
    (h : bindParams S ps vs = some env) : env.map (·.1) = namesElems ps := by
  induction ps generalizing vs env with
  | nil =>
    cases vs with
    | nil =>
      obtain rfl := Option.some.inj h
      rfl
    | cons v vs => cases h
  | cons p ps ih =>
    obtain ⟨v, vs', own, rest, rfl, ho, hr, rfl⟩ := bindParams_cons.mp h
    simp [namesElems, bind_names p ho, ih hr]

theorem bindArgs_eq_some {ps : List Pat} {vs : List Val} {env : Env} :
    bindArgs S ps vs = some env ↔ bindParams S ps vs = some env ∧ (namesElems ps).Nodup := by
  simp only [bindArgs, Option.filter_eq_some_iff, decide_eq_true_eq]
  exact and_congr_right fun h => by rw [bindParams_names h]

theorem evalElems_length {env : Env} {ps : List Pat} {vs : List Val}
    (h : evalElems S env ps = some vs) : vs.length = ps.length := by
  induction ps generalizing vs with
  | nil =>
    obtain rfl := Option.some.inj h
    rfl
  | cons p ps ih =>
    simp only [evalElems, Option.bind_eq_bind, Option.bind_eq_some_iff, Option.pure_def,
      Option.some.injEq] at h
    obtain ⟨v, -, vs, hvs, rfl⟩ := h
    simp [ih hvs]

theorem evalElems_cons {env : Env} {p : Pat} {ps : List Pat} {v : Val} {vs : List Val} :
    evalElems S env (p :: ps) = some (v :: vs) ↔
      eval S env p = some v ∧ evalElems S env ps = some vs := by
  simp only [evalElems, Option.bind_eq_bind, Option.bind_eq_some_iff, Option.pure_def,
    Option.some.injEq, List.cons.injEq]
  constructor
  · rintro ⟨v, hv, vs, hvs, rfl, rfl⟩
    exact ⟨hv, hvs⟩
  · rintro ⟨hv, hvs⟩
    exact ⟨v, hv, vs, hvs, rfl, rfl⟩

end

end Pat

end Syn
