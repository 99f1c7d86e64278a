import Mathlib.Tactic.Common

/-! What identifiers consist of, and how their case is changed. -/
namespace Names

/-- What Unicode says of characters, as far as identifiers and their case depend on it. -/
structure Chars where
  isStart : Char → Bool
  isContinue : Char → Bool
  isAlphanumeric : Char → Bool
  toUppercase : Char → List Char
  toLowercase : Char → List Char
  continue_of_ascii {c : Char} : c.isAlphanum = true → isContinue c = true
  continue_of_start {c : Char} : isStart c = true → isContinue c = true
  continue_underscore : isContinue '_' = true
  not_continue_hash : isContinue '#' = false
  not_alphanumeric_hash : isAlphanumeric '#' = false
  uppercase_underscore : toUppercase '_' = ['_']
  uppercase_hash : toUppercase '#' = ['#']
  start_uppercase {c : Char} : isStart c = true → ∃ d ds, toUppercase c = d :: ds ∧ isStart d = true
  continue_uppercase {c : Char} : isContinue c = true → ∀ d ∈ toUppercase c, isContinue d = true
  continue_lowercase {c : Char} : isContinue c = true → ∀ d ∈ toLowercase c, isContinue d = true
  /-- Letters and digits stay what they are. -/
  not_underscore {c : Char} : isAlphanumeric c = true → '_' ∉ toUppercase c ++ toLowercase c

namespace Chars

/-- What an identifier may be, apart from the keywords and `r#`. -/
def isIdent (chars : Chars) (s : String) : Bool :=
  match s.toList with
  | [] => false
  | c :: cs => (chars.isStart c || c == '_') && cs.all chars.isContinue

variable {chars : Chars} {s t : String}

theorem isIdent_iff : chars.isIdent s = true ↔
    ∃ c cs, s.toList = c :: cs ∧ (chars.isStart c = true ∨ c = '_') ∧
      ∀ d ∈ cs, chars.isContinue d = true := by
  unfold isIdent
  cases s.toList with
  | nil => simp
  | cons c cs => simp

theorem continue_of_isIdent (h : chars.isIdent s = true) :
    ∀ c ∈ s.toList, chars.isContinue c = true := by
  obtain ⟨c, cs, hs, hc, hcs⟩ := isIdent_iff.mp h
  rw [hs, List.forall_mem_cons]
  refine ⟨?_, hcs⟩
  rcases hc with hc | rfl
  · exact chars.continue_of_start hc
  · exact chars.continue_underscore

/-- An identifier may be continued. -/
theorem isIdent_append (h : chars.isIdent s = true)
    (ht : ∀ c ∈ t.toList, chars.isContinue c = true) : chars.isIdent (s ++ t) = true := by
  obtain ⟨c, cs, hs, hc, hcs⟩ := isIdent_iff.mp h
  refine isIdent_iff.mpr ⟨c, cs ++ t.toList, ?_, hc, ?_⟩
  · rw [String.toList_append, hs, List.cons_append]
  · exact List.forall_mem_append.mpr ⟨hcs, ht⟩

/-- `s.to_uppercase()`, as its characters. -/
def uppercase (chars : Chars) (s : String) : List Char := s.toList.flatMap chars.toUppercase

/-- Identifiers stay identifiers in upper case. -/
theorem isIdent_uppercase (h : chars.isIdent s = true) (ht : t.toList = chars.uppercase s) :
    chars.isIdent t = true := by
  have hall : ∀ d ∈ chars.uppercase s, chars.isContinue d = true := by
    intro d hd
    obtain ⟨c, hc, hd⟩ := List.mem_flatMap.mp hd
    exact chars.continue_uppercase (continue_of_isIdent h c hc) d hd
  obtain ⟨c, cs, hs, hc, -⟩ := isIdent_iff.mp h
  obtain ⟨d, ds, hd, hstart⟩ : ∃ d ds, chars.toUppercase c = d :: ds ∧
      (chars.isStart d = true ∨ d = '_') := by
    rcases hc with hc | rfl
    · obtain ⟨d, ds, hd, hstart⟩ := chars.start_uppercase hc
      exact ⟨d, ds, hd, Or.inl hstart⟩
    · exact ⟨'_', [], chars.uppercase_underscore, Or.inr rfl⟩
  have htext : chars.uppercase s = d :: (ds ++ cs.flatMap chars.toUppercase) := by
    rw [uppercase, hs, List.flatMap_cons, hd, List.cons_append]
  rw [htext] at ht hall
  exact isIdent_iff.mpr ⟨d, _, ht, hstart, (List.forall_mem_cons.mp hall).2⟩

end Chars

/-! Names in ASCII. -/

namespace Ascii

/-- What the current word has ended in so far. -/
inductive Mode
  | boundary
  | lowercase
  | uppercase
deriving DecidableEq

def Mode.next (mode : Mode) (c : Char) : Mode :=
  if c.isLower then .lowercase else if c.isUpper then .uppercase else mode

/-- The words of a name: they end at what is no letter or digit, after a lower case letter
before an upper case one, and before the last of several upper case letters if a lower case one
follows. -/
def words : Mode → List Char → List Char → List (List Char)
  | _, word, [] => [word]
  | mode, word, c :: cs =>
    if !c.isAlphanum then word :: words .boundary [] cs
    else if mode.next c = .lowercase ∧ cs.head?.any Char.isUpper then
      (word ++ [c]) :: words .boundary [] cs
    else if mode = .uppercase ∧ c.isUpper ∧ cs.head?.any Char.isLower then
      word :: words .boundary [c] cs
    else words (mode.next c) (word ++ [c]) cs

def capitalize : List Char → List Char
  | [] => []
  | c :: cs => c.toUpper :: cs.map Char.toLower

def toPascalCase (s : String) : String :=
  String.ofList ((words .boundary [] s.toList).flatMap capitalize)

def toUppercase (s : String) : String := String.ofList (s.toList.map Char.toUpper)

/-- Splitting leaves out what is no letter or digit, and nothing else. -/
theorem flatten_words (mode : Mode) (word cs : List Char) :
    (words mode word cs).flatten = word ++ cs.filter Char.isAlphanum := by
  induction cs generalizing mode word with
  | nil => simp [words]
  | cons c cs ih =>
    simp only [words]
    split
    · rename_i hc
      simp_all
    · rename_i hc
      have hc : c.isAlphanum = true := by simpa using hc
      split
      · simp [ih, hc]
      · split <;> simp [ih, hc]

theorem mem_capitalize {d : Char} {word : List Char} (h : d ∈ capitalize word) :
    ∃ c ∈ word, d = c.toUpper ∨ d = c.toLower := by
  cases word with
  | nil => cases h
  | cons c cs =>
    rcases List.mem_cons.mp h with rfl | h
    · exact ⟨c, List.mem_cons_self, Or.inl rfl⟩
    · obtain ⟨c', hc', rfl⟩ := List.mem_map.mp h
      exact ⟨c', List.mem_cons_of_mem _ hc', Or.inr rfl⟩

/-- A recased name consists of recased letters and digits. -/
theorem mem_toPascalCase {s : String} {d : Char} (h : d ∈ (toPascalCase s).toList) :
    ∃ c ∈ s.toList, c.isAlphanum = true ∧ (d = c.toUpper ∨ d = c.toLower) := by
  rw [toPascalCase, String.toList_ofList] at h
  obtain ⟨word, hword, hd⟩ := List.mem_flatMap.mp h
  obtain ⟨c, hc, hd⟩ := mem_capitalize hd
  have hc : c ∈ (words .boundary [] s.toList).flatten := List.mem_flatten.mpr ⟨word, hword, hc⟩
  rw [flatten_words, List.nil_append, List.mem_filter] at hc
  exact ⟨c, hc.1, hc.2, hd⟩

theorem isAlpha_iff {c : Char} : c.isAlpha = true ↔
    65 ≤ c.val.toNat ∧ c.val.toNat ≤ 90 ∨ 97 ≤ c.val.toNat ∧ c.val.toNat ≤ 122 := by
  have halpha : c.isAlpha = (decide (c.val ≥ 65 ∧ c.val ≤ 90) ||
      (decide (c.val ≥ 97) && decide (c.val ≤ 122))) := rfl
  rw [halpha, Bool.or_eq_true, Bool.and_eq_true, decide_eq_true_eq, decide_eq_true_eq,
    decide_eq_true_eq]
  exact Iff.rfl

/-- Letters stay letters in the other case. -/
theorem isAlpha_toUpper {c : Char} (h : c.isAlpha = true) : c.toUpper.isAlpha = true := by
  unfold Char.toUpper
  split
  · rename_i hc
    have hd : ('A'.val - 'a'.val).toNat = 4294967264 := by decide
    have hlo : 97 ≤ c.val.toNat := hc.1
    have hhi : c.val.toNat ≤ 122 := hc.2
    rw [isAlpha_iff, UInt32.toNat_add, hd]
    omega
  · exact h

theorem isAlpha_toLower {c : Char} (h : c.isAlpha = true) : c.toLower.isAlpha = true := by
  unfold Char.toLower
  split
  · rename_i hc
    have hd : ('a'.val - 'A'.val).toNat = 32 := by decide
    have hlo : 65 ≤ c.val.toNat := hc.1
    have hhi : c.val.toNat ≤ 90 := hc.2
    rw [isAlpha_iff, UInt32.toNat_add, hd]
    omega
  · exact h

/-- Nothing else has a case. -/
theorem recased_of_not_alpha {c : Char} (h : c.isAlpha = false) :
    c.toUpper = c ∧ c.toLower = c := by
  have hn : ¬ c.isAlpha = true := by simp [h]
  rw [isAlpha_iff] at hn
  constructor
  · unfold Char.toUpper
    split
    · rename_i hc
      exact absurd (Or.inr hc) hn
    · rfl
  · unfold Char.toLower
    split
    · rename_i hc
      exact absurd (Or.inl hc) hn
    · rfl

theorem isAlphanum_recased {c d : Char} (h : c.isAlphanum = true)
    (hd : d = c.toUpper ∨ d = c.toLower) : d.isAlphanum = true := by
  cases ha : c.isAlpha with
  | false =>
    obtain ⟨hu, hl⟩ := recased_of_not_alpha ha
    rcases hd with rfl | rfl
    · rwa [hu]
    · rwa [hl]
  | true =>
    rw [Char.isAlphanum, Bool.or_eq_true]
    rcases hd with rfl | rfl
    · exact Or.inl (isAlpha_toUpper ha)
    · exact Or.inl (isAlpha_toLower ha)

/-- Letters, digits and the underscore. -/
def isContinue (c : Char) : Bool := c.isAlphanum || c == '_'

theorem isContinue_recased {c d : Char} (h : isContinue c = true)
    (hd : d = c.toUpper ∨ d = c.toLower) : isContinue d = true := by
  simp only [isContinue, Bool.or_eq_true, beq_iff_eq] at h
  rcases h with h | rfl
  · simp [isContinue, isAlphanum_recased h hd]
  · rcases hd with rfl | rfl <;> decide

def chars : Chars where
  isStart := Char.isAlpha
  isContinue := isContinue
  isAlphanumeric := Char.isAlphanum
  toUppercase c := [c.toUpper]
  toLowercase c := [c.toLower]
  continue_of_ascii h := by simp [isContinue, h]
  continue_of_start h := by simp [isContinue, Char.isAlphanum, h]
  continue_underscore := rfl
  not_continue_hash := rfl
  not_alphanumeric_hash := rfl
  uppercase_underscore := rfl
  uppercase_hash := rfl
  start_uppercase h := ⟨_, [], rfl, isAlpha_toUpper h⟩
  continue_uppercase h d hd := isContinue_recased h (Or.inl (List.mem_singleton.mp hd))
  continue_lowercase h d hd := isContinue_recased h (Or.inr (List.mem_singleton.mp hd))
  not_underscore {c} h hm := by
    have hd : '_' = c.toUpper ∨ '_' = c.toLower := by simpa using hm
    exact absurd (isAlphanum_recased h hd) (by decide)

end Ascii

end Names
