import Mathlib.Data.List.DropRight
import ChunkDirectory.NodeId
import ChunkDirectory.Text.Number

/-!
# White space and numerals

What trimming and reading a number come to, said without them. A text is trimmed to what it is with
white space around, if that has none at its own ends (`trim_eq_iff`). A number is read from its
numerals, and from nothing else: digits in base ten after at most one plus sign
(`readNumber_eq_some_iff`), so leading zeros do not matter.
-/

namespace ChunkDirectory.Text

variable {c : Char} {cs core : List Char} {n m bound : Nat}

/-! ## White space -/

/-- Nothing but white space. -/
def Blank (cs : List Char) : Prop := ∀ c ∈ cs, isBlank c = true

/-- No white space at either end. -/
def Tight (cs : List Char) : Prop :=
  (∀ c, cs.head? = some c → isBlank c = false) ∧ ∀ c, cs.getLast? = some c → isBlank c = false

/-- The text `core` with white space around it. -/
def Padded (core cs : List Char) : Prop :=
  ∃ before after, Blank before ∧ Blank after ∧ cs = before ++ core ++ after

theorem trim_eq (cs : List Char) : trim cs = (cs.dropWhile isBlank).rdropWhile isBlank := rfl

theorem Blank.append_iff {xs ys : List Char} : Blank (xs ++ ys) ↔ Blank xs ∧ Blank ys := by
  simp only [Blank, List.mem_append, or_imp, forall_and]

/-- Trimming takes white space off. -/
theorem padded_trim (cs : List Char) : Padded (trim cs) cs := by
  refine ⟨cs.takeWhile isBlank, (cs.dropWhile isBlank).rtakeWhile isBlank,
    fun c hc => List.mem_takeWhile_imp hc, fun c hc => List.mem_rtakeWhile_imp hc, ?_⟩
  rw [trim_eq, List.append_assoc, List.rdropWhile_append_rtakeWhile,
    List.takeWhile_append_dropWhile]

/-- Trimming leaves no white space at the ends. -/
theorem tight_trim (cs : List Char) : Tight (trim cs) := by
  rw [trim_eq]
  constructor
  · intro c hc
    obtain ⟨rest, hrest⟩ := List.rdropWhile_prefix isBlank (l := cs.dropWhile isBlank)
    have hfirst := List.head?_dropWhile_not isBlank cs
    rwa [← hrest, List.head?_append, hc, Option.some_or] at hfirst
  · intro c hc
    have hne : (cs.dropWhile isBlank).rdropWhile isBlank ≠ [] := by
      rintro hnil
      rw [hnil] at hc
      cases hc
    rw [← (List.getLast_eq_iff_getLast?_eq_some hne).mpr hc]
    exact Bool.eq_false_iff.mpr (List.rdropWhile_last_not isBlank _ hne)

/-- What ends without white space loses only what follows it. -/
theorem rdropWhile_append_of_blank {after : List Char} (hafter : Blank after)
    (hlast : ∀ c, core.getLast? = some c → isBlank c = false) :
    (core ++ after).rdropWhile isBlank = core := by
  have hsame : core.rdropWhile isBlank = core := by
    refine List.rdropWhile_eq_self_iff.mpr fun hne => Bool.eq_false_iff.mp (hlast _ ?_)
    exact List.getLast?_eq_some_getLast hne
  rw [List.rdropWhile, List.reverse_append, List.dropWhile_append_of_pos]
  · exact hsame
  · exact fun c hc => hafter c (List.mem_reverse.mp hc)

/-- White space around a text without any at its ends is all that is taken off. -/
theorem trim_of_padded (h : Padded core cs) (htight : Tight core) : trim cs = core := by
  obtain ⟨before, after, hbefore, hafter, rfl⟩ := h
  have hdrop : (before ++ core ++ after).dropWhile isBlank = (core ++ after).dropWhile isBlank := by
    rw [List.append_assoc, List.dropWhile_append_of_pos hbefore]
  rw [trim_eq, hdrop]
  cases core with
  | nil =>
    rw [List.nil_append, List.dropWhile_eq_nil_iff.mpr hafter]
    rfl
  | cons c rest =>
    rw [List.cons_append, List.dropWhile_cons_of_neg (Bool.eq_false_iff.mp (htight.1 c rfl)),
      ← List.cons_append, rdropWhile_append_of_blank hafter htight.2]

theorem trim_eq_iff : trim cs = core ↔ Padded core cs ∧ Tight core := by
  constructor
  · rintro rfl
    exact ⟨padded_trim cs, tight_trim cs⟩
  · rintro ⟨hpadded, htight⟩
    exact trim_of_padded hpadded htight

theorem trim_append_of_blank {after : List Char} (h : Blank after) :
    trim (cs ++ after) = trim cs := by
  obtain ⟨before, after', hbefore, hafter', heq⟩ := padded_trim cs
  refine trim_of_padded ⟨before, after' ++ after, hbefore, Blank.append_iff.mpr ⟨hafter', h⟩, ?_⟩
    (tight_trim cs)
  conv_lhs => rw [heq]
  simp

theorem tight_nil : Tight [] := ⟨fun _ hc => (by cases hc), fun _ hc => (by cases hc)⟩

theorem trim_eq_nil_iff : trim cs = [] ↔ Blank cs := by
  rw [trim_eq_iff, and_iff_left tight_nil]
  constructor
  · rintro ⟨before, after, hbefore, hafter, rfl⟩
    exact Blank.append_iff.mpr ⟨Blank.append_iff.mpr ⟨hbefore, fun _ hc => by cases hc⟩, hafter⟩
  · intro h
    exact ⟨cs, [], h, fun _ hc => (by cases hc), by simp⟩

/-! ## Numerals -/

/-- Digits in base ten with this value, after at most one plus sign. -/
def Numeral (n : Nat) (cs : List Char) : Prop :=
  ∃ digits, digits ≠ [] ∧ (cs = digits ∨ cs = '+' :: digits) ∧ (∀ c ∈ digits, c.isDigit = true) ∧
    Nat.ofDigitChars 10 digits 0 = n

theorem le_iff_toNat_le {a b : Char} : a ≤ b ↔ a.toNat ≤ b.toNat := Iff.rfl

/-- The digits of base ten are those whose value is less than ten. -/
theorem digitValue_eq_some_iff {d : Nat} :
    digitValue c = some d ∧ d < 10 ↔ c.isDigit = true ∧ d = c.toNat - '0'.toNat := by
  have hzero : '0'.toNat = 48 := rfl
  have hnine : '9'.toNat = 57 := rfl
  rw [Char.isDigit_iff_toNat]
  simp only [digitValue, le_iff_toNat_le]
  split_ifs with hdigit hlower hupper
  · rw [Option.some_inj]
    omega
  · rw [Option.some_inj]
    have ha : 'a'.toNat = 97 := rfl
    omega
  · rw [Option.some_inj]
    have ha : 'A'.toNat = 65 := rfl
    omega
  · exact iff_of_false (fun h => by cases h.1) fun h => hdigit h.1

theorem readDigits_cons (h : c.isDigit = true) (m : Nat) (rest : List Char) :
    readDigits 10 m (c :: rest) = readDigits 10 (10 * m + (c.toNat - '0'.toNat)) rest := by
  obtain ⟨hvalue, hlt⟩ := digitValue_eq_some_iff.mpr ⟨h, rfl⟩
  rw [readDigits, hvalue]
  exact if_pos hlt

theorem readDigits_cons_of_not (h : c.isDigit = false) (m : Nat) (rest : List Char) :
    readDigits 10 m (c :: rest) = none := by
  rw [readDigits]
  split
  case h_1 d hvalue =>
    refine if_neg fun hlt => ?_
    rw [(digitValue_eq_some_iff.mp ⟨hvalue, hlt⟩).1] at h
    cases h
  case h_2 => rfl

/-- Reading digits computes their value, and reads nothing but digits. -/
theorem readDigits_eq_some_iff :
    readDigits 10 m cs = some n ↔
      (∀ c ∈ cs, c.isDigit = true) ∧ Nat.ofDigitChars 10 cs m = n := by
  induction cs generalizing m with
  | nil => simp [readDigits]
  | cons c rest ih =>
    cases hc : c.isDigit with
    | true =>
      rw [readDigits_cons hc, ih, Nat.ofDigitChars_cons, List.forall_mem_cons, and_iff_right hc]
    | false =>
      rw [readDigits_cons_of_not hc]
      simp [hc]

theorem dropPlus_of_digits {digits : List Char} (hne : digits ≠ [])
    (h : ∀ c ∈ digits, c.isDigit = true) : dropPlus digits = digits := by
  cases digits with
  | nil => exact absurd rfl hne
  | cons c rest =>
    have hplus : c ≠ '+' := by
      rintro rfl
      exact absurd (h '+' List.mem_cons_self) (by decide)
    unfold dropPlus
    split
    case h_1 heq => exact absurd (List.cons.inj heq).1 hplus
    case h_2 => rfl

/-- What is left without one plus sign is the text itself or follows its plus sign. -/
theorem eq_or_eq_plus_dropPlus (cs : List Char) : cs = dropPlus cs ∨ cs = '+' :: dropPlus cs := by
  unfold dropPlus
  split
  case h_1 => exact .inr rfl
  case h_2 => exact .inl rfl

theorem numeral_iff :
    Numeral n cs ↔ dropPlus cs ≠ [] ∧ readDigits 10 0 (dropPlus cs) = some n := by
  rw [readDigits_eq_some_iff]
  constructor
  · rintro ⟨digits, hne, rfl | rfl, hdigits, hvalue⟩
    · rw [dropPlus_of_digits hne hdigits]
      exact ⟨hne, hdigits, hvalue⟩
    · exact ⟨hne, hdigits, hvalue⟩
  · rintro ⟨hne, hdigits, hvalue⟩
    exact ⟨dropPlus cs, hne, eq_or_eq_plus_dropPlus cs, hdigits, hvalue⟩

theorem readNumber_eq_some_iff :
    readNumber 10 bound cs = some n ↔ Numeral n cs ∧ n < bound := by
  rw [numeral_iff, readNumber]
  cases hrest : dropPlus cs with
  | nil => simp
  | cons c rest =>
    rw [Option.filter_eq_some_iff, decide_eq_true_iff]
    simp

theorem isBlank_eq_false_of_isDigit (h : c.isDigit = true) : isBlank c = false := by
  obtain ⟨hlow, hhigh⟩ := Char.isDigit_iff_toNat.mp h
  have hzero : '0'.toNat = 48 := rfl
  have hnine : '9'.toNat = 57 := rfl
  simp only [isBlank, blankRanges, List.any_cons, List.any_nil, Bool.or_false, Bool.or_eq_false_iff,
    Bool.and_eq_false_iff, decide_eq_false_iff_not]
  omega

/-- A numeral has neither white space nor an equals sign. -/
theorem Numeral.not_mem (h : Numeral n cs) : ∀ c ∈ cs, isBlank c = false ∧ c ≠ '=' := by
  obtain ⟨digits, -, hcs, hdigits, -⟩ := h
  have hall : ∀ c ∈ digits, isBlank c = false ∧ c ≠ '=' := fun c hc => by
    refine ⟨isBlank_eq_false_of_isDigit (hdigits c hc), ?_⟩
    rintro rfl
    exact absurd (hdigits '=' hc) (by decide)
  rcases hcs with rfl | rfl
  · exact hall
  · exact List.forall_mem_cons.mpr ⟨by decide, hall⟩

theorem Numeral.tight (h : Numeral n cs) : Tight cs :=
  ⟨fun c hc => (h.not_mem c (List.mem_of_mem_head? hc)).1,
    fun c hc => (h.not_mem c (List.mem_of_mem_getLast? hc)).1⟩

/-- An identifier is written as a numeral. -/
theorem numeral_text (id : NodeId) : Numeral id.toNat id.text.toList := by
  refine ⟨Nat.toDigits 10 id.toNat, Nat.toDigits_ne_nil, .inl ?_, fun c hc => ?_,
    Nat.ofDigitChars_ten_toDigits⟩
  · rw [NodeId.text, Nat.toString_eq_ofList_toDigits, String.toList_ofList]
  · exact Nat.isDigit_of_mem_toDigits (by decide) (by decide) hc

end ChunkDirectory.Text
