import Mathlib.Data.List.Forall2
import Mathlib.Data.List.ReduceOption
import ChunkDirectory.Config.Environment
import ChunkDirectory.Proofs.Text.Numeral

/-!
# The notation of address lists

The address book of a node is written as entries separated by commas. An entry names a node by its
identifier, an equals sign and its address, each with white space around it, or is blank and names
nobody (`StandsFor`). All other entries are malformed, for want of an equals sign or of an
identifier before it (`Malformed`); there is no third kind (`standsFor_or_malformed`).

Reading is exact (`readAddresses_exact`): a list is read if all its entries stand for something,
and then as what they stand for, in their order; else the first malformed entry is reported.
An identifier ends at the first equals sign, so addresses may contain more of them.
-/

namespace ChunkDirectory.Config

open Text

variable {entry id address : List Char} {entries : List (List Char)} {node : NodeAddress} {n : Nat}

/-! ## Entries -/

/-- A numeral of `n` with white space around it. -/
def Holds (n : Nat) (cs : List Char) : Prop := ∃ numeral, Padded numeral cs ∧ Numeral n numeral

/-- The entry is the identifier of the node, an equals sign and its address, which itself begins and
ends without white space. -/
def Names (node : NodeAddress) (entry : List Char) : Prop :=
  ∃ id address, entry = id ++ '=' :: address ∧ Holds node.id.toNat id ∧
    Padded node.address.toList address ∧ Tight node.address.toList

/-- Whom an entry names, if anybody. -/
def StandsFor (entry : List Char) : Option NodeAddress → Prop
  | some node => Names node entry
  | none => Blank entry

/-- The entry is not blank, but has no equals sign or no identifier before the first one. -/
def Malformed (entry : List Char) : Prop :=
  ¬ Blank entry ∧ ('=' ∉ entry ∨
    ∃ id address, entry = id ++ '=' :: address ∧ '=' ∉ id ∧ ∀ n < 65536, ¬ Holds n id)

/-- The report of a malformed entry shows it up to its equals sign. -/
def complaint (entry : List Char) : ConfigError :=
  .invalidValue addressesKey (String.ofList ((trim entry).takeWhile (· ≠ '=')))

/-- The first equals sign splits an entry. -/
theorem split_at_sign (hid : '=' ∉ id) (address : List Char) :
    (id ++ '=' :: address).dropWhile (· ≠ '=') = '=' :: address ∧
      (id ++ '=' :: address).takeWhile (· ≠ '=') = id := by
  have hall : ∀ c ∈ id, decide (c ≠ '=') = true := fun c hc =>
    decide_eq_true fun heq => hid (heq ▸ hc)
  rw [List.dropWhile_append_of_pos hall, List.takeWhile_append_of_pos hall,
    List.dropWhile_cons_of_neg (by simp), List.takeWhile_cons_of_neg (by simp), List.append_nil]
  exact ⟨rfl, rfl⟩

theorem append_sign_inj {id' address' : List Char} (hid : '=' ∉ id) (hid' : '=' ∉ id')
    (h : id ++ '=' :: address = id' ++ '=' :: address') : id = id' ∧ address = address' := by
  obtain ⟨hafter, hbefore⟩ := split_at_sign hid address
  rw [h, (split_at_sign hid' address').1] at hafter
  rw [h, (split_at_sign hid' address').2] at hbefore
  exact ⟨hbefore.symm, (List.cons.inj hafter).2.symm⟩

theorem holds_iff : Holds n id ↔ Numeral n (trim id) := by
  constructor
  · rintro ⟨numeral, hpadded, hnumeral⟩
    rwa [trim_of_padded hpadded hnumeral.tight]
  · exact fun h => ⟨trim id, padded_trim id, h⟩

theorem Holds.not_mem (h : Holds n id) : '=' ∉ id := by
  obtain ⟨numeral, ⟨before, after, hbefore, hafter, rfl⟩, hnumeral⟩ := h
  have hblank : isBlank '=' = false := by decide
  simp only [List.mem_append, not_or]
  refine ⟨⟨fun hmem => ?_, fun hmem => (hnumeral.not_mem '=' hmem).2 rfl⟩, fun hmem => ?_⟩
  · rw [hbefore '=' hmem] at hblank
    cases hblank
  · rw [hafter '=' hmem] at hblank
    cases hblank

theorem names_iff (hid : '=' ∉ id) :
    Names node (id ++ '=' :: address) ↔
      Numeral node.id.toNat (trim id) ∧ trim address = node.address.toList := by
  rw [← holds_iff, trim_eq_iff]
  constructor
  · rintro ⟨id', address', heq, hholds, haddress⟩
    obtain ⟨rfl, rfl⟩ := append_sign_inj hid hholds.not_mem heq
    exact ⟨hholds, haddress⟩
  · exact fun ⟨hholds, haddress⟩ => ⟨id, address, rfl, hholds, haddress⟩

theorem not_blank_of_mem (h : '=' ∈ entry) : ¬ Blank entry := fun hblank => by
  have := hblank '=' h
  revert this
  decide

theorem standsFor_or_malformed (entry : List Char) :
    (∃ item, StandsFor entry item) ∨ Malformed entry := by
  by_cases hblank : Blank entry
  · exact .inl ⟨none, hblank⟩
  by_cases hsign : '=' ∈ entry
  swap
  · exact .inr ⟨hblank, .inl hsign⟩
  obtain ⟨id, address, rfl, hid⟩ := List.eq_append_cons_of_mem hsign
  by_cases hnumber : ∃ n < 65536, Holds n id
  · obtain ⟨n, hn, hholds⟩ := hnumber
    refine .inl ⟨some ⟨.ofNat n, .ofList (trim address)⟩, id, address, rfl, ?_, ?_, ?_⟩
    · have hval : (NodeId.ofNat n).toNat = n := UInt16.toNat_ofNat_of_lt' hn
      rwa [hval]
    · rw [String.toList_ofList]
      exact padded_trim address
    · rw [String.toList_ofList]
      exact tight_trim address
  · refine .inr ⟨hblank, .inr ⟨id, address, rfl, hid, fun n hn hholds => hnumber ⟨n, hn, hholds⟩⟩⟩

/-! ## Reading an entry -/

theorem dropWhile_append_stop {p : Char → Bool} {c : Char} (h : p c = false) (xs ys : List Char) :
    (xs ++ c :: ys).dropWhile p = xs.dropWhile p ++ c :: ys := by
  have hstop : (c :: ys).dropWhile p = c :: ys :=
    List.dropWhile_cons_of_neg (Bool.eq_false_iff.mp h)
  rw [List.dropWhile_append, hstop]
  split
  case isTrue hempty => rw [List.isEmpty_iff.mp hempty, List.nil_append]
  case isFalse => rfl

/-- Trimming an entry trims the identifier on the left and the address on the right. -/
theorem trim_entry (id address : List Char) :
    trim (id ++ '=' :: address) = id.dropWhile isBlank ++ '=' :: address.rdropWhile isBlank := by
  have hsign : isBlank '=' = false := by decide
  rw [trim_eq, dropWhile_append_stop hsign, List.rdropWhile, List.reverse_append,
    List.reverse_cons, List.append_assoc, List.singleton_append, dropWhile_append_stop hsign]
  simp [List.rdropWhile]

theorem trim_dropWhile (cs : List Char) : trim (cs.dropWhile isBlank) = trim cs := by
  rw [trim_eq, trim_eq, List.dropWhile_idempotent]

theorem trim_rdropWhile (cs : List Char) : trim (cs.rdropWhile isBlank) = trim cs := by
  conv_rhs => rw [← List.rdropWhile_append_rtakeWhile (p := isBlank) (l := cs)]
  exact (trim_append_of_blank fun c hc => List.mem_rtakeWhile_imp hc).symm

/-- Reading an entry that has an equals sign. -/
theorem readAddress_trim (hid : '=' ∉ id) :
    readAddress (trim (id ++ '=' :: address)) =
      match readNumber 10 65536 (trim id) with
      | some n => .ok ⟨.ofNat n, .ofList (trim address)⟩
      | none => .error (complaint (id ++ '=' :: address)) := by
  have hid' : '=' ∉ id.dropWhile isBlank := fun hmem => hid ((List.dropWhile_sublist _).subset hmem)
  obtain ⟨hafter, hbefore⟩ := split_at_sign hid' (address.rdropWhile isBlank)
  rw [complaint, trim_entry, readAddress, hafter, hbefore, readValue, trim_dropWhile]
  cases readNumber 10 65536 (trim id) with
  | none => rfl
  | some n =>
    show Except.ok (NodeAddress.mk (.ofNat n) (.ofList (trim (address.rdropWhile isBlank)))) = _
    rw [trim_rdropWhile]

theorem readAddress_of_names (h : Names node entry) : readAddress (trim entry) = .ok node := by
  obtain ⟨id, address, rfl, hholds, haddress⟩ := h
  have hnumber : readNumber 10 65536 (trim id) = some node.id.toNat :=
    readNumber_eq_some_iff.mpr ⟨holds_iff.mp hholds, node.id.toNat_lt⟩
  have hid : NodeId.ofNat node.id.toNat = node.id :=
    NodeId.toNat_injective (UInt16.toNat_ofNat_of_lt' node.id.toNat_lt)
  rw [readAddress_trim hholds.not_mem, hnumber, trim_eq_iff.mpr haddress]
  dsimp only
  rw [hid, String.ofList_toList]

theorem readAddress_of_malformed (h : Malformed entry) :
    readAddress (trim entry) = .error (complaint entry) := by
  obtain ⟨-, hsign | ⟨id, address, rfl, hid, hnumber⟩⟩ := h
  · obtain ⟨before, after, -, -, hentry⟩ := padded_trim entry
    have hall : ∀ c ∈ trim entry, decide (c ≠ '=') = true := by
      intro c hc
      refine decide_eq_true fun heq => hsign ?_
      rw [hentry, ← heq]
      exact List.mem_append_left _ (List.mem_append_right _ hc)
    rw [complaint, readAddress, List.dropWhile_eq_nil_iff.mpr hall,
      List.takeWhile_eq_self_iff.mpr hall]
  · have hnone : readNumber 10 65536 (trim id) = none := by
      refine Option.eq_none_iff_forall_ne_some.mpr fun n hn => ?_
      obtain ⟨hnumeral, hlt⟩ := readNumber_eq_some_iff.mp hn
      exact hnumber n hlt (holds_iff.mpr hnumeral)
    rw [readAddress_trim hid, hnone]

/-! ## Reading a list -/

/-- Reads the entries that are not blank. -/
def readEntries (entries : List (List Char)) : Except ConfigError (List NodeAddress) :=
  ((entries.map trim).filter fun entry => !entry.isEmpty).mapM readAddress

theorem readEntries_cons_of_blank (h : Blank entry) (rest : List (List Char)) :
    readEntries (entry :: rest) = readEntries rest := by
  rw [readEntries, List.map_cons, trim_eq_nil_iff.mpr h]
  rfl

theorem readEntries_cons_of_not_blank (h : ¬ Blank entry) (rest : List (List Char)) :
    readEntries (entry :: rest) = (do
      let node ← readAddress (trim entry)
      let nodes ← readEntries rest
      return node :: nodes) := by
  have hnonempty : (!(trim entry).isEmpty) = true := by
    simpa [trim_eq_nil_iff] using h
  rw [readEntries, List.map_cons, List.filter_cons, if_pos hnonempty, List.mapM_cons]
  rfl

theorem Names.not_blank (h : Names node entry) : ¬ Blank entry := by
  obtain ⟨id, address, rfl, -⟩ := h
  exact not_blank_of_mem (by simp)

/-- Entries that all stand for something are read as what they stand for. -/
theorem readEntries_of_standsFor {items : List (Option NodeAddress)}
    (h : List.Forall₂ StandsFor entries items) : readEntries entries = .ok items.reduceOption := by
  induction h with
  | nil => rfl
  | @cons entry item rest items hentry _ ih =>
    cases item with
    | none => rw [readEntries_cons_of_blank hentry, ih, List.reduceOption_cons_of_none]
    | some node =>
      rw [readEntries_cons_of_not_blank hentry.not_blank, readAddress_of_names hentry, ih,
        List.reduceOption_cons_of_some]
      rfl

/-- Reading ends with the report of the first malformed entry. -/
theorem readEntries_of_malformed {before after : List (List Char)}
    (hbefore : ∀ e ∈ before, ¬ Malformed e) (h : Malformed entry) :
    readEntries (before ++ entry :: after) = .error (complaint entry) := by
  induction before with
  | nil =>
    rw [List.nil_append, readEntries_cons_of_not_blank h.1, readAddress_of_malformed h]
    rfl
  | cons first rest ih =>
    have hrest := ih fun e he => hbefore e (List.mem_cons_of_mem first he)
    rw [List.cons_append]
    rcases standsFor_or_malformed first with ⟨_ | node, hitem⟩ | hmalformed
    · rw [readEntries_cons_of_blank hitem, hrest]
    · rw [readEntries_cons_of_not_blank hitem.not_blank, readAddress_of_names hitem, hrest]
      rfl
    · exact absurd hmalformed (hbefore first List.mem_cons_self)

/-- Without a malformed entry, each entry stands for something. -/
theorem exists_standsFor (h : ∀ e ∈ entries, ¬ Malformed e) :
    ∃ items, List.Forall₂ StandsFor entries items := by
  induction entries with
  | nil => exact ⟨[], .nil⟩
  | cons entry rest ih =>
    obtain ⟨items, hitems⟩ := ih fun e he => h e (List.mem_cons_of_mem entry he)
    obtain ⟨item, hitem⟩ :=
      (standsFor_or_malformed entry).resolve_right (h entry List.mem_cons_self)
    exact ⟨item :: items, .cons hitem hitems⟩

/-- A list that contains a malformed entry contains a first one. -/
theorem exists_first_malformed (h : ∃ e ∈ entries, Malformed e) :
    ∃ before entry after, entries = before ++ entry :: after ∧ (∀ e ∈ before, ¬ Malformed e) ∧
      Malformed entry := by
  induction entries with
  | nil =>
    obtain ⟨e, he, -⟩ := h
    cases he
  | cons first rest ih =>
    by_cases hfirst : Malformed first
    · exact ⟨[], first, rest, rfl, fun _ he => (by cases he), hfirst⟩
    · obtain ⟨e, he, hmalformed⟩ := h
      have hrest : e ∈ rest :=
        (List.mem_cons.mp he).resolve_left fun heq => hfirst (heq ▸ hmalformed)
      obtain ⟨before, entry, after, rfl, hbefore, hentry⟩ := ih ⟨e, hrest, hmalformed⟩
      exact ⟨first :: before, entry, after, rfl, List.forall_mem_cons.mpr ⟨hfirst, hbefore⟩, hentry⟩

theorem splitAt_eq_splitOn (separator : Char) (cs : List Char) :
    splitAt separator cs = cs.splitOn separator := by
  induction cs with
  | nil => rfl
  | cons c rest ih =>
    rw [splitAt, List.splitOn_cons_eq_if_modifyHead, ih]
    by_cases hc : c = separator
    · rw [if_pos hc, if_pos (by simpa using hc)]
    · rw [if_neg hc, if_neg (by simpa using hc)]
      cases hparts : rest.splitOn separator with
      | nil => exact absurd hparts (List.splitOn_ne_nil separator rest)
      | cons part parts => rfl

/-- The text of a list is read entry by entry. -/
theorem readAddresses_intercalate (hcomma : ∀ e ∈ entries, ',' ∉ e) :
    readAddresses (String.ofList ([','].intercalate entries)) = readEntries entries := by
  show readEntries (splitAt ',' (String.ofList ([','].intercalate entries)).toList) = _
  rw [splitAt_eq_splitOn, String.toList_ofList]
  cases entries with
  | nil => rfl
  | cons entry rest => rw [List.splitOn_intercalate ',' hcomma (List.cons_ne_nil entry rest)]

/-- The notation of address lists. The decimal text of an identifier is one of its numerals. Of any
entries without commas, joined by commas, nodes are read exactly if each entry is blank or names a
node, and then the nodes that are named, in their order. If an entry is malformed, nothing is read
and the first such entry is reported. -/
theorem readAddresses_exact :
    (∀ id : NodeId, Numeral id.toNat id.text.toList) ∧
    ∀ entries : List (List Char), (∀ e ∈ entries, ',' ∉ e) →
      (∀ nodes, readAddresses (String.ofList ([','].intercalate entries)) = .ok nodes ↔
        ∃ items, List.Forall₂ StandsFor entries items ∧ items.reduceOption = nodes) ∧
      ((∃ e ∈ entries, Malformed e) →
        ∃ before entry after, entries = before ++ entry :: after ∧
          (∀ e ∈ before, ¬ Malformed e) ∧ Malformed entry ∧
            readAddresses (String.ofList ([','].intercalate entries)) =
              .error (complaint entry)) := by
  refine ⟨numeral_text, fun entries hcomma => ?_⟩
  rw [readAddresses_intercalate hcomma]
  have hrefused : (∃ e ∈ entries, Malformed e) →
      ∃ before entry after, entries = before ++ entry :: after ∧ (∀ e ∈ before, ¬ Malformed e) ∧
        Malformed entry ∧ readEntries entries = .error (complaint entry) := by
    intro hexists
    obtain ⟨before, entry, after, rfl, hbefore, hentry⟩ := exists_first_malformed hexists
    exact ⟨before, entry, after, rfl, hbefore, hentry, readEntries_of_malformed hbefore hentry⟩
  refine ⟨fun nodes => ⟨fun hread => ?_, ?_⟩, hrefused⟩
  · by_cases hexists : ∃ e ∈ entries, Malformed e
    · obtain ⟨_, _, _, -, -, -, herror⟩ := hrefused hexists
      rw [herror] at hread
      cases hread
    · obtain ⟨items, hitems⟩ := exists_standsFor fun e he hmalformed => hexists ⟨e, he, hmalformed⟩
      rw [readEntries_of_standsFor hitems] at hread
      exact ⟨items, hitems, Except.ok.inj hread⟩
  · rintro ⟨items, hitems, rfl⟩
    exact readEntries_of_standsFor hitems

/-- Two nodes, one of them without an address, and a blank entry; a list with a word in place of an
identifier. -/
theorem readAddresses_exact_mixed :
    readAddresses " 7 = a=b , ,+08=" = .ok [⟨⟨7⟩, "a=b"⟩, ⟨⟨8⟩, ""⟩] ∧
      ∃ key text, readAddresses "7=a,x=1" = .error (.invalidValue key text) := by
  have hread := (readAddresses_exact.2 [" 7 = a=b ".toList, " ".toList, "+08=".toList]
    (by decide)).1 [⟨⟨7⟩, "a=b"⟩, ⟨⟨8⟩, ""⟩]
  have hrefused := (readAddresses_exact.2 ["7=a".toList, "x=1".toList] (by decide)).2
  refine ⟨hread.mpr ⟨[some ⟨⟨7⟩, "a=b"⟩, none, some ⟨⟨8⟩, ""⟩], ?_, rfl⟩, ?_⟩
  · have hseven : readNumber 10 65536 (trim " 7 ".toList) = some 7 := by decide
    have height : readNumber 10 65536 (trim "+08".toList) = some 8 := by decide
    have hfirst : Names ⟨⟨7⟩, "a=b"⟩ (" 7 ".toList ++ '=' :: " a=b ".toList) :=
      (names_iff (by decide)).mpr ⟨(readNumber_eq_some_iff.mp hseven).1, by decide⟩
    have hblank : Blank " ".toList := trim_eq_nil_iff.mp (by decide)
    have hlast : Names ⟨⟨8⟩, ""⟩ ("+08".toList ++ '=' :: []) :=
      (names_iff (by decide)).mpr ⟨(readNumber_eq_some_iff.mp height).1, by decide⟩
    exact .cons hfirst (.cons hblank (.cons hlast .nil))
  · have hword : Malformed "x=1".toList := by
      refine ⟨not_blank_of_mem (by decide), .inr ⟨['x'], ['1'], rfl, by decide, fun n hn hx => ?_⟩⟩
      cases readNumber_eq_some_iff.mpr ⟨holds_iff.mp hx, hn⟩
    obtain ⟨_, _, _, -, -, -, hreport⟩ := hrefused ⟨_, List.mem_pair.mpr (.inr rfl), hword⟩
    exact ⟨_, _, hreport⟩

end ChunkDirectory.Config
