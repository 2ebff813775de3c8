import ChunkDirectory.Proofs.Wire.Codec

/-!
# One spelling

A codec is exact on some values if it reads back what it writes of them and reads nothing else
(`Codec.Exact`): each of these values has one spelling. The codecs for bytes, words and texts are
exact, and pairs, optional values and sequences are as exact as their parts. A codec for maps is
not, since a map may list its keys in any order and a key more than once.
-/

namespace ChunkDirectory

namespace Wire

variable {α β κ : Type} {P : α → Prop} {Q : β → Prop}

/-! ## Reading step by step -/

theorem Reader.bind_eq_some {r : Reader α} {f : α → Reader β} {b : β} {bytes rest : List UInt8} :
    (r >>= f) bytes = some (b, rest) ↔
      ∃ a middle, r bytes = some (a, middle) ∧ f a middle = some (b, rest) := by
  show Reader.bind r f bytes = _ ↔ _
  unfold Reader.bind
  cases r bytes with
  | none =>
    constructor
    · intro h
      cases h
    · rintro ⟨a, middle, h, -⟩
      cases h
  | some result =>
    constructor
    · exact fun h => ⟨result.1, result.2, rfl, h⟩
    · rintro ⟨a, middle, heq, h⟩
      cases heq
      exact h

theorem Reader.pure_eq_some {a b : α} {bytes rest : List UInt8} :
    (Pure.pure a : Reader α) bytes = some (b, rest) ↔ a = b ∧ bytes = rest := by
  show some (a, bytes) = some (b, rest) ↔ _
  rw [Option.some.injEq, Prod.mk.injEq]

namespace Codec

variable {a : Codec α} {b : Codec β}

/-! ## One spelling -/

/-- What is written of a fitting value is read back, and nothing else is read. -/
structure Exact (c : Codec α) (fits : α → Prop) : Prop where
  faithful : c.Faithful fits
  fits : ∀ {bytes v rest}, c.read bytes = some (v, rest) → fits v
  written : ∀ {bytes v rest}, c.read bytes = some (v, rest) → bytes = c.write v ++ rest

/-- Every value has one spelling. -/
abbrev Plain (c : Codec α) : Prop := c.Exact fun _ => True

theorem Exact.congr {fits : α → Prop} (h : a.Exact P) (hfits : ∀ v, P v ↔ fits v) :
    a.Exact fits where
  faithful := h.faithful.mono fun v hv => (hfits v).mpr hv
  fits hread := (hfits _).mp (h.fits hread)
  written := h.written

theorem exact_byte : byte.Plain where
  faithful := faithful_byte
  fits _ := trivial
  written {bytes v rest} h := by
    cases bytes with
    | nil => cases h
    | cons first others => cases h; rfl

theorem read_pair {v : α × β} {bytes rest : List UInt8} :
    (pair a b).read bytes = some (v, rest) ↔
      ∃ middle, a.read bytes = some (v.1, middle) ∧ b.read middle = some (v.2, rest) := by
  show (do let x ← a.read; let y ← b.read; return (x, y) : Reader (α × β)) bytes = _ ↔ _
  simp only [Reader.bind_eq_some, Reader.pure_eq_some]
  constructor
  · rintro ⟨x, middle, hx, y, last, hy, rfl, rfl⟩
    exact ⟨middle, hx, hy⟩
  · rintro ⟨middle, hx, hy⟩
    exact ⟨v.1, middle, hx, v.2, rest, hy, rfl, rfl⟩

theorem read_via {view : β → α} {build : α → β} {v : β} {bytes rest : List UInt8} :
    (a.via view build).read bytes = some (v, rest) ↔
      ∃ x, build x = v ∧ a.read bytes = some (x, rest) := by
  show (do return build (← a.read) : Reader β) bytes = _ ↔ _
  simp only [Reader.bind_eq_some, Reader.pure_eq_some]
  constructor
  · rintro ⟨x, middle, hx, rfl, rfl⟩
    exact ⟨x, rfl, hx⟩
  · rintro ⟨x, rfl, hx⟩
    exact ⟨x, rest, hx, rfl, rfl⟩

theorem Exact.pair (ha : a.Exact P) (hb : b.Exact Q) :
    (pair a b).Exact fun v => P v.1 ∧ Q v.2 where
  faithful := ha.faithful.pair hb.faithful
  fits h := by
    obtain ⟨middle, hx, hy⟩ := read_pair.mp h
    exact ⟨ha.fits hx, hb.fits hy⟩
  written {bytes v rest} h := by
    obtain ⟨middle, hx, hy⟩ := read_pair.mp h
    show bytes = (a.write v.1 ++ b.write v.2) ++ rest
    rw [List.append_assoc, ← hb.written hy, ← ha.written hx]

/-- Views that lose nothing keep the one spelling. -/
theorem Exact.via {view : β → α} {build : α → β} (ha : a.Exact P)
    (hbuild : ∀ v, build (view v) = v) (hview : ∀ x, view (build x) = x) :
    (a.via view build).Exact fun v => P (view v) where
  faithful := ha.faithful.via hbuild
  fits h := by
    obtain ⟨x, rfl, hx⟩ := read_via.mp h
    rw [hview]
    exact ha.fits hx
  written {bytes v rest} h := by
    obtain ⟨x, rfl, hx⟩ := read_via.mp h
    show bytes = a.write (view (build x)) ++ rest
    rw [hview]
    exact ha.written hx

theorem Plain.pair (ha : a.Plain) (hb : b.Plain) : (pair a b).Plain :=
  (Exact.pair ha hb).congr fun _ => and_iff_right trivial

/-- Both halves of a number that was put together are found again. -/
theorem halves_or {k high low : Nat} (hhigh : high < 2 ^ k) (hlow : low < 2 ^ k) :
    (high <<< k % 2 ^ (k + k) ||| low) % 2 ^ k = low ∧
      (high <<< k % 2 ^ (k + k) ||| low) >>> k % 2 ^ k = high := by
  have hpos : 0 < 2 ^ k := Nat.two_pow_pos k
  have hshift : high <<< k < 2 ^ (k + k) := by
    rw [Nat.shiftLeft_eq, Nat.pow_add]
    exact (Nat.mul_lt_mul_right hpos).mpr hhigh
  rw [Nat.mod_eq_of_lt hshift, ← Nat.shiftLeft_add_eq_or_of_lt hlow, Nat.shiftLeft_eq]
  constructor
  · rw [Nat.mul_add_mod_self_right, Nat.mod_eq_of_lt hlow]
  · rw [Nat.shiftRight_eq_div_pow, Nat.add_comm, Nat.add_mul_div_right _ _ hpos,
      Nat.div_eq_of_lt hlow, Nat.zero_add, Nat.mod_eq_of_lt hhigh]

/-- Both halves of a number have one spelling, and so has the number. -/
theorem Exact.halves {half : Codec β} {view : α → β × β} {build : β × β → α}
    (hhalf : half.Plain) (hbuild : ∀ n, build (view n) = n)
    (hview : ∀ x, view (build x) = x) :
    ((Codec.pair half half).via view build).Plain :=
  (Plain.pair hhalf hhalf).via hbuild hview

theorem exact_word16 : word16.Plain :=
  exact_byte.halves (fun n : UInt16 => UInt16.toNat_inj.mp (or_halves (k := 8) n.toNat_lt))
    fun x => have h := halves_or (k := 8) x.2.toNat_lt x.1.toNat_lt
      Prod.ext (UInt8.toNat_inj.mp h.1) (UInt8.toNat_inj.mp h.2)

theorem exact_word32 : word32.Plain :=
  exact_word16.halves (fun n : UInt32 => UInt32.toNat_inj.mp (or_halves (k := 16) n.toNat_lt))
    fun x => have h := halves_or (k := 16) x.2.toNat_lt x.1.toNat_lt
      Prod.ext (UInt16.toNat_inj.mp h.1) (UInt16.toNat_inj.mp h.2)

theorem exact_word64 : word64.Plain :=
  exact_word32.halves (fun n : UInt64 => UInt64.toNat_inj.mp (or_halves (k := 32) n.toNat_lt))
    fun x => have h := halves_or (k := 32) x.2.toNat_lt x.1.toNat_lt
      Prod.ext (UInt32.toNat_inj.mp h.1) (UInt32.toNat_inj.mp h.2)

theorem exact_bool : bool.Plain where
  faithful := faithful_bool
  fits _ := trivial
  written {bytes v rest} h := by
    obtain ⟨first, middle, hfirst, h⟩ := Reader.bind_eq_some.mp h
    rw [exact_byte.written hfirst]
    split at h
    · obtain ⟨rfl, rfl⟩ := Reader.pure_eq_some.mp h
      rfl
    · obtain ⟨rfl, rfl⟩ := Reader.pure_eq_some.mp h
      rfl
    · cases h

theorem read_option {v : Option α} {bytes rest : List UInt8} :
    a.option.read bytes = some (v, rest) →
      (v = none ∧ bytes = 0 :: rest) ∨
        ∃ x middle, v = some x ∧ bytes = 1 :: middle ∧ a.read middle = some (x, rest) := by
  intro h
  obtain ⟨tag, middle, htag, h⟩ := Reader.bind_eq_some.mp h
  have hbytes := exact_bool.written htag
  cases tag with
  | false =>
    obtain ⟨rfl, rfl⟩ := Reader.pure_eq_some.mp h
    exact .inl ⟨rfl, hbytes⟩
  | true =>
    obtain ⟨x, last, hx, h⟩ := Reader.bind_eq_some.mp h
    obtain ⟨rfl, rfl⟩ := Reader.pure_eq_some.mp h
    exact .inr ⟨x, middle, rfl, hbytes, hx⟩

theorem Exact.option (ha : a.Exact P) : (a.option).Exact fun v => ∀ x, v = some x → P x where
  faithful := ha.faithful.option
  fits {bytes v rest} h x hx := by
    rcases read_option h with ⟨rfl, -⟩ | ⟨y, middle, rfl, -, hy⟩
    · cases hx
    · cases hx
      exact ha.fits hy
  written {bytes v rest} h := by
    rcases read_option h with ⟨rfl, rfl⟩ | ⟨y, middle, rfl, rfl, hy⟩
    · rfl
    · exact congrArg (1 :: ·) (ha.written hy)

theorem Plain.option (ha : a.Plain) : (a.option).Plain :=
  (Exact.option ha).congr fun _ => iff_true_intro fun _ _ => trivial

/-! ## Sequences -/

theorem readMany_succ {n : Nat} {l : List α} {bytes rest : List UInt8} :
    readMany a (n + 1) bytes = some (l, rest) ↔
      ∃ x others middle, l = x :: others ∧ a.read bytes = some (x, middle) ∧
        readMany a n middle = some (others, rest) := by
  rw [readMany]
  simp only [Reader.bind_eq_some, Reader.pure_eq_some]
  constructor
  · rintro ⟨x, middle, hx, others, last, hothers, rfl, rfl⟩
    exact ⟨x, others, middle, rfl, hx, hothers⟩
  · rintro ⟨x, others, middle, rfl, hx, hothers⟩
    exact ⟨x, middle, hx, others, rest, hothers, rfl, rfl⟩

theorem readMany_zero {l : List α} {bytes rest : List UInt8} :
    readMany a 0 bytes = some (l, rest) ↔ l = [] ∧ bytes = rest :=
  Reader.pure_eq_some.trans (and_congr_left' eq_comm)

theorem read_list {l : List α} {bytes rest : List UInt8} :
    (list a).read bytes = some (l, rest) ↔
      ∃ n middle, word64.read bytes = some (n, middle) ∧
        readMany a n.toNat middle = some (l, rest) :=
  Reader.bind_eq_some

/-- As many values are read as were asked for. -/
theorem length_of_readMany {n : Nat} {l : List α} {bytes rest : List UInt8}
    (h : readMany a n bytes = some (l, rest)) : l.length = n := by
  induction n generalizing l bytes with
  | zero => rw [(readMany_zero.mp h).1, List.length_nil]
  | succ n ih =>
    obtain ⟨x, others, middle, rfl, -, hothers⟩ := readMany_succ.mp h
    rw [List.length_cons, ih hothers]

theorem fits_of_readMany {fits : α → Prop}
    (ha : ∀ {bytes v rest}, a.read bytes = some (v, rest) → fits v) {n : Nat} {l : List α}
    {bytes rest : List UInt8} (h : readMany a n bytes = some (l, rest)) : ∀ x ∈ l, fits x := by
  induction n generalizing l bytes with
  | zero =>
    obtain ⟨rfl, -⟩ := readMany_zero.mp h
    exact List.forall_mem_nil fits
  | succ n ih =>
    obtain ⟨x, others, middle, rfl, hx, hothers⟩ := readMany_succ.mp h
    exact List.forall_mem_cons.mpr ⟨ha hx, ih hothers⟩

theorem Exact.readMany (ha : a.Exact P) {n : Nat} {l : List α} {bytes rest : List UInt8}
    (h : readMany a n bytes = some (l, rest)) : bytes = l.flatMap a.write ++ rest := by
  induction n generalizing l bytes with
  | zero =>
    obtain ⟨rfl, rfl⟩ := readMany_zero.mp h
    rfl
  | succ n ih =>
    obtain ⟨x, others, middle, rfl, hx, hothers⟩ := readMany_succ.mp h
    rw [ha.written hx, ih hothers, List.flatMap_cons, List.append_assoc]

/-- The length in front of a sequence is the one that was read. -/
theorem length_toNat (n : UInt64) : length n.toNat = word64.write n :=
  congrArg word64.write (UInt64.ofNat_toNat)

theorem Exact.list (ha : a.Exact P) :
    (list a).Exact fun l => l.length < 2 ^ 64 ∧ ∀ x ∈ l, P x where
  faithful := ha.faithful.list
  fits {bytes l rest} h := by
    obtain ⟨n, middle, -, hmany⟩ := read_list.mp h
    exact ⟨length_of_readMany hmany ▸ n.toNat_lt, fits_of_readMany ha.fits hmany⟩
  written {bytes l rest} h := by
    obtain ⟨n, middle, hn, hmany⟩ := read_list.mp h
    show bytes = (length l.length ++ l.flatMap a.write) ++ rest
    rw [List.append_assoc, ← ha.readMany hmany, length_of_readMany hmany, length_toNat]
    exact exact_word64.written hn

theorem Plain.list (ha : a.Plain) : (list a).Exact fun l => l.length < 2 ^ 64 :=
  (Exact.list ha).congr fun _ => and_iff_left fun _ _ => trivial

/-! ## Texts -/

theorem toList_loop (bytes : ByteArray) (i : Nat) (read : List UInt8) :
    ByteArray.toList.loop bytes i read = read.reverse ++ bytes.data.toList.drop i := by
  induction hleft : bytes.size - i generalizing i read with
  | zero =>
    rw [ByteArray.toList.loop, if_neg (by omega), List.drop_eq_nil_of_le, List.append_nil]
    rw [Array.length_toList, ByteArray.size_data]
    omega
  | succ left ih =>
    have hi : i < bytes.size := by omega
    have hlength : i < bytes.data.toList.length := by
      rw [Array.length_toList, ByteArray.size_data]
      exact hi
    have hget : bytes.get! i = bytes.data.toList[i] := by
      show bytes.data[i]! = _
      rw [getElem!_pos bytes.data i hi, Array.getElem_toList]
    rw [ByteArray.toList.loop, if_pos hi, ih (i + 1) _ (by omega), List.reverse_cons,
      List.append_assoc, List.drop_eq_getElem_cons hlength, hget]
    rfl

/-- The bytes of an array in order. -/
theorem toList_eq (bytes : ByteArray) : bytes.toList = bytes.data.toList :=
  toList_loop bytes 0 []

theorem toByteArray_toList (bytes : ByteArray) : ByteArray.mk bytes.toList.toArray = bytes := by
  rw [toList_eq, Array.toArray_toList]

/-- Bytes are decoded to the text that they encode, and to no other. -/
theorem fromUTF8?_eq_some_iff {bytes : List UInt8} {s : String} :
    String.fromUTF8? (ByteArray.mk bytes.toArray) = some s ↔ bytes = s.toUTF8.toList := by
  constructor
  · intro h
    unfold String.fromUTF8? at h
    split at h
    · cases h
      rw [toList_eq]
      rfl
    · cases h
  · rintro rfl
    rw [toByteArray_toList]
    unfold String.fromUTF8?
    split
    · rfl
    · exact absurd s.isValidUTF8 ‹_›

theorem readBytes_eq_some_iff {n : Nat} {l bytes rest : List UInt8} :
    readBytes n bytes = some (l, rest) ↔ bytes = l ++ rest ∧ n = l.length := by
  unfold readBytes
  constructor
  · intro h
    split at h
    case isTrue hle =>
      cases h
      exact ⟨(List.take_append_drop n bytes).symm, (List.length_take_of_le hle).symm⟩
    case isFalse => cases h
  · rintro ⟨rfl, rfl⟩
    rw [if_pos (List.length_append ▸ Nat.le_add_right _ _), List.take_left, List.drop_left]

theorem read_text {s : String} {bytes rest : List UInt8} :
    text.read bytes = some (s, rest) ↔
      ∃ n, word64.read bytes = some (n, s.toUTF8.toList ++ rest) ∧
        n.toNat = s.toUTF8.toList.length := by
  show (word64.read >>= _) bytes = _ ↔ _
  rw [Reader.bind_eq_some]
  refine exists_congr fun n => ⟨?_, ?_⟩
  · rintro ⟨middle, hn, h⟩
    obtain ⟨l, last, hbytes, hdecode⟩ := Reader.bind_eq_some.mp h
    obtain ⟨rfl, hlength⟩ := readBytes_eq_some_iff.mp hbytes
    cases hdecoded : String.fromUTF8? (ByteArray.mk l.toArray) with
    | none =>
      rw [hdecoded] at hdecode
      cases hdecode
    | some decoded =>
      rw [hdecoded] at hdecode
      obtain ⟨rfl, rfl⟩ := Reader.pure_eq_some.mp hdecode
      obtain rfl := fromUTF8?_eq_some_iff.mp hdecoded
      exact ⟨hn, hlength⟩
  · rintro ⟨hn, hlength⟩
    refine ⟨_, hn, Reader.bind_eq_some.mpr ⟨_, rest, readBytes_eq_some_iff.mpr ⟨rfl, hlength⟩, ?_⟩⟩
    rw [fromUTF8?_eq_some_iff.mpr rfl]
    rfl

theorem exact_text : text.Exact fun s => s.toUTF8.size < 2 ^ 64 := by
  have hsize (s : String) : s.toUTF8.toList.length = s.toUTF8.size := by
    rw [toList_eq, Array.length_toList, ByteArray.size_data]
  refine ⟨fun s hs rest => ?_, fun {bytes s rest} h => ?_, fun {bytes s rest} h => ?_⟩
  · refine read_text.mpr ⟨UInt64.ofNat s.toUTF8.toList.length, ?_,
      UInt64.toNat_ofNat_of_lt (hsize s ▸ hs)⟩
    show word64.read ((length _ ++ _) ++ rest) = _
    rw [List.append_assoc]
    exact faithful_word64 _ trivial _
  · obtain ⟨n, -, hn⟩ := read_text.mp h
    rw [← hsize, ← hn]
    exact n.toNat_lt
  · obtain ⟨n, hread, hn⟩ := read_text.mp h
    show bytes = (length s.toUTF8.toList.length ++ s.toUTF8.toList) ++ rest
    rw [List.append_assoc, ← hn, length_toNat]
    exact exact_word64.written hread

end Codec
end Wire
end ChunkDirectory
