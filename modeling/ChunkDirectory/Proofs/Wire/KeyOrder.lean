import ChunkDirectory.Proofs.Wire.Spelling

/-!
# The order of keys

A map may list its keys in any order and a key more than once, so values with maps have many
spellings. A second reader goes over the same input and collects the keys of each map as they are
listed there (`KeyReader`). A codec is lawful if the spelling that it writes is the one in which all
keys are listed in strictly ascending order (`Codec.Lawful`). Exact codecs are lawful, as their
values have no maps.

A lawful codec is unambiguous (`Lawful.unambiguous`): nothing is read from an encoding that is cut
off, all that is read can be written and read again, and it is written as it was read exactly if all
keys were listed in order.
-/

namespace ChunkDirectory

/-- Listed entries are those of their map exactly if their keys are in order. -/
theorem SortedMap.entries_ofList_eq_iff {κ β : Type} [Ranked κ] {l : List (κ × β)} :
    (ofList l).entries = l ↔ (l.map fun e => rank e.1).Pairwise (· < ·) := by
  rw [List.pairwise_map]
  constructor
  · exact fun h => h ▸ (ofList l).ascending
  · exact fun h => congrArg entries (ofList_entries ⟨l, h⟩)

theorem SortedMap.entries_ofList_subset {κ β : Type} [Ranked κ] (l : List (κ × β)) :
    (ofList l).entries ⊆ l :=
  fun _ he => mem_of_get?_ofList (get?_eq_some_iff.mpr he)

theorem SortedMap.size_ofList_le {κ β : Type} [Ranked κ] (l : List (κ × β)) :
    (ofList l).size ≤ l.length := by
  have hnodup : (ofList l).entries.Nodup :=
    List.nodup_iff_pairwise_ne.mpr <| (ofList l).ascending.imp fun {e x} hlt (heq : e = x) =>
      Nat.ne_of_lt hlt (heq ▸ rfl)
  exact (List.subperm_of_subset hnodup (entries_ofList_subset l)).length_le

namespace Wire

variable {α β κ : Type} {P : α → Prop} {Q : β → Prop}

/-- Reads the keys of each map in the input, as they are listed there. -/
abbrev KeyReader := Reader (List (List Nat))

/-- All keys are listed in strictly ascending order. -/
def Ordered (listed : List (List Nat)) : Prop := ∀ keys ∈ listed, keys.Pairwise (· < ·)

theorem ordered_append {l m : List (List Nat)} : Ordered (l ++ m) ↔ Ordered l ∧ Ordered m :=
  List.forall_mem_append

namespace KeyReader

/-- Passes over input without maps. -/
def skip (r : Reader α) : KeyReader := do
  let _ ← r
  return []

/-- The keys of one value after those of another. -/
def both (first second : KeyReader) : KeyReader := do
  let l ← first
  let m ← second
  return l ++ m

/-- The keys of `n` values. -/
def many (one : KeyReader) : Nat → KeyReader
  | 0 => return []
  | n + 1 => both one (many one n)

/-- The keys of a sequence of values. -/
def list (one : KeyReader) : KeyReader := do
  let n ← Codec.word64.read
  many one n.toNat

/-- The keys of a map with values that have no maps. -/
def map [Ranked κ] (key : Codec κ) (value : Codec β) : KeyReader := do
  let entries ← (Codec.list (Codec.pair key value)).read
  return [entries.map fun e => rank e.1]

theorem skip_of_read {r : Reader α} {v : α} {bytes rest : List UInt8}
    (h : r bytes = some (v, rest)) : skip r bytes = some ([], rest) :=
  Reader.bind_eq_some.mpr ⟨v, rest, h, rfl⟩

/-- What is made of the value that was read does not matter. -/
theorem skip_map (r : Reader α) (f : α → β) : skip (do return f (← r)) = skip r := by
  funext bytes
  show Reader.bind (Reader.bind r fun x => Reader.pure (f x)) (fun _ => Reader.pure []) bytes =
    Reader.bind r (fun _ => Reader.pure []) bytes
  unfold Reader.bind
  cases r bytes <;> rfl

theorem both_of_read {first second : KeyReader} {l m : List (List Nat)}
    {bytes middle rest : List UInt8} (hl : first bytes = some (l, middle))
    (hm : second middle = some (m, rest)) : both first second bytes = some (l ++ m, rest) :=
  Reader.bind_eq_some.mpr ⟨l, middle, hl, Reader.bind_eq_some.mpr ⟨m, rest, hm, rfl⟩⟩

end KeyReader

namespace Codec

variable {a : Codec α} {b : Codec β} {first second keys : KeyReader}

/-- The bytes are read as the value, whatever follows, and list the keys of its maps. They are the
bytes that are written for it exactly if all keys are in order. -/
structure Spells (c : Codec α) (keys : KeyReader) (v : α) (used : List UInt8)
    (listed : List (List Nat)) : Prop where
  read : ∀ more, c.read (used ++ more) = some (v, more)
  keys : ∀ more, keys (used ++ more) = some (listed, more)
  written : c.write v = used ↔ Ordered listed

/-- What is written of a fitting value is read back, and all that is read is a spelling. -/
structure Lawful (c : Codec α) (fits : α → Prop) (keys : KeyReader) : Prop where
  faithful : c.Faithful fits
  fits : ∀ {bytes v rest}, c.read bytes = some (v, rest) → fits v
  spelled : ∀ {bytes v rest}, c.read bytes = some (v, rest) →
    ∃ used listed, bytes = used ++ rest ∧ c.Spells keys v used listed

theorem Lawful.congr {fits : α → Prop} (h : a.Lawful P keys) (hfits : ∀ v, P v ↔ fits v) :
    a.Lawful fits keys where
  faithful := h.faithful.mono fun v hv => (hfits v).mpr hv
  fits hread := (hfits _).mp (h.fits hread)
  spelled := h.spelled

theorem Exact.lawful (h : a.Exact P) : a.Lawful P (.skip a.read) where
  faithful := h.faithful
  fits := h.fits
  spelled {bytes v rest} hread := by
    have hagain := h.faithful v (h.fits hread)
    exact ⟨a.write v, [], h.written hread, hagain, fun more => KeyReader.skip_of_read (hagain more),
      iff_of_true rfl (List.forall_mem_nil _)⟩

/-- Where a spelling ends can be told from the value. -/
theorem Spells.append_eq_iff {v : α} {used others more : List UInt8} {listed : List (List Nat)}
    (h : a.Spells keys v used listed) (ha : a.Faithful P) (hv : P v) :
    a.write v ++ others = used ++ more ↔ a.write v = used ∧ others = more := by
  constructor
  · intro heq
    have hread := h.read more
    rw [← heq, ha v hv] at hread
    cases hread
    exact ⟨List.append_cancel_right heq, rfl⟩
  · rintro ⟨rfl, rfl⟩
    rfl

/-- One spelling after another. -/
theorem Spells.pair {v : α × β} {used others : List UInt8} {l m : List (List Nat)}
    (hx : a.Spells first v.1 used l) (hy : b.Spells second v.2 others m) (ha : a.Faithful P)
    (hv : P v.1) : (pair a b).Spells (.both first second) v (used ++ others) (l ++ m) where
  read more := by
    rw [List.append_assoc, read_pair]
    exact ⟨others ++ more, hx.read _, hy.read _⟩
  keys more := by
    rw [List.append_assoc]
    exact KeyReader.both_of_read (hx.keys _) (hy.keys _)
  written := by
    show a.write v.1 ++ b.write v.2 = _ ↔ _
    rw [hx.append_eq_iff ha hv, hx.written, hy.written, ordered_append]

theorem Lawful.pair (ha : a.Lawful P first) (hb : b.Lawful Q second) :
    (pair a b).Lawful (fun v => P v.1 ∧ Q v.2) (.both first second) where
  faithful := ha.faithful.pair hb.faithful
  fits h := by
    obtain ⟨middle, hx, hy⟩ := read_pair.mp h
    exact ⟨ha.fits hx, hb.fits hy⟩
  spelled {bytes v rest} h := by
    obtain ⟨middle, hx, hy⟩ := read_pair.mp h
    obtain ⟨used, l, rfl, hspells⟩ := ha.spelled hx
    obtain ⟨others, m, rfl, hothers⟩ := hb.spelled hy
    exact ⟨used ++ others, l ++ m, (List.append_assoc ..).symm,
      hspells.pair hothers ha.faithful (ha.fits hx)⟩

/-- Views that lose nothing keep the spellings. -/
theorem Lawful.via {view : β → α} {build : α → β} (ha : a.Lawful P keys)
    (hbuild : ∀ v, build (view v) = v) (hview : ∀ x, view (build x) = x) :
    (a.via view build).Lawful (fun v => P (view v)) keys where
  faithful := ha.faithful.via hbuild
  fits h := by
    obtain ⟨x, rfl, hx⟩ := read_via.mp h
    rw [hview]
    exact ha.fits hx
  spelled {bytes v rest} h := by
    obtain ⟨x, rfl, hx⟩ := read_via.mp h
    obtain ⟨used, listed, hbytes, hspells⟩ := ha.spelled hx
    refine ⟨used, listed, hbytes, fun more => read_via.mpr ⟨x, rfl, hspells.read more⟩,
      hspells.keys, ?_⟩
    show a.write (view (build x)) = used ↔ _
    rw [hview]
    exact hspells.written

/-! ## Behind a tag -/

/-- A tag in front chooses how the rest is read. -/
theorem Spells.tagged {c : Codec α} {rest : KeyReader} {tag used : List UInt8} {v : α}
    {listed : List (List Nat)} (h : c.Spells rest v used listed)
    (hread : ∀ more, a.read (tag ++ more) = c.read more)
    (hkeys : ∀ more, keys (tag ++ more) = rest more) (hwrite : a.write v = tag ++ c.write v) :
    a.Spells keys v (tag ++ used) listed where
  read more := by
    rw [List.append_assoc, hread]
    exact h.read more
  keys more := by
    rw [List.append_assoc, hkeys]
    exact h.keys more
  written := by
    rw [hwrite, List.append_cancel_left_eq]
    exact h.written

/-- A sequence whose length is known from elsewhere. -/
def many (a : Codec α) (n : Nat) : Codec (List α) where
  write l := l.flatMap a.write
  read := readMany a n

/-- Of one value after another, each has its spelling. -/
theorem Lawful.spelled_many (ha : a.Lawful P keys) {n : Nat} {l : List α}
    {bytes rest : List UInt8} (h : readMany a n bytes = some (l, rest)) :
    ∃ used listed, bytes = used ++ rest ∧ (many a n).Spells (keys.many n) l used listed := by
  induction n generalizing l bytes with
  | zero =>
    obtain ⟨rfl, rfl⟩ := readMany_zero.mp h
    exact ⟨[], [], rfl, fun _ => rfl, fun _ => rfl, iff_of_true rfl (List.forall_mem_nil _)⟩
  | succ n ih =>
    obtain ⟨x, others, middle, rfl, hx, hothers⟩ := readMany_succ.mp h
    obtain ⟨usedx, l, rfl, hspells⟩ := ha.spelled hx
    obtain ⟨used, m, rfl, hmany⟩ := ih hothers
    have hpair := hspells.pair (v := (x, others)) hmany ha.faithful (ha.fits hx)
    refine ⟨usedx ++ used, l ++ m, (List.append_assoc ..).symm, fun more => ?_, hpair.keys,
      hpair.written⟩
    obtain ⟨middle, hread, hrest⟩ := read_pair.mp (hpair.read more)
    exact readMany_succ.mpr ⟨x, others, middle, rfl, hread, hrest⟩

theorem Lawful.list (ha : a.Lawful P keys) :
    (list a).Lawful (fun l => l.length < 2 ^ 64 ∧ ∀ x ∈ l, P x) keys.list where
  faithful := ha.faithful.list
  fits h := by
    obtain ⟨n, middle, -, hmany⟩ := read_list.mp h
    exact ⟨length_of_readMany hmany ▸ n.toNat_lt, fits_of_readMany ha.fits hmany⟩
  spelled {bytes l rest} h := by
    obtain ⟨n, middle, hn, hmany⟩ := read_list.mp h
    obtain ⟨used, listed, rfl, hspells⟩ := ha.spelled_many hmany
    have htag := faithful_word64 n trivial
    refine ⟨word64.write n ++ used, listed, ?_, hspells.tagged (fun more => ?_) (fun more => ?_) ?_⟩
    · rw [List.append_assoc]
      exact exact_word64.written hn
    · exact Reader.bind_of_read (htag more)
    · exact Reader.bind_of_read (htag more)
    · rw [← length_toNat, ← length_of_readMany hmany]
      rfl

/-! ## Maps -/

/-- A map has no other entries and no more of them than the list that it is made of. -/
theorem fits_entries_ofList [Ranked κ] {fits : κ × β → Prop} {l : List (κ × β)} {bound : Nat}
    (h : l.length < bound ∧ ∀ e ∈ l, fits e) :
    (SortedMap.ofList l).entries.length < bound ∧ ∀ e ∈ (SortedMap.ofList l).entries, fits e :=
  ⟨Nat.lt_of_le_of_lt (SortedMap.size_ofList_le l) h.1,
    fun e he => h.2 e (SortedMap.entries_ofList_subset l he)⟩

/-- The keys of a map are listed in order exactly if the map is written as it was listed. -/
theorem Exact.map [Ranked κ] {key : Codec κ} {value : Codec β} {K : κ → Prop}
    (hkey : key.Exact K) (hvalue : value.Exact Q) :
    (map key value).Lawful (fun m => m.size < 2 ^ 64 ∧ ∀ e ∈ m.entries, K e.1 ∧ Q e.2)
      (.map key value) where
  faithful := hkey.faithful.map hvalue.faithful
  fits h := by
    obtain ⟨l, rfl, hl⟩ := read_via.mp h
    exact fits_entries_ofList ((hkey.pair hvalue).list.fits hl)
  spelled {bytes m rest} h := by
    have hlist := (hkey.pair hvalue).list
    obtain ⟨l, rfl, hl⟩ := read_via.mp h
    have hfits := hlist.fits hl
    have hagain := hlist.faithful l hfits
    refine ⟨(Codec.list (Codec.pair key value)).write l, [l.map fun e => rank e.1],
      hlist.written hl, fun more => read_via.mpr ⟨l, rfl, hagain more⟩,
      fun more => Reader.bind_of_read (hagain more), ?_⟩
    have hwritten := hlist.faithful.write_inj (fits_entries_ofList hfits) hfits
    exact hwritten.trans (SortedMap.entries_ofList_eq_iff.trans List.forall_mem_singleton.symm)

/-- Keys in the wrong order are read, and written in the right one. -/
example :
    let bytes := length 2 ++ word32.write 2 ++ bool.write true ++ word32.write 1 ++ bool.write false
    KeyReader.map word32 bool bytes = some ([[2, 1]], []) ∧
      ((map word32 bool).read bytes).map (fun r => (map word32 bool).write r.1) = some
        (length 2 ++ word32.write 1 ++ bool.write false ++ word32.write 2 ++ bool.write true) := by
  decide

/-! ## Nothing is ambiguous -/

/-- What is written of a fitting value is read back, but nothing is read if the end is missing. What
was read can be written and read again, and it is written as it was read exactly if all keys in the
input were in order. -/
structure Unambiguous (c : Codec α) (fits : α → Prop) (keys : KeyReader) : Prop where
  read_write : ∀ v, fits v → ∀ rest, c.read (c.write v ++ rest) = some (v, rest)
  read_part : ∀ v, fits v → ∀ part, part <+: c.write v → part ≠ c.write v → c.read part = none
  read_again : ∀ bytes v rest, c.read bytes = some (v, rest) →
    ∀ more, c.read (c.write v ++ more) = some (v, more)
  write_eq_iff : ∀ bytes v rest, c.read bytes = some (v, rest) →
    ∃ used listed, bytes = used ++ rest ∧ keys bytes = some (listed, rest) ∧
      (c.write v = used ↔ Ordered listed)

theorem Lawful.unambiguous {fits : α → Prop} (h : a.Lawful fits keys) :
    a.Unambiguous fits keys where
  read_write := h.faithful
  read_part v hv part hprefix hne := by
    obtain ⟨missing, hmissing⟩ := hprefix
    cases hread : a.read part with
    | none => rfl
    | some result =>
      -- The value that is read must be the one that was written, and nothing is left over for what
      -- is missing.
      obtain ⟨w, rest⟩ := result
      obtain ⟨used, listed, rfl, hspells⟩ := h.spelled hread
      have hwhole := h.faithful v hv []
      rw [List.append_nil, ← hmissing, List.append_assoc, hspells.read] at hwhole
      obtain ⟨-, hnil⟩ := Prod.mk.inj (Option.some.inj hwhole)
      obtain ⟨-, rfl⟩ := List.append_eq_nil_iff.mp hnil
      rw [List.append_nil (used ++ rest)] at hmissing
      exact absurd hmissing hne
  read_again bytes v rest hread := h.faithful v (h.fits hread)
  write_eq_iff bytes v rest hread := by
    obtain ⟨used, listed, rfl, hspells⟩ := h.spelled hread
    exact ⟨used, listed, rfl, hspells.keys rest, hspells.written⟩

end Codec
end Wire
end ChunkDirectory
