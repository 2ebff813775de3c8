import Mathlib.Algebra.Order.BigOperators.Group.List
import Mathlib.Algebra.Order.Ring.Nat
import ChunkDirectory.Proofs.Tree.Canonical
import ChunkDirectory.Proofs.Wire.Codec

/-!
# What a digest tells apart

The byte string that is hashed for a digest can be read back: identifiers and numbers have fixed
width, and lists and maps say how long they are (`SelfDelimiting`). Two trees have the same string
exactly if they differ in nothing but that objects are removed in one and belong to `invalid` in the
other (`LookupTree.digestBytes_eq_iff`).

The number of entries of a map over all 64-bit numbers does not fit into its eight bytes, so that
the string begins for such a map as for an empty one. It is what follows that tells them apart: a
map with every key begins with the keys 0 and 1 (`SortedMap.entries_of_full`), and the ranges of
migrated objects, which come last, are too few to stand for all the others.
-/

namespace ChunkDirectory

/-! ## Codes that say where they end -/

section SelfDelimiting

variable {α β : Type} {P : α → Prop} {Q : β → Prop} {code : α → List UInt8}
  {code' : β → List UInt8}

/-- Where the code of a fitting value is followed by something, both can be read off. -/
def SelfDelimiting (code : α → List UInt8) (fits : α → Prop) : Prop :=
  ∀ a b, fits a → fits b → ∀ r s, code a ++ r = code b ++ s → a = b ∧ r = s

theorem selfDelimiting_byte : SelfDelimiting (fun b : UInt8 => [b]) fun _ => True :=
  fun _ _ _ _ _ _ heq => List.cons.inj heq

theorem SelfDelimiting.append (h : SelfDelimiting code P) (h' : SelfDelimiting code' Q) :
    SelfDelimiting (fun v : α × β => code v.1 ++ code' v.2) fun v => P v.1 ∧ Q v.2 := by
  rintro ⟨a, b⟩ ⟨a', b'⟩ ⟨ha, hb⟩ ⟨ha', hb'⟩ r s heq
  rw [List.append_assoc, List.append_assoc] at heq
  obtain ⟨rfl, hrest⟩ := h a a' ha ha' _ _ heq
  obtain ⟨rfl, rfl⟩ := h' b b' hb hb' _ _ hrest
  exact ⟨rfl, rfl⟩

theorem SelfDelimiting.via (h : SelfDelimiting code P) (view : β → α) (build : α → β)
    (hbuild : ∀ v, build (view v) = v) :
    SelfDelimiting (fun v => code (view v)) fun v => P (view v) := by
  intro v w hv hw r s heq
  obtain ⟨hview, hrest⟩ := h _ _ hv hw r s heq
  exact ⟨by rw [← hbuild v, hview, hbuild], hrest⟩

theorem SelfDelimiting.mono (h : SelfDelimiting code P) {fits : α → Prop}
    (hfits : ∀ v, fits v → P v) : SelfDelimiting code fits :=
  fun v w hv hw => h v w (hfits v hv) (hfits w hw)

/-- A number whose upper half comes before the lower one. -/
theorem SelfDelimiting.halves (h : SelfDelimiting code fun _ => True) {high low : β → α}
    (build : α × α → β) (hbuild : ∀ n, build (high n, low n) = n) :
    SelfDelimiting (fun n => code (high n) ++ code (low n)) fun _ => True :=
  ((h.append h).via (fun n => (high n, low n)) build hbuild).mono fun _ _ => ⟨trivial, trivial⟩

theorem selfDelimiting_bigEndian16 : SelfDelimiting bigEndian16 fun _ => True :=
  selfDelimiting_byte.halves (fun v => v.1.toUInt16 <<< 8 ||| v.2.toUInt16)
    fun n => UInt16.toNat_inj.mp (Wire.Codec.or_halves (k := 8) n.toNat_lt)

theorem selfDelimiting_bigEndian32 : SelfDelimiting bigEndian32 fun _ => True :=
  selfDelimiting_bigEndian16.halves (fun v => v.1.toUInt32 <<< 16 ||| v.2.toUInt32)
    fun n => UInt32.toNat_inj.mp (Wire.Codec.or_halves (k := 16) n.toNat_lt)

theorem selfDelimiting_bigEndian64 : SelfDelimiting bigEndian64 fun _ => True :=
  selfDelimiting_bigEndian32.halves (fun v => v.1.toUInt64 <<< 32 ||| v.2.toUInt64)
    fun n => UInt64.toNat_inj.mp (Wire.Codec.or_halves (k := 32) n.toNat_lt)

theorem selfDelimiting_nodeId :
    SelfDelimiting (fun id : NodeId => bigEndian16 id.val) fun _ => True :=
  selfDelimiting_bigEndian16.via NodeId.val NodeId.mk fun _ => rfl

/-- Lists of one length are told apart by their elements. -/
theorem SelfDelimiting.flatMap (h : SelfDelimiting code P) {l l' : List α}
    (hlength : l.length = l'.length) (hl : ∀ x ∈ l, P x) (hl' : ∀ x ∈ l', P x) {r s : List UInt8}
    (heq : l.flatMap code ++ r = l'.flatMap code ++ s) : l = l' ∧ r = s := by
  induction l generalizing l' with
  | nil =>
    obtain rfl : l' = [] := List.length_eq_zero_iff.mp hlength.symm
    exact ⟨rfl, heq⟩
  | cons x rest ih =>
    cases l' with
    | nil => cases hlength
    | cons y rest' =>
      rw [List.flatMap_cons, List.flatMap_cons, List.append_assoc, List.append_assoc] at heq
      obtain ⟨rfl, hrest⟩ := h x y (hl x List.mem_cons_self) (hl' y List.mem_cons_self) _ _ heq
      obtain ⟨rfl, rfl⟩ := ih (Nat.succ.inj hlength)
        (fun z hz => hl z (List.mem_cons_of_mem x hz))
        (fun z hz => hl' z (List.mem_cons_of_mem x hz)) hrest
      exact ⟨rfl, rfl⟩

/-- The length of a list of backups has to fit into a byte. -/
theorem selfDelimiting_backupBytes :
    SelfDelimiting LookupTree.backupBytes fun b => b.size ≤ 255 := by
  rintro ⟨l⟩ ⟨l'⟩ hl hl' r s heq
  obtain ⟨hcount, hrest⟩ := List.cons.inj heq
  have hlength : l.length = l'.length := by
    have hmod : l.length % 256 = l'.length % 256 := congrArg UInt8.toNat hcount
    have hlt : l.length < 256 := Nat.lt_succ_of_le hl
    have hlt' : l'.length < 256 := Nat.lt_succ_of_le hl'
    rwa [Nat.mod_eq_of_lt hlt, Nat.mod_eq_of_lt hlt'] at hmod
  obtain ⟨rfl, rfl⟩ := selfDelimiting_nodeId.flatMap hlength (fun _ _ => trivial)
    (fun _ _ => trivial) hrest
  exact ⟨rfl, rfl⟩

end SelfDelimiting

/-! ## Maps -/

namespace SortedMap

/-- There is every key in a map that has as many entries as there are keys. -/
theorem mem_entries_of_full {κ β : Type} [Ranked κ] {bound : Nat} {m : SortedMap κ β}
    (hsize : m.size = bound) (h : ∀ k : κ, rank k < bound) (k : κ) : ∃ v, (k, v) ∈ m.entries := by
  have hnodup : (m.entries.map fun e => rank e.1).Nodup :=
    (List.pairwise_map.mpr m.ascending).imp fun hlt => Nat.ne_of_lt hlt
  have hsubset : (m.entries.map fun e => rank e.1) ⊆ List.range bound := fun x hx => by
    obtain ⟨e, -, rfl⟩ := List.mem_map.mp hx
    exact List.mem_range.mpr (h e.1)
  have hlength : (List.range bound).length ≤ (m.entries.map fun e => rank e.1).length := by
    rw [List.length_range, List.length_map]
    exact Nat.le_of_eq hsize.symm
  have hperm := (List.subperm_of_subset hnodup hsubset).perm_of_length_le hlength
  obtain ⟨⟨k', v⟩, hmem, hrank⟩ := List.mem_map.mp (hperm.mem_iff.mpr (List.mem_range.mpr (h k)))
  obtain rfl : k' = k := Ranked.rank_injective hrank
  exact ⟨v, hmem⟩

/-- A map with all 64-bit numbers for keys begins with 0 and 1. -/
theorem entries_of_full {β : Type} {m : SortedMap UInt64 β} (hsize : m.size = 2 ^ 64) :
    ∃ v w rest, m.entries = (0, v) :: (1, w) :: rest := by
  obtain ⟨v, hv⟩ := mem_entries_of_full hsize (fun k => k.toNat_lt) 0
  obtain ⟨w, hw⟩ := mem_entries_of_full hsize (fun k => k.toNat_lt) 1
  have hasc := m.ascending
  revert hv hw hasc
  cases m.entries with
  | nil => exact fun hv _ _ => by cases hv
  | cons e l =>
    intro hv hw hasc
    obtain ⟨hhead, htail⟩ := List.pairwise_cons.mp hasc
    obtain rfl : (0, v) = e := (List.mem_cons.mp hv).resolve_right fun hmem =>
      absurd (hhead _ hmem) (Nat.not_lt_zero _)
    have hne : (1 : UInt64) ≠ 0 := by decide
    have hw : (1, w) ∈ l :=
      (List.mem_cons.mp hw).resolve_left fun heq => hne (congrArg Prod.fst heq)
    cases l with
    | nil => cases hw
    | cons e' rest =>
      have hpos := hhead e' List.mem_cons_self
      obtain rfl : (1, w) = e' := (List.mem_cons.mp hw).resolve_right fun hmem =>
        absurd ((List.pairwise_cons.mp htail).1 _ hmem) (Nat.not_lt.mpr hpos)
      exact ⟨v, w, rest, rfl⟩

end SortedMap

namespace LookupTree

variable {κ α β : Type} [Ranked κ] {key : κ → List UInt8} {value : β → List UInt8}
  {m n : SortedMap κ β} {K : κ → Prop} {P : β → Prop} {r s : List UInt8}

theorem mapBytes_mapValues (view : α → β) (m : SortedMap κ α) :
    mapBytes key value (m.mapValues fun _ v => view v) =
      mapBytes key (fun v => value (view v)) m := by
  unfold mapBytes SortedMap.size SortedMap.mapValues
  rw [List.length_map, List.flatMap_map]

/-- The number of entries is written first, as far as it fits into eight bytes. -/
theorem entries_of_mapBytes (h : mapBytes key value m ++ r = mapBytes key value n ++ s) :
    UInt64.ofNat m.size = UInt64.ofNat n.size ∧
      (m.entries.flatMap fun e => key e.1 ++ value e.2) ++ r =
        (n.entries.flatMap fun e => key e.1 ++ value e.2) ++ s := by
  unfold mapBytes at h
  rw [List.append_assoc, List.append_assoc] at h
  exact selfDelimiting_bigEndian64 _ _ trivial trivial _ _ h

/-- Sizes that are written alike are equal, or one map is empty and the other is full. -/
theorem size_eq_or (hm : m.size ≤ 2 ^ 64) (hn : n.size ≤ 2 ^ 64)
    (h : UInt64.ofNat m.size = UInt64.ofNat n.size) :
    m.size = n.size ∨ m.size = 0 ∧ n.size = 2 ^ 64 ∨ m.size = 2 ^ 64 ∧ n.size = 0 := by
  have hmod : m.size % 2 ^ 64 = n.size % 2 ^ 64 := congrArg UInt64.toNat h
  omega

/-- Maps are told apart if an empty one is not confused with a full one. -/
theorem eq_of_mapBytes (hkey : SelfDelimiting key fun _ => True) (hvalue : SelfDelimiting value P)
    (hm : ∀ e ∈ m.entries, P e.2) (hn : ∀ e ∈ n.entries, P e.2) (hbound : ∀ k : κ, rank k < 2 ^ 64)
    (hfull : m.size = 0 → n.size ≠ 2 ^ 64) (hfull' : n.size = 0 → m.size ≠ 2 ^ 64)
    (h : mapBytes key value m ++ r = mapBytes key value n ++ s) : m = n ∧ r = s := by
  obtain ⟨hcount, hrest⟩ := entries_of_mapBytes h
  have hsize : m.size = n.size := by
    rcases size_eq_or (m.size_le hbound) (n.size_le hbound) hcount with hsame | ⟨h₀, h₁⟩ | ⟨h₁, h₀⟩
    · exact hsame
    · exact absurd h₁ (hfull h₀)
    · exact absurd h₁ (hfull' h₀)
  obtain ⟨hentries, hrest⟩ := (hkey.append hvalue).flatMap hsize (fun e he => ⟨trivial, hm e he⟩)
    (fun e he => ⟨trivial, hn e he⟩) hrest
  exact ⟨SortedMap.ext hentries, hrest⟩

/-! ## Full maps -/

/-- What follows an empty map is not shorter than the entries of a full one. -/
theorem le_length_of_empty_full (hkey : ∀ k, 0 < (key k).length) (hm : m.size = 0)
    (hn : n.size = 2 ^ 64) (h : mapBytes key value m ++ r = mapBytes key value n ++ s) :
    2 ^ 64 ≤ r.length := by
  have hentries := (entries_of_mapBytes h).2
  rw [List.length_eq_zero_iff.mp hm, List.flatMap_nil, List.nil_append] at hentries
  have hsum : (n.entries.map fun e => (key e.1 ++ value e.2).length).length * 1 ≤
      (n.entries.map fun e => (key e.1 ++ value e.2).length).sum :=
    List.card_nsmul_le_sum _ 1 fun x hx => by
      obtain ⟨e, -, rfl⟩ := List.mem_map.mp hx
      rw [List.length_append]
      exact Nat.le_add_right_of_le (hkey e.1)
  rw [List.length_map, ← List.length_flatMap, Nat.mul_one] at hsum
  rw [hentries, List.length_append, ← hn]
  exact Nat.le_add_right_of_le hsum

theorem length_backupBytes (b : BackupPeers) : (backupBytes b).length = 2 * b.size + 1 := by
  obtain ⟨l⟩ := b
  refine congrArg (· + 1) ?_
  show (l.flatMap fun peer => bigEndian16 peer.val).length = 2 * l.length
  induction l with
  | nil => rfl
  | cons peer rest ih =>
    have hpeer : (bigEndian16 peer.val).length = 2 := rfl
    rw [List.flatMap_cons, List.length_append, ih, hpeer, List.length_cons, Nat.mul_succ,
      Nat.add_comm]

/-- There are not enough batches of migrated objects for a full map. -/
theorem length_migrationBytes_lt {m : SortedMap UInt32 BackupPeers}
    (h : ∀ e ∈ m.entries, e.2.size ≤ 255) :
    (mapBytes bigEndian32 backupBytes m).length < 2 ^ 63 := by
  have hsize : m.size ≤ 2 ^ 32 := m.size_le fun k => k.toNat_lt
  have hsum : (m.entries.map fun e => (bigEndian32 e.1 ++ backupBytes e.2).length).sum ≤
      (m.entries.map fun e => (bigEndian32 e.1 ++ backupBytes e.2).length).length * 515 :=
    List.sum_le_card_nsmul _ 515 fun x hx => by
      obtain ⟨e, he, rfl⟩ := List.mem_map.mp hx
      have hlist := h e he
      rw [List.length_append, length_backupBytes]
      show 4 + (2 * e.2.size + 1) ≤ 515
      omega
  rw [List.length_map, ← List.length_flatMap] at hsum
  have hcount : (mapBytes bigEndian32 backupBytes m).length =
      8 + (m.entries.flatMap fun e => bigEndian32 e.1 ++ backupBytes e.2).length :=
    List.length_append
  unfold SortedMap.size at hsize
  omega

/-- After the keys 0 and 1, and whatever stands for them, come different bytes. -/
theorem firstEntries_ne {b : BackupPeers} (hb : b.size ≤ 255) (id : NodeId) :
    bigEndian64 0 ++ (backupBytes b ++ (bigEndian64 1 ++ r)) ≠
      bigEndian16 id.val ++ (bigEndian64 1 ++ s) := by
  have hzero : bigEndian64 0 = [0, 0, 0, 0, 0, 0, 0, 0] := rfl
  have hone : bigEndian64 1 = [0, 0, 0, 0, 0, 0, 0, 1] := rfl
  rw [hzero, hone, backupBytes, bigEndian16]
  intro heq
  simp only [List.cons_append, List.nil_append, List.cons.injEq, true_and] at heq
  obtain ⟨-, -, hcount, hrest⟩ := heq
  have hmod : b.toList.length % 256 = 0 := congrArg UInt8.toNat hcount
  have hlt : b.toList.length < 256 := Nat.lt_succ_of_le hb
  rw [Nat.mod_eq_of_lt hlt] at hmod
  rw [List.length_eq_zero_iff.mp hmod] at hrest
  cases hrest

/-- No tree with a boundary at every number has the string of one without boundaries. -/
theorem owners_not_full {owners owners' : SortedMap UInt64 NodeId}
    {ranges : SortedMap UInt64 BackupPeers} {batches : SortedMap UInt32 BackupPeers}
    (hranges : ∀ e ∈ ranges.entries, e.2.size ≤ 255)
    (hbatches : ∀ e ∈ batches.entries, e.2.size ≤ 255) (hempty : owners.size = 0)
    (hfull : owners'.size = 2 ^ 64)
    (h : mapBytes bigEndian64 (fun id => bigEndian16 id.val) owners ++
        (mapBytes bigEndian64 backupBytes ranges ++ mapBytes bigEndian32 backupBytes batches) =
      mapBytes bigEndian64 (fun id => bigEndian16 id.val) owners' ++ s) : False := by
  have hkey : ∀ k, 0 < (bigEndian64 k).length := fun _ => Nat.succ_pos 7
  have hlong := le_length_of_empty_full hkey hempty hfull h
  obtain ⟨id, id', rest, howners'⟩ := SortedMap.entries_of_full hfull
  have hentries := (entries_of_mapBytes h).2
  rw [List.length_eq_zero_iff.mp hempty, howners', List.flatMap_nil, List.nil_append] at hentries
  simp only [List.flatMap_cons, List.append_assoc] at hentries
  -- The key 0 is where the number of ranges is.
  have hcount : UInt64.ofNat ranges.size = 0 := by
    rw [mapBytes, List.append_assoc] at hentries
    exact (selfDelimiting_bigEndian64 _ _ trivial trivial _ _ hentries).1
  have hmod : ranges.size % 2 ^ 64 = 0 := congrArg UInt64.toNat hcount
  have hle : ranges.size ≤ 2 ^ 64 := ranges.size_le fun k => k.toNat_lt
  rcases (by omega : ranges.size = 0 ∨ ranges.size = 2 ^ 64) with hsize | hsize
  · have hshort := length_migrationBytes_lt hbatches
    rw [List.length_append, mapBytes, List.length_eq_zero_iff.mp hsize, List.flatMap_nil,
      List.append_nil] at hlong
    have height : (bigEndian64 (UInt64.ofNat ranges.size)).length = 8 := rfl
    omega
  · obtain ⟨b, b', rest', hentries'⟩ := SortedMap.entries_of_full hsize
    rw [mapBytes, hcount, hentries'] at hentries
    simp only [List.flatMap_cons, List.append_assoc, List.append_cancel_left_eq] at hentries
    exact firstEntries_ne (hranges _ (hentries' ▸ List.mem_cons_self)) id hentries

theorem ranges_not_full {ranges ranges' : SortedMap UInt64 BackupPeers}
    {batches : SortedMap UInt32 BackupPeers} (hbatches : ∀ e ∈ batches.entries, e.2.size ≤ 255)
    (hempty : ranges.size = 0) (hfull : ranges'.size = 2 ^ 64)
    (h : mapBytes bigEndian64 backupBytes ranges ++ mapBytes bigEndian32 backupBytes batches =
      mapBytes bigEndian64 backupBytes ranges' ++ s) : False := by
  have hkey : ∀ k, 0 < (bigEndian64 k).length := fun _ => Nat.succ_pos 7
  have hlong := le_length_of_empty_full hkey hempty hfull h
  have hshort := length_migrationBytes_lt hbatches
  omega

/-! ## The byte string of a tree -/

variable {t u : LookupTree}

/-- The length of every list of backups fits into a byte. -/
structure ShortLists (t : LookupTree) : Prop where
  backupRanges : ∀ e ∈ t.backupRanges.entries, e.2.size ≤ 255
  migrationRanges : ∀ e ∈ t.migrationRanges.entries, e.2.size ≤ 255

/-- The owners, with `invalid` in the place of those that are missing. -/
def shownOwners (t : LookupTree) : SortedMap UInt64 NodeId :=
  t.owners.mapValues fun _ owner => owner.getD .invalid

/-- The trees differ at most in that what is removed in one belongs to `invalid` in the other. -/
structure Alike (t u : LookupTree) : Prop where
  creator : t.creator = u.creator
  alive : t.alive = u.alive
  owners : t.shownOwners = u.shownOwners
  backupRanges : t.backupRanges = u.backupRanges
  migrationRanges : t.migrationRanges = u.migrationRanges

theorem selfDelimiting_status :
    SelfDelimiting (fun alive : Bool => [if alive then (1 : UInt8) else 0]) fun _ => True :=
  selfDelimiting_byte.via (fun alive : Bool => if alive then (1 : UInt8) else 0) (· == 1)
    fun alive => by cases alive <;> rfl

theorem digestBytes_eq (t : LookupTree) :
    t.digestBytes = (bigEndian16 t.creator.val ++ [if t.alive then 1 else 0]) ++
      (mapBytes bigEndian64 (fun id => bigEndian16 id.val) t.shownOwners ++
        (mapBytes bigEndian64 backupBytes t.backupRanges ++
          mapBytes bigEndian32 backupBytes t.migrationRanges)) := by
  rw [shownOwners, mapBytes_mapValues, digestBytes, List.append_assoc, List.append_assoc]

/-- The string says everything about a tree, except that an object which is removed might as well
belong to `invalid`. -/
theorem digestBytes_eq_iff (ht : t.ShortLists) (hu : u.ShortLists) :
    t.digestBytes = u.digestBytes ↔ t.Alike u := by
  constructor
  · intro heq
    rw [digestBytes_eq, digestBytes_eq] at heq
    obtain ⟨hhead, hrest⟩ := (selfDelimiting_nodeId.append selfDelimiting_status)
      (t.creator, t.alive) (u.creator, u.alive) ⟨trivial, trivial⟩ ⟨trivial, trivial⟩ _ _ heq
    have hkeys : ∀ k : UInt64, rank k < 2 ^ 64 := fun k => k.toNat_lt
    obtain ⟨howners, hrest⟩ := eq_of_mapBytes selfDelimiting_bigEndian64 selfDelimiting_nodeId
      (fun _ _ => trivial) (fun _ _ => trivial) hkeys
      (fun hempty hfull => owners_not_full ht.backupRanges ht.migrationRanges hempty hfull hrest)
      (fun hempty hfull =>
        owners_not_full hu.backupRanges hu.migrationRanges hempty hfull hrest.symm) hrest
    obtain ⟨hranges, hrest⟩ := eq_of_mapBytes selfDelimiting_bigEndian64 selfDelimiting_backupBytes
      ht.backupRanges hu.backupRanges hkeys
      (fun hempty hfull => ranges_not_full ht.migrationRanges hempty hfull hrest)
      (fun hempty hfull => ranges_not_full hu.migrationRanges hempty hfull hrest.symm) hrest
    -- There are fewer batches than eight bytes can count.
    have hbatches (m : SortedMap UInt32 BackupPeers) : m.size ≠ 2 ^ 64 :=
      Nat.ne_of_lt (Nat.lt_of_le_of_lt (m.size_le fun k => k.toNat_lt) (by decide))
    obtain ⟨hmigrated, -⟩ := eq_of_mapBytes (r := []) (s := []) selfDelimiting_bigEndian32
      selfDelimiting_backupBytes ht.migrationRanges hu.migrationRanges
      (fun k => Nat.lt_trans k.toNat_lt (by decide)) (fun _ => hbatches _) (fun _ => hbatches _)
      (congrArg (· ++ []) hrest)
    exact ⟨congrArg Prod.fst hhead, congrArg Prod.snd hhead, howners, hranges, hmigrated⟩
  · rintro ⟨hcreator, halive, howners, hranges, hmigrated⟩
    rw [digestBytes_eq, digestBytes_eq, hcreator, halive, howners, hranges, hmigrated]

/-! ## Trees that came about by changes -/

variable {c : Change} {x creator : NodeId} {history : List Change} {id : UInt64}

/-- The node that gets objects by the change. -/
def Change.receiver? : Change → Option NodeId
  | .migrate _ owner | .migrateRange _ _ owner => some owner
  | .reassign _ restorer => some restorer
  | _ => none

theorem Change.receiver?_of_assignment {s : Span} {owner : Option NodeId}
    (h : c.assignment? = some (s, owner)) : c.receiver? = owner := by
  cases c with
  | migrate | migrateRange | remove => cases h; rfl
  | _ => cases h

/-- Who has nothing and gets nothing has nothing afterwards. -/
theorem ownerAt_change_ne (h : ∀ id ≤ maxLocalId, t.ownerAt id ≠ some x)
    (hc : c.receiver? ≠ some x) (hid : id ≤ maxLocalId) : (t.change c).ownerAt id ≠ some x := by
  cases hassignment : c.assignment? with
  | some assignment =>
    obtain ⟨s, owner⟩ := assignment
    rw [ownerAt_change_of_assignment hassignment t hid]
    split
    · exact Change.receiver?_of_assignment hassignment ▸ hc
    · exact h id hid
  | none =>
    cases c with
    | migrate | migrateRange | remove => cases hassignment
    | reassign owner restorer =>
      rw [change, ownerAt_reassign, handOver]
      split
      · exact hc
      · exact h id hid
    | _ => exact h id hid

/-- To whom no change gives anything and who is not the creator has nothing. -/
theorem ownerAt_replay_ne (hcreator : creator ≠ x) (h : ∀ c ∈ history, c.receiver? ≠ some x) :
    ∀ id ≤ maxLocalId, (replay creator history).ownerAt id ≠ some x :=
  List.foldlRecOn (motive := fun t => ∀ id ≤ maxLocalId, t.ownerAt id ≠ some x) history change
    (fun _ _ heq => hcreator (Option.some.inj heq))
    fun _ ht c hc _ hid => ownerAt_change_ne ht (h c hc) hid

/-- Trees that are alike show the same owners. -/
theorem Alike.ownerAt (h : t.Alike u) (id : UInt64) :
    (t.ownerAt id).getD .invalid = (u.ownerAt id).getD .invalid := by
  have hshown (v : LookupTree) : some ((v.ownerAt id).getD .invalid) =
      ownerFrom (some v.creator) (v.shownOwners.entries.map fun e => (e.1, some e.2)) id := by
    rw [ownerAt_eq, shownOwners, SortedMap.mapValues, List.map_map]
    exact (ownerFrom_map (fun o => some (o.getD .invalid)) id).symm
  have hsame := hshown t
  rw [h.owners, h.creator, ← hshown u] at hsame
  exact Option.some.inj hsame

theorem eq_of_shown {a b : Option NodeId} (h : a.getD .invalid = b.getD .invalid)
    (ha : a ≠ some .invalid) (hb : b ≠ some .invalid) : a = b := by
  cases a with
  | none =>
    cases b with
    | none => rfl
    | some y => exact absurd (congrArg some h.symm) hb
  | some x =>
    cases b with
    | none => exact absurd (congrArg some h) ha
    | some y => exact congrArg some h

/-- Canonical trees in which nothing belongs to `invalid` are alike only if they are equal. -/
theorem Alike.eq (h : t.Alike u) (ht : t.Canonical) (hu : u.Canonical)
    (htowner : ∀ id ≤ maxLocalId, t.ownerAt id ≠ some .invalid)
    (huowner : ∀ id ≤ maxLocalId, u.ownerAt id ≠ some .invalid) : t = u :=
  ht.eq hu h.creator
    (fun id hid => eq_of_shown (h.ownerAt id) (htowner id hid) (huowner id hid))
    h.alive h.backupRanges h.migrationRanges

/-- The digests are equal although what is hashed is not. -/
def Collide (t u : LookupTree) : Prop := t.digestBytes ≠ u.digestBytes ∧ t.digest = u.digest

/-- What is hashed tells trees apart up to objects that are removed or belong to `invalid`. Trees
that came about by changes which gave nothing to `invalid`, and whose creators are not `invalid`
either, are therefore equal if their digests are, unless the hashes collide. -/
theorem digest_tells_apart :
    (∀ t u : LookupTree, t.ShortLists → u.ShortLists →
      (t.digestBytes = u.digestBytes ↔ t.Alike u)) ∧
    ∀ (creator creator' : NodeId) (history history' : List Change),
      creator ≠ .invalid → creator' ≠ .invalid →
      (∀ c ∈ history, c.receiver? ≠ some .invalid) →
      (∀ c ∈ history', c.receiver? ≠ some .invalid) →
      (replay creator history).ShortLists → (replay creator' history').ShortLists →
      ¬ Collide (replay creator history) (replay creator' history') →
      ((replay creator history).digest = (replay creator' history').digest ↔
        replay creator history = replay creator' history') := by
  refine ⟨fun t u ht hu => digestBytes_eq_iff ht hu, ?_⟩
  intro creator creator' history history' hcreator hcreator' hnone hnone' ht hu hcollide
  refine ⟨fun hdigest => ?_, congrArg digest⟩
  have hbytes := Classical.not_not.mp fun hne => hcollide ⟨hne, hdigest⟩
  exact ((digestBytes_eq_iff ht hu).mp hbytes).eq (canonical_replay creator history)
    (canonical_replay creator' history') (ownerAt_replay_ne hcreator hnone)
    (ownerAt_replay_ne hcreator' hnone')

/-- A tree and the same tree without one of its objects. -/
theorem digest_tells_apart_removed :
    ((replay ⟨150⟩ [.migrate ⟨5⟩ ⟨300⟩]).digestBytes =
          (replay ⟨150⟩ [.migrate ⟨5⟩ ⟨300⟩, .remove ⟨6⟩]).digestBytes ↔
        (replay ⟨150⟩ [.migrate ⟨5⟩ ⟨300⟩]).Alike
          (replay ⟨150⟩ [.migrate ⟨5⟩ ⟨300⟩, .remove ⟨6⟩])) ∧
      ((replay ⟨150⟩ [.migrate ⟨5⟩ ⟨300⟩]).digest =
          (replay ⟨150⟩ [.migrate ⟨5⟩ ⟨300⟩, .remove ⟨6⟩]).digest ↔
        replay ⟨150⟩ [.migrate ⟨5⟩ ⟨300⟩] = replay ⟨150⟩ [.migrate ⟨5⟩ ⟨300⟩, .remove ⟨6⟩]) := by
  obtain ⟨hbytes, hdigests⟩ := digest_tells_apart
  have ht : (replay ⟨150⟩ [.migrate ⟨5⟩ ⟨300⟩]).ShortLists := ⟨by decide, by decide⟩
  have hu : (replay ⟨150⟩ [.migrate ⟨5⟩ ⟨300⟩, .remove ⟨6⟩]).ShortLists :=
    ⟨by decide, by decide⟩
  have hne : (replay ⟨150⟩ [.migrate ⟨5⟩ ⟨300⟩]).digest ≠
      (replay ⟨150⟩ [.migrate ⟨5⟩ ⟨300⟩, .remove ⟨6⟩]).digest := by decide +kernel
  exact ⟨hbytes _ _ ht hu, hdigests ⟨150⟩ ⟨150⟩ _ _ (by decide) (by decide) (by decide) (by decide)
    ht hu fun hcollide => hne hcollide.2⟩

/-- If the creator is `invalid` itself, all that it kept might as well be removed: here its last
object, behind one that moved to another node. -/
theorem digest_confuses_invalid :
    (∀ c ∈ [Change.migrate ⟨281474976710654⟩ ⟨5⟩, .remove ⟨281474976710655⟩],
        ∀ x ∈ c.receiver?, x.isReserved = false) ∧
      (replay .invalid [.migrate ⟨281474976710654⟩ ⟨5⟩]).ShortLists ∧
      (replay .invalid
        [.migrate ⟨281474976710654⟩ ⟨5⟩, .remove ⟨281474976710655⟩]).ShortLists ∧
      (replay .invalid [.migrate ⟨281474976710654⟩ ⟨5⟩]).digestBytes =
        (replay .invalid
          [.migrate ⟨281474976710654⟩ ⟨5⟩, .remove ⟨281474976710655⟩]).digestBytes ∧
      (replay .invalid [.migrate ⟨281474976710654⟩ ⟨5⟩]).digest =
        (replay .invalid
          [.migrate ⟨281474976710654⟩ ⟨5⟩, .remove ⟨281474976710655⟩]).digest ∧
      replay .invalid [.migrate ⟨281474976710654⟩ ⟨5⟩] ≠
        replay .invalid [.migrate ⟨281474976710654⟩ ⟨5⟩, .remove ⟨281474976710655⟩] := by
  have hbytes : (replay .invalid [.migrate ⟨281474976710654⟩ ⟨5⟩]).digestBytes =
      (replay .invalid
        [.migrate ⟨281474976710654⟩ ⟨5⟩, .remove ⟨281474976710655⟩]).digestBytes := by decide
  refine ⟨by decide, ⟨by decide, by decide⟩, ⟨by decide, by decide⟩, hbytes, ?_, by decide⟩
  rw [digest, digest, hbytes]

end LookupTree

end ChunkDirectory
