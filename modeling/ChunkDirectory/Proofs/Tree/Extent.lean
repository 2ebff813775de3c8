import Mathlib.Algebra.Ring.Nat
import ChunkDirectory.Proofs.Tree.Canonical

/-!
# How far an answer extends

The answer to a look-up names the range of chunks for which it may be kept. Two maps cut this range:
the boundaries of owners, and for objects that are with their creator also the starts of backup
ranges. To both the same can be said. Between two neighbouring cuts nothing changes, and the range
goes from the last cut that is not above the object to the next one, or to an end of the local
identifiers (`Stretch`).

So an answer holds for each chunk of its range, and the range is as wide as it can be: where it ends
before the identifiers do, the history of the tree has the next object with another owner, or a
backup range that starts between the two (`LookupTree.locate_extent`).
-/

namespace ChunkDirectory

/-! ## Chunks in a range -/

namespace ChunkId

theorem toNat_localId (chunk : ChunkId) : chunk.localId.toNat = chunk.bits.toNat % 2 ^ 48 := by
  rw [localId, UInt64.toNat_and]
  exact Nat.and_two_pow_sub_one_eq_mod chunk.bits.toNat 48

theorem toNat_creator (chunk : ChunkId) : chunk.creator.toNat = chunk.bits.toNat / 2 ^ 48 := by
  have hlt := chunk.bits.toNat_lt
  have hshift : (chunk.bits >>> 48).toNat = chunk.bits.toNat / 2 ^ 48 := by
    rw [UInt64.toNat_shiftRight]
    exact Nat.shiftRight_eq_div_pow chunk.bits.toNat 48
  show (chunk.bits >>> 48).toUInt16.toNat = _
  rw [UInt64.toNat_toUInt16, hshift]
  omega

/-- An identifier is put together from its two parts. -/
theorem toNat_bits (chunk : ChunkId) :
    chunk.bits.toNat = chunk.creator.toNat * 2 ^ 48 + chunk.localId.toNat := by
  rw [toNat_creator, toNat_localId]
  omega

theorem toNat_make (creator : NodeId) {localId : UInt64} (h : localId ≤ maxLocalId) :
    (make creator localId).bits.toNat = creator.toNat * 2 ^ 48 + localId.toNat := by
  have hlocal : localId.toNat < 2 ^ 48 := Nat.lt_succ_of_le h
  have hcreator : (creator.val.toUInt64 <<< 48).toNat = creator.toNat * 2 ^ 48 := by
    have hlt := creator.toNat_lt
    rw [UInt64.toNat_shiftLeft]
    show creator.toNat <<< 48 % 2 ^ 64 = _
    rw [Nat.shiftLeft_eq]
    omega
  rw [make, and_maxLocalId h, UInt64.toNat_or, hcreator, Nat.mul_comm]
  exact (Nat.two_pow_add_eq_or_of_lt hlocal creator.toNat).symm

/-- Between two chunks of one creator there are only chunks of that creator, and they are ordered by
their local identifiers. -/
theorem between_make_iff {creator : NodeId} {first last : UInt64} (hfirst : first ≤ maxLocalId)
    (hlast : last ≤ maxLocalId) {chunk : ChunkId} :
    (make creator first).bits ≤ chunk.bits ∧ chunk.bits ≤ (make creator last).bits ↔
      chunk.creator = creator ∧ first ≤ chunk.localId ∧ chunk.localId ≤ last := by
  have hbelow : first.toNat < 2 ^ 48 := Nat.lt_succ_of_le hfirst
  have habove : last.toNat < 2 ^ 48 := Nat.lt_succ_of_le hlast
  have hlocal : chunk.localId.toNat < 2 ^ 48 := Nat.lt_succ_of_le chunk.localId_le
  rw [UInt64.le_iff_toNat_le, UInt64.le_iff_toNat_le, toNat_make creator hfirst,
    toNat_make creator hlast, chunk.toNat_bits, UInt64.le_iff_toNat_le, UInt64.le_iff_toNat_le,
    ← NodeId.toNat_eq_iff]
  omega

theorem localId_make (creator : NodeId) {localId : UInt64} (h : localId ≤ maxLocalId) :
    (make creator localId).localId = localId := by
  have hbits := toNat_make creator h
  have hlt : localId.toNat < 2 ^ 48 := Nat.lt_succ_of_le h
  rw [← UInt64.toNat_inj, toNat_localId, hbits]
  omega

end ChunkId

/-! ## Stretches between cuts -/

/-- The identifiers from `first` to `id` have no cut between them, and `first` is at a cut unless it
is the first identifier of all. -/
structure Stretch.Begins (cut : UInt64 → Prop) (id first : UInt64) : Prop where
  first_le : first ≤ id
  no_cut : ∀ k, cut k → k ≤ id → k ≤ first
  sharp : first = 0 ∨ cut first

/-- The identifiers from `id` to `last` have no cut between them, and there is one right behind
`last` unless it is the last local identifier. -/
structure Stretch.Ends (cut : UInt64 → Prop) (id last : UInt64) : Prop where
  le_last : id ≤ last
  last_le : last ≤ maxLocalId
  no_cut : ∀ k, cut k → id < k → last < k
  sharp : last = maxLocalId ∨ cut (last + 1)

/-- Around `id`, the identifiers from `first` to `last` lie between two neighbouring cuts. -/
structure Stretch (cut : UInt64 → Prop) (id first last : UInt64) : Prop where
  begins : Stretch.Begins cut id first
  ends : Stretch.Ends cut id last

namespace Stretch

variable {cut cut' : UInt64 → Prop} {id first last first' last' : UInt64}

/-- Every cut is on the same side of all identifiers of the stretch. -/
theorem same_side (h : Stretch cut id first last) {other k : UInt64} (hfirst : first ≤ other)
    (hlast : other ≤ last) (hk : cut k) : k ≤ id ↔ k ≤ other := by
  constructor
  · intro hle
    exact UInt64.le_trans (h.begins.no_cut k hk hle) hfirst
  · intro hle
    apply UInt64.not_lt.mp
    intro hlt
    exact UInt64.not_le.mpr (h.ends.no_cut k hk hlt) (UInt64.le_trans hle hlast)

/-- With cuts of two kinds, the later beginning counts. -/
theorem Begins.max (h : Begins cut id first) (h' : Begins cut' id first') :
    Begins (fun k => cut k ∨ cut' k) id (max first first') := by
  show Begins _ id (if first ≤ first' then first' else first)
  split
  case isTrue hle =>
    refine ⟨h'.first_le, ?_, h'.sharp.imp_right .inr⟩
    rintro k (hk | hk) hkid
    · exact UInt64.le_trans (h.no_cut k hk hkid) hle
    · exact h'.no_cut k hk hkid
  case isFalse hlt =>
    refine ⟨h.first_le, ?_, h.sharp.imp_right .inl⟩
    rintro k (hk | hk) hkid
    · exact h.no_cut k hk hkid
    · exact UInt64.le_trans (h'.no_cut k hk hkid) (UInt64.le_of_lt (UInt64.not_le.mp hlt))

/-- With cuts of two kinds, the earlier end counts. -/
theorem Ends.min (h : Ends cut id last) (h' : Ends cut' id last') :
    Ends (fun k => cut k ∨ cut' k) id (min last last') := by
  show Ends _ id (if last ≤ last' then last else last')
  split
  case isTrue hle =>
    refine ⟨h.le_last, h.last_le, ?_, h.sharp.imp_right .inl⟩
    rintro k (hk | hk) hidk
    · exact h.no_cut k hk hidk
    · exact UInt64.lt_of_le_of_lt hle (h'.no_cut k hk hidk)
  case isFalse hlt =>
    refine ⟨h'.le_last, h'.last_le, ?_, h'.sharp.imp_right .inr⟩
    rintro k (hk | hk) hidk
    · exact UInt64.lt_trans (UInt64.not_le.mp hlt) (h.no_cut k hk hidk)
    · exact h'.no_cut k hk hidk

/-! ### Keys of a map as cuts -/

variable {β : Type} {m : SortedMap UInt64 β}

/-- The number before a key of the map, in case the key is above `id`. -/
theorem toNat_pred {k : UInt64} (h : id < k) : (k - 1).toNat + 1 = k.toNat := by
  have hpos : 1 ≤ k.toNat := Nat.lt_of_le_of_lt (Nat.zero_le id.toNat) h
  have hone : (1 : UInt64) ≤ k := UInt64.le_iff_toNat_le.mpr hpos
  rw [UInt64.toNat_sub_of_le k 1 hone]
  exact Nat.sub_add_cancel hpos

theorem begins_floor (m : SortedMap UInt64 β) (id : UInt64) :
    Begins (· ∈ m.keys) id (((m.floor? id).map (·.1)).getD 0) := by
  cases hfloor : m.floor? id with
  | none =>
    have hnone := SortedMap.floor?_eq_none_iff.mp hfloor
    refine ⟨UInt64.zero_le, fun k hk hle => ?_, .inl rfl⟩
    obtain ⟨e, he, rfl⟩ := List.mem_map.mp hk
    exact absurd hle (Nat.not_le.mpr (hnone e he))
  | some entry =>
    obtain ⟨hmem, hle, hmax⟩ := SortedMap.floor?_eq_some_iff.mp hfloor
    refine ⟨hle, fun k hk hkid => ?_, .inr (List.mem_map_of_mem hmem)⟩
    obtain ⟨e, he, rfl⟩ := List.mem_map.mp hk
    exact hmax e he hkid

theorem ends_above (hbound : ∀ k ∈ m.keys, k ≤ maxLocalId) (hid : id ≤ maxLocalId) :
    Ends (· ∈ m.keys) id (((m.above? id).map (·.1 - 1)).getD maxLocalId) := by
  cases habove : m.above? id with
  | none =>
    have hnone := SortedMap.above?_eq_none_iff.mp habove
    refine ⟨hid, UInt64.le_refl _, fun k hk hlt => ?_, .inl rfl⟩
    obtain ⟨e, he, rfl⟩ := List.mem_map.mp hk
    exact absurd hlt (Nat.not_lt.mpr (hnone e he))
  | some entry =>
    obtain ⟨hmem, hlt, hmin⟩ := SortedMap.above?_eq_some_iff.mp habove
    have hkey : entry.1 ∈ m.keys := List.mem_map_of_mem hmem
    have hpred : (entry.1 - 1).toNat + 1 = entry.1.toNat := toNat_pred hlt
    have hsucc : entry.1 - 1 + 1 = entry.1 := UInt64.sub_add_cancel entry.1 1
    have hle : entry.1.toNat ≤ maxLocalId.toNat := hbound entry.1 hkey
    have hlt' : id.toNat < entry.1.toNat := hlt
    refine ⟨?_, ?_, fun k hk hidk => ?_, .inr ?_⟩
    · show id.toNat ≤ (entry.1 - 1).toNat
      omega
    · show (entry.1 - 1).toNat ≤ maxLocalId.toNat
      omega
    · obtain ⟨e, he, rfl⟩ := List.mem_map.mp hk
      have hleast : entry.1.toNat ≤ e.1.toNat := hmin e he hidk
      show (entry.1 - 1).toNat < e.1.toNat
      omega
    · show entry.1 - 1 + 1 ∈ m.keys
      rwa [hsucc]

end Stretch

namespace LookupTree

variable {t : LookupTree} {chunk other : ChunkId} {l : Locations} {current : Option NodeId}
  {id first last : UInt64}

/-! ## Where an answer ends -/

/-- The identifiers that begin something new for objects of `primary`. -/
def Cut (t : LookupTree) (primary : NodeId) (k : UInt64) : Prop :=
  k ∈ t.owners.keys ∨ primary = t.creator ∧ k ∈ t.backupRanges.keys

theorem max_getD_self (first : UInt64) (o : Option UInt64) :
    max first (o.getD first) = max first (o.getD 0) := by
  cases o with
  | some start => rfl
  | none =>
    show (if first ≤ first then first else first) = if first ≤ 0 then 0 else first
    rw [ite_self]
    split
    case isTrue hle => exact UInt64.le_antisymm hle UInt64.zero_le
    case isFalse => rfl

theorem min_getD_self {last : UInt64} (h : last ≤ maxLocalId) (o : Option UInt64) :
    min last (o.getD last) = min last (o.getD maxLocalId) := by
  cases o with
  | some next => rfl
  | none =>
    show (if last ≤ last then last else last) = if last ≤ maxLocalId then last else maxLocalId
    rw [ite_self, if_pos h]

/-- An answer has the range around the object that lies between two neighbouring cuts. -/
theorem exists_stretch_of_locate (hbound : ∀ primary k, t.Cut primary k → k ≤ maxLocalId)
    (h : t.locate chunk = some l) :
    ∃ first last, Stretch (t.Cut l.primary) chunk.localId first last ∧
      l.first = .make t.creator first ∧ l.last = .make t.creator last := by
  have hbegins := Stretch.begins_floor t.owners chunk.localId
  have hends := Stretch.ends_above (m := t.owners) (fun k hk => hbound t.creator k (.inl hk))
    chunk.localId_le
  obtain ⟨primary, -, rfl⟩ := Option.map_eq_some_iff.mp h
  by_cases hcreator : primary = t.creator
  · have hcut : t.Cut primary = fun k => k ∈ t.owners.keys ∨ k ∈ t.backupRanges.keys := by
      funext k
      simp [Cut, hcreator]
    have hranges : ∀ k ∈ t.backupRanges.keys, k ≤ maxLocalId := fun k hk =>
      hbound t.creator k (.inr ⟨rfl, hk⟩)
    simp only [if_pos hcreator, max_getD_self, min_getD_self hends.last_le, hcut]
    exact ⟨_, _, ⟨hbegins.max (Stretch.begins_floor _ _),
      hends.min (Stretch.ends_above hranges chunk.localId_le)⟩, rfl, rfl⟩
  · have hcut : t.Cut primary = (· ∈ t.owners.keys) := by
      funext k
      simp [Cut, hcreator]
    simp only [if_neg hcreator, hcut]
    exact ⟨_, _, ⟨hbegins, hends⟩, rfl, rfl⟩

/-- Objects on the same side of every cut have the same answer. -/
theorem locate_congr (h : t.locate chunk = some l)
    (hside : ∀ k, t.Cut l.primary k → (k ≤ chunk.localId ↔ k ≤ other.localId)) :
    t.locate other = some l := by
  obtain ⟨hfloor, habove⟩ : t.owners.floor? chunk.localId = t.owners.floor? other.localId ∧
      t.owners.above? chunk.localId = t.owners.above? other.localId :=
    SortedMap.neighbours_congr fun e he => hside e.1 (.inl (List.mem_map_of_mem he))
  have howner : t.ownerAt other.localId = t.ownerAt chunk.localId := by
    rw [ownerAt, ownerAt, hfloor]
  obtain ⟨primary, hprimary, rfl⟩ := Option.map_eq_some_iff.mp h
  rw [locate, howner, hprimary, Option.map_some]
  by_cases hcreator : primary = t.creator
  · simp only [if_pos hcreator] at hside ⊢
    obtain ⟨hfloor', habove'⟩ :
        t.backupRanges.floor? chunk.localId = t.backupRanges.floor? other.localId ∧
          t.backupRanges.above? chunk.localId = t.backupRanges.above? other.localId :=
      SortedMap.neighbours_congr fun e he =>
        hside e.1 (.inr ⟨hcreator, List.mem_map_of_mem he⟩)
    rw [hfloor, habove, hfloor', habove']
  · simp only [if_neg hcreator]
    rw [hfloor, habove]

/-! ## Cuts and the history -/

/-- At each boundary that is needed, the owner changes. -/
theorem Changing.ownerFrom_ne {boundaries : List (UInt64 × Option NodeId)}
    (h : Changing current boundaries) {b : UInt64 × Option NodeId} (hb : b ∈ boundaries)
    {before : UInt64} (hbefore : rank before + 1 = rank b.1) :
    ownerFrom current boundaries before ≠ ownerFrom current boundaries b.1 := by
  induction h with
  | nil => cases hb
  | @cons current b' rest bounded differs hfirst tail ih =>
    rcases List.mem_cons.mp hb with rfl | hb
    · rw [ownerFrom_cons_self (.cons bounded differs hfirst tail), ownerFrom, if_neg (by omega)]
      exact differs.symm
    · have hlt := hfirst b hb
      rw [ownerFrom, ownerFrom, if_pos (by omega), if_pos (by omega)]
      exact ih hb

theorem Canonical.ownerAt_ne (h : t.Canonical) {before k : UInt64} (hk : k ∈ t.owners.keys)
    (hbefore : rank before + 1 = rank k) : t.ownerAt before ≠ t.ownerAt k := by
  obtain ⟨b, hb, rfl⟩ := List.mem_map.mp hk
  rw [ownerAt_eq, ownerAt_eq]
  exact h.ownerFrom_ne hb hbefore

end LookupTree

namespace Account

variable {a : Account} {creator primary : NodeId} {outside start : UInt64}

/-- Beyond the end of a range for objects of `primary` lies `outside`, which has another owner, or
the way there crosses the start of a backup range. -/
def Limits (a : Account) (creator primary : NodeId) (outside start : UInt64) : Prop :=
  a.owner outside ≠ some primary ∨ primary = creator ∧ ∃ backups, a.backups start = some backups

/-- Ranges start at local identifiers. -/
theorem le_of_backups_ofHistory {history : List LookupTree.Change} {backups : BackupPeers}
    (h : (ofHistory creator history).backups start = some backups) : start ≤ maxLocalId := by
  suffices hall : ∀ b, (ofHistory creator history).backups start = some b → start ≤ maxLocalId from
    hall backups h
  refine List.foldlRecOn
    (motive := fun a : Account => ∀ b, a.backups start = some b → start ≤ maxLocalId)
    history record (fun _ h => by cases h) fun a ih c _ b hb => ?_
  cases c with
  | initRange first _ =>
    simp only [record] at hb
    split at hb
    case isTrue heq => exact heq ▸ first.localId_le
    case isFalse => exact ih b hb
  | eraseBackup peer =>
    obtain ⟨b', hb', -⟩ := Option.map_eq_some_iff.mp hb
    exact ih b' hb'
  | _ => exact ih b hb

end Account

namespace LookupTree

variable {t : LookupTree} {a : Account} {creator primary : NodeId} {history : List Change}
  {chunk : ChunkId} {l : Locations} {before k : UInt64}

theorem Records.mem_backupRanges_iff (h : t.Records a) :
    k ∈ t.backupRanges.keys ↔ ∃ backups, a.backups k = some backups := by
  rw [SortedMap.mem_keys_iff, h.backups, Option.isSome_iff_exists]

/-- A cut limits the objects of `primary` on either of its sides. -/
theorem Records.limits (h : t.Records a) (hcanonical : t.Canonical) (hcut : t.Cut primary k)
    (hk : k ≤ maxLocalId) (hbefore : rank before + 1 = rank k) :
    (t.ownerAt k = some primary → a.Limits t.creator primary before k) ∧
      (t.ownerAt before = some primary → a.Limits t.creator primary k k) := by
  rcases hcut with howners | ⟨hcreator, hranges⟩
  · have hne := hcanonical.ownerAt_ne howners hbefore
    have hle : before ≤ maxLocalId :=
      Nat.le_trans (Nat.le_of_lt (Nat.lt_of_succ_le (Nat.le_of_eq hbefore))) hk
    rw [h.owner k hk, h.owner before hle] at hne
    rw [h.owner k hk, h.owner before hle]
    constructor
    · intro howner
      exact .inl (howner ▸ hne)
    · intro howner
      exact .inl (howner ▸ hne.symm)
  · have hlimits : ∀ outside, a.Limits t.creator primary outside k := fun outside =>
      .inr ⟨hcreator, h.mem_backupRanges_iff.mp hranges⟩
    exact ⟨fun _ => hlimits before, fun _ => hlimits k⟩

/-- The cuts of a tree are local identifiers. -/
theorem le_of_cut_replay (h : (replay creator history).Cut primary k) : k ≤ maxLocalId := by
  rcases h with howners | ⟨-, hranges⟩
  · obtain ⟨b, hb, rfl⟩ := List.mem_map.mp howners
    exact (canonical_replay creator history).bounded b hb
  · obtain ⟨backups, hbackups⟩ := (records_replay creator history).mem_backupRanges_iff.mp hranges
    exact Account.le_of_backups_ofHistory hbackups

/-- The objects of a range have one owner. -/
theorem ownerAt_of_mem_stretch {first last id : UInt64} (h : t.locate chunk = some l)
    (hstretch : Stretch (t.Cut l.primary) chunk.localId first last) (hfirst : first ≤ id)
    (hlast : id ≤ last) : t.ownerAt id = some l.primary := by
  have hid : (ChunkId.mk id).localId = id :=
    localId_mk (UInt64.le_trans hlast hstretch.ends.last_le)
  have hlocate : t.locate ⟨id⟩ = some l := by
    refine locate_congr h fun k hk => ?_
    rw [hid]
    exact hstretch.same_side hfirst hlast hk
  have howner := ownerAt_of_locate hlocate
  rwa [hid] at howner

/-- An answer is right for all chunks of its range, and for no wider one. -/
theorem locate_extent (creator : NodeId) (history : List Change) (chunk : ChunkId) (l : Locations)
    (hchunk : chunk.creator = creator) (h : (replay creator history).locate chunk = some l) :
    (l.first.bits ≤ chunk.bits ∧ chunk.bits ≤ l.last.bits) ∧
      (∀ other : ChunkId, l.first.bits ≤ other.bits → other.bits ≤ l.last.bits →
        other.creator = creator ∧ (replay creator history).locate other = some l) ∧
      (l.first.localId = 0 ∨ (Account.ofHistory creator history).Limits creator l.primary
        (l.first.localId - 1) l.first.localId) ∧
      (l.last.localId = maxLocalId ∨ (Account.ofHistory creator history).Limits creator l.primary
        (l.last.localId + 1) (l.last.localId + 1)) := by
  have hrecords := records_replay creator history
  have hcanonical := canonical_replay creator history
  obtain ⟨first, last, hstretch, hfirst, hlast⟩ :=
    exists_stretch_of_locate (fun _ _ => le_of_cut_replay) h
  obtain ⟨hbegins, hends⟩ := hstretch
  have hordered : first ≤ last := UInt64.le_trans hbegins.first_le hends.le_last
  have hfirstLe : first ≤ maxLocalId := UInt64.le_trans hordered hends.last_le
  rw [creator_replay] at hfirst hlast
  rw [hfirst, hlast, ChunkId.localId_make creator hfirstLe,
    ChunkId.localId_make creator hends.last_le]
  refine ⟨?contains, ?sound, ?first, ?last⟩
  case contains =>
    exact (ChunkId.between_make_iff hfirstLe hends.last_le).mpr
      ⟨hchunk, hbegins.first_le, hends.le_last⟩
  case sound =>
    intro other hle hle'
    obtain ⟨hcreator, hge, hle⟩ := (ChunkId.between_make_iff hfirstLe hends.last_le).mp ⟨hle, hle'⟩
    exact ⟨hcreator, locate_congr h fun k hk => Stretch.same_side ⟨hbegins, hends⟩ hge hle hk⟩
  case first =>
    refine (Classical.em (first = 0)).imp_right fun hzero => ?_
    have hpos : 0 < first := UInt64.lt_of_le_of_ne UInt64.zero_le (Ne.symm hzero)
    have hlimits := hrecords.limits hcanonical (hbegins.sharp.resolve_left hzero) hfirstLe
      (Stretch.toNat_pred hpos)
    rw [creator_replay] at hlimits
    exact hlimits.1 (ownerAt_of_mem_stretch h ⟨hbegins, hends⟩ (UInt64.le_refl _) hordered)
  case last =>
    refine (Classical.em (last = maxLocalId)).imp_right fun hmax => ?_
    have hcut := hends.sharp.resolve_left hmax
    have hsucc := toNat_succ_of_lt (UInt64.lt_of_le_of_ne hends.last_le hmax)
    have hlimits := hrecords.limits hcanonical hcut (le_of_cut_replay hcut) hsucc.symm
    rw [creator_replay] at hlimits
    exact hlimits.2 (ownerAt_of_mem_stretch h ⟨hbegins, hends⟩ hordered (UInt64.le_refl _))

/-- Of a creator's objects, those from 100 on are backed up apart, and 10 to 20 went elsewhere. The
answer for 50 holds from 21 to 99: it is limited by an owner below and by a backup range above. -/
theorem locate_extent_migrated :
    let history : List Change := [.initRange ⟨0⟩ ⟨[⟨300⟩]⟩, .initRange ⟨100⟩ ⟨[⟨400⟩]⟩,
      .migrateRange ⟨10⟩ ⟨20⟩ ⟨300⟩]
    let answer : Locations := ⟨⟨150⟩, ⟨[⟨300⟩]⟩, .make ⟨150⟩ 21, .make ⟨150⟩ 99⟩
    (ChunkId.make ⟨150⟩ 50).creator = ⟨150⟩ ∧
      (replay ⟨150⟩ history).locate (.make ⟨150⟩ 50) = some answer ∧
      (replay ⟨150⟩ history).locate (.make ⟨150⟩ 99) = some answer ∧
      (Account.ofHistory ⟨150⟩ history).Limits ⟨150⟩ ⟨150⟩ 20 21 ∧
      (Account.ofHistory ⟨150⟩ history).Limits ⟨150⟩ ⟨150⟩ 100 100 := by
  intro history answer
  have hcreator : (ChunkId.make ⟨150⟩ 50).creator = ⟨150⟩ := by decide
  have hlocate : (replay ⟨150⟩ history).locate (.make ⟨150⟩ 50) = some answer := by decide
  obtain ⟨-, hsound, hfirst, hlast⟩ := locate_extent ⟨150⟩ history _ answer hcreator hlocate
  have hlow : answer.first.localId = 21 ∧ answer.first.localId - 1 = 20 := by decide
  have hhigh : answer.last.localId = 99 ∧ answer.last.localId + 1 = 100 := by decide
  rw [hlow.2, hlow.1] at hfirst
  rw [hhigh.2, hhigh.1] at hlast
  exact ⟨hcreator, hlocate, (hsound (.make ⟨150⟩ 99) (by decide) (by decide)).2,
    hfirst.resolve_left (by decide), hlast.resolve_left (by decide)⟩

end LookupTree

end ChunkDirectory
