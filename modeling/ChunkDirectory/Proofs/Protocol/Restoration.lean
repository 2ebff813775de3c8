import ChunkDirectory.Proofs.Concurrency.Quiet
import ChunkDirectory.Proofs.Overlay.Complete
import ChunkDirectory.Proofs.Overlay.Idle
import ChunkDirectory.Proofs.Ring.Loss

/-!
# Copies made anew

When a superpeer fails, another one may send what it holds on some arc to the first superpeer in a
list (`Overlay.Spread`). What a superpeer that handles the failure sends is always something it is a
holder of, and it sends all that it is the one to pass on (`Overlay.Restored`). Nobody's view of the
ring is changed by it.
-/

namespace ChunkDirectory

open Protocol

namespace Node

variable {n m : Node} {slot : Slot}

/-- A superpeer that stores what another one holds on an arc. -/
theorem read_store_copyOf (hn : n.isSuperpeer = true) (hm : m.isSuperpeer = true) (hkeyed : m.Keyed)
    (arc : Arc) :
    (n.store (m.copyOf arc).1 (m.copyOf arc).2).read slot =
      (if arc.contains slot.position = true then m.read slot else none).or (n.read slot) := by
  obtain ⟨d, hd⟩ := exists_directory hn
  obtain ⟨other, hother⟩ := exists_directory hm
  rw [store, read, directory?_mapDirectory, hd, Option.map_some, Option.bind_some,
    read_of_directory? hd, read_of_directory? hother]
  simp only [copyOf, hother, Option.getD_some]
  exact Directory.read_takeOver (hkeyed other hother) arc.contains slot

/-- If there is nothing to copy, there is nothing on the arc. -/
theorem read_of_copyOf_empty (hm : m.isSuperpeer = true) (hkeyed : m.Keyed) {arc : Arc}
    (hempty : m.copyOf arc = ([], [])) (hslot : arc.contains slot.position = true) :
    m.read slot = none := by
  obtain ⟨other, hother⟩ := exists_directory hm
  have hstore := Directory.read_takeOver (hkeyed other hother) arc.contains slot (d := .empty)
  simp only [copyOf, hother, Option.getD_some, Prod.mk.injEq] at hempty
  rw [hempty.1, hempty.2, if_pos hslot, Directory.read_empty, Option.or_none] at hstore
  rw [read_of_directory? hother, ← hstore]
  exact Directory.read_empty slot

end Node

namespace Overlay

variable {ρ : Type} {o o₁ o₂ : Overlay ρ} {s : NodeSet} {arc : Arc} {slot : Slot}
  {id x y failed start last : NodeId} {n m : Node}

/-- All nodes keep trees under their creators. -/
def Keyed (o : Overlay ρ) : Prop := ∀ x m, o.node? x = some m → m.Keyed

theorem Keyed.put (h : o.Keyed) (hdirect : o.Direct) (hn : o.node? x = some n) (hm : m.Keyed) :
    (o.put x m).Keyed :=
  hdirect.forall_put hn h hm

theorem Keyed.change {condition : Condition} {add remove : List NodeId} (h : o.Keyed) :
    (o.change condition add remove).Keyed := h

/-- Mutations keep all trees under their creators. -/
theorem Keyed.mutateAt {m : Mutation} (h : o.Keyed) (hsettled : o.Settled s) :
    (o.mutateAt m x).Keyed := by
  cases hn : o.node? x with
  | none =>
    rw [Overlay.mutateAt, hn]
    exact h
  | some n =>
    rw [mutateAt_of_node? hn]
    exact h.put hsettled.direct hn ((n.evolves_mutate m).keyed (h x n hn))

theorem Keyed.mutateEach {m : Mutation} {ids : List NodeId} (h : o.Keyed) (hsettled : o.Settled s) :
    (o.mutateEach m ids).Keyed := by
  induction ids generalizing o with
  | nil => exact h
  | cons x rest ih => exact ih (h.mutateAt hsettled) hsettled.mutateAt

theorem keyed_complete {configs : List Config} : (complete s configs : Overlay ρ).Keyed := by
  intro x k hk d hd creator tree htree
  obtain ⟨c, rfl, rfl⟩ := complete_of_node? hk
  have hempty : d = .empty := by
    unfold Node.directory? Node.complete at hd
    by_cases hc : c.nodeId ∈ s
    · simpa [hc] using hd.symm
    · simp [hc] at hd
  subst hempty
  cases htree

/-- Another superpeer is running. -/
def Other (o : Overlay ρ) (x y : NodeId) : Prop :=
  y ≠ x ∧ ∃ m, o.node? y = some m ∧ m.isSuperpeer = true

theorem read_put_self (h : o.node? x = some n) : (o.put x m).read x slot = m.read slot :=
  read_of_node? (node?_put_self h)

theorem Direct.read_put_of_ne (h : o.Direct) (hne : y ≠ x) :
    (o.put x m).read y slot = o.read y slot := by
  rw [read, read, h.node?_put_of_ne hne]

/-- Nothing is stored anew when a node is given a state that stores the same. -/
theorem Direct.read_put (h : o.Direct) (hn : o.node? x = some n)
    (hsame : m.directory? = n.directory?) (y : NodeId) (slot : Slot) :
    (o.put x m).read y slot = o.read y slot := by
  by_cases heq : y = x
  · subst heq
    rw [read_put_self hn, read_of_node? hn, Node.read, Node.read, hsame]
  · exact h.read_put_of_ne heq

/-! ## One transfer -/

/-- What `x` holds on an arc was stored by the heir, if there is one. -/
structure Spread (arc : Arc) (x : NodeId) (heir : Option NodeId) (o o₁ : Overlay ρ) : Prop where
  alike : Alike Node.outlook o o₁
  keyed : o₁.Keyed
  taken : ∀ y, heir = some y → ∀ slot, o₁.read y slot =
    (if arc.contains slot.position = true then o.read x slot else none).or (o.read y slot)
  others : ∀ z, heir ≠ some z → ∀ slot, o₁.read z slot = o.read z slot

theorem Spread.nobody (h : o.Direct) (hkeyed : o.Keyed) : Spread arc x none o o :=
  ⟨.rfl h, hkeyed, nofun, fun _ _ _ => rfl⟩

/-- Nothing need be sent where there is nothing. -/
theorem Spread.of_empty {heir : Option NodeId} (h : o.Direct) (hkeyed : o.Keyed)
    (hempty : ∀ slot, arc.contains slot.position = true → o.read x slot = none) :
    Spread arc x heir o o := by
  refine ⟨.rfl h, hkeyed, fun y _ slot => ?_, fun _ _ _ => rfl⟩
  split
  case isTrue hslot => rw [hempty slot hslot, Option.none_or]
  case isFalse => rw [Option.none_or]

theorem leads_store {sender : NodeId} {trees : List LookupTree}
    {mappings : List (ApplicationId × ChunkId)} (hm : o.node? y = some m) :
    Leads o y (handleMessage sender (.sendBackups trees mappings)) .ack
      (o.put y (m.store trees mappings)) :=
  Leads.node_bind hm (Leads.modify_bind hm (Leads.pure (node?_put_self hm)))

/-- Copies go to the first of the targets if that is another running superpeer. -/
theorem leads_sendToFirst (arc : Arc) (h : o.Direct) (hkeyed : o.Keyed) (hn : o.node? x = some n)
    (hrole : n.isSuperpeer = true) {targets : List NodeId} (htargets : ∀ y ∈ targets, o.Other x y) :
    ∃ o₁, Leads o x (sendToFirst (.sendBackups (n.copyOf arc).1 (n.copyOf arc).2) targets) () o₁ ∧
      Spread arc x targets.head? o o₁ := by
  cases targets with
  | nil => exact ⟨o, Leads.pure hn, .nobody h hkeyed⟩
  | cons y rest =>
    obtain ⟨hne, m, hm, hsuper⟩ := htargets y List.mem_cons_self
    let m' := m.store (n.copyOf arc).1 (n.copyOf arc).2
    have hme : m'.me = m.me := congrArg Ring.me (Node.ring_mapDirectory _)
    have houtlook : m'.outlook = m.outlook := by
      simp only [m', Node.store, Node.outlook, Node.config_mapDirectory, Node.ring_mapDirectory,
        Node.isSuperpeer_mapDirectory]
    have hn₁ : (o.put y m').node? x = some n := (h.node?_put_of_ne hne.symm).trans hn
    refine ⟨o.put y m', ?_, .put h hm hme houtlook, ?_, ?_, ?_⟩
    · exact (h.leads_send hn (leads_store hm) hn₁).bind (Leads.pure hn₁)
    · exact hkeyed.put h hm ((hkeyed y m hm).store _ _)
    · intro z hz slot
      cases hz
      rw [read_put_self hm, read_of_node? hn, read_of_node? hm]
      exact Node.read_store_copyOf hsuper hrole (hkeyed x n hn) arc
    · intro z hz slot
      exact h.read_put_of_ne fun heq => hz (congrArg some heq.symm)

/-! ## All that is made anew -/

/-- What `x` holds was stored by others, by those at least for which `passes` says so. -/
structure Restored (s : NodeSet) (x : NodeId) (passes : NodeId → NodeId → Prop)
    (o o₁ : Overlay ρ) : Prop where
  alike : Alike Node.outlook o o₁
  keyed : o₁.Keyed
  self : ∀ slot, o₁.read x slot = o.read x slot
  /-- Only a holder passes on what it holds. -/
  reads : ∀ y slot, o₁.read y slot = o.read y slot ∨
    x ∈ s.holders slot.position ∧ o₁.read y slot = (o.read x slot).or (o.read y slot)
  passed : ∀ y slot, passes slot.position y → o₁.read y slot = (o.read x slot).or (o.read y slot)

theorem Spread.restored {heir : Option NodeId} (h : Spread arc x heir o o₁) (hne : heir ≠ some x)
    (hholder : heir ≠ none → ∀ slot : Slot, arc.contains slot.position = true →
      x ∈ s.holders slot.position) :
    Restored s x (fun id y => heir = some y ∧ arc.contains id = true) o o₁ := by
  refine ⟨h.alike, h.keyed, h.others x hne, fun y slot => ?_, fun y slot hpasses => ?_⟩
  · by_cases hy : heir = some y
    · rw [h.taken y hy]
      split
      case isTrue hslot =>
        exact .inr ⟨hholder (by rw [hy]; exact Option.some_ne_none y) slot hslot, rfl⟩
      case isFalse => exact .inl (Option.none_or)
    · exact .inl (h.others y hy slot)
  · rw [h.taken y hpasses.1, if_pos hpasses.2]

namespace Restored

variable {passes passes' : NodeId → NodeId → Prop}

theorem mono (h : Restored s x passes o o₁) (hpasses : ∀ id y, passes' id y → passes id y) :
    Restored s x passes' o o₁ :=
  ⟨h.alike, h.keyed, h.self, h.reads, fun y slot hy => h.passed y slot (hpasses _ y hy)⟩

theorem nobody (h : o.Direct) (hkeyed : o.Keyed) : Restored s x (fun _ _ => False) o o :=
  ⟨.rfl h, hkeyed, fun _ => rfl, fun _ _ => .inl rfl, fun _ _ hpasses => hpasses.elim⟩

theorem trans (h : Restored s x passes o o₁) (h₁ : Restored s x passes' o₁ o₂) :
    Restored s x (fun id y => passes id y ∨ passes' id y) o o₂ := by
  -- To store the same content twice is to store it once.
  have htwice (y : NodeId) (slot : Slot) :
      (o₁.read x slot).or (o₁.read y slot) = (o.read x slot).or (o.read y slot) := by
    rw [h.self]
    rcases h.reads y slot with hsame | ⟨-, hstored⟩
    · rw [hsame]
    · rw [hstored, ← Option.or_assoc, Option.or_self]
  refine ⟨h.alike.trans h₁.alike, h₁.keyed, fun slot => (h₁.self slot).trans (h.self slot),
    fun y slot => ?_, fun y slot hpasses => ?_⟩
  · rcases h₁.reads y slot with hsame | ⟨hholder, hstored⟩
    · rw [hsame]
      exact h.reads y slot
    · exact .inr ⟨hholder, hstored.trans (htwice y slot)⟩
  · rcases hpasses with hfirst | hsecond
    · rcases h₁.reads y slot with hsame | ⟨-, hstored⟩
      · exact hsame.trans (h.passed y slot hfirst)
      · exact hstored.trans (htwice y slot)
    · exact (h₁.passed y slot hsecond).trans (htwice y slot)

end Restored

/-! ## The two reasons to send copies -/

section

variable (h : o.Direct) (hkeyed : o.Keyed) (hn : o.node? x = some n) (hrole : n.isSuperpeer = true)

include h hkeyed hn hrole

theorem leads_spreadDataOf (start : NodeId) {failed : NodeId} {targets : List NodeId}
    (heq : (n.ring.successorsAfter n.me).filter (· ≠ failed) = targets)
    (htargets : ∀ y ∈ targets, o.Other x y) :
    ∃ o₁, Leads o x (spreadDataOf failed start) () o₁ ∧
      Spread ⟨start, failed, .upperClosed⟩ x targets.head? o o₁ := by
  obtain ⟨o₁, hsend, hspread⟩ :=
    leads_sendToFirst ⟨start, failed, .upperClosed⟩ h hkeyed hn hrole htargets
  have hreduce {o' : Overlay ρ}
      (hrest : Leads o x (if !n.isSuperpeer ||
          ((n.copyOf ⟨start, failed, .upperClosed⟩).1.isEmpty &&
            (n.copyOf ⟨start, failed, .upperClosed⟩).2.isEmpty) then pure ()
        else sendToFirst (.sendBackups (n.copyOf ⟨start, failed, .upperClosed⟩).1
          (n.copyOf ⟨start, failed, .upperClosed⟩).2)
          ((n.ring.successorsAfter n.me).filter (· ≠ failed))) () o') :
      Leads o x (spreadDataOf failed start) () o' := Leads.node_bind hn hrest
  by_cases hempty : n.copyOf ⟨start, failed, .upperClosed⟩ = ([], [])
  · refine ⟨o, hreduce ?_, .of_empty h hkeyed fun slot hslot => ?_⟩
    · rw [hempty, if_pos (by simp)]
      exact Leads.pure hn
    · rw [read_of_node? hn]
      exact Node.read_of_copyOf_empty hrole (hkeyed x n hn) hempty hslot
  · refine ⟨o₁, hreduce ?_, hspread⟩
    rw [if_neg, heq]
    · exact hsend
    · intro hnothing
      simp only [hrole, Bool.not_true, Bool.false_or, Bool.and_eq_true, List.isEmpty_iff]
        at hnothing
      exact hempty (Prod.ext hnothing.1 hnothing.2)

theorem leads_spreadOwnBackups {failed last start : NodeId} {targets : List NodeId}
    (harea : n.primaryArea = some (.window start n.me))
    (heq : ((n.ring.successorsAfter last).filter fun y => y ≠ failed && y ≠ last) = targets)
    (htargets : ∀ y ∈ targets, o.Other x y) :
    ∃ o₁, Leads o x (spreadOwnBackups failed last) () o₁ ∧
      Spread ⟨start, n.me, .upperClosed⟩ x targets.head? o o₁ := by
  obtain ⟨o₁, hsend, hspread⟩ :=
    leads_sendToFirst ⟨start, n.me, .upperClosed⟩ h hkeyed hn hrole htargets
  refine ⟨o₁, Leads.node_bind hn ?_, hspread⟩
  rw [harea]
  subst heq
  exact hsend

end

section

variable (h : o.Direct) (hn : o.node? x = some n) (hexact : n.ring.Exact s)
  (hothers : ∀ y ∈ s, y ≠ failed → y ≠ x → o.Other x y)

include h hn hexact hothers

/-- All targets of copies are running. -/
theorem other_of_mem_superpeers (hy : y ∈ n.ring.superpeers) (hyfailed : y ≠ failed) :
    o.Other x y := by
  rw [hexact.superpeers, NodeSet.mem_erase] at hy
  exact hothers y hy.1 hyfailed fun heq => hy.2 (heq.trans (h.me hn).symm)

variable (hkeyed : o.Keyed) (hrole : n.isSuperpeer = true) (hme : x ∈ s) (hfailed : failed ∈ s)

include hkeyed hrole hme hfailed

/-- If the failed superpeer's range is the first that this one keeps, it goes one place further. -/
theorem restored_data {front : List NodeId} {next b c : NodeId}
    (hround : (s.erase n.ring.me).roundFrom n.ring.me = front ++ [start, next, b, c]) :
    ∃ o₁, Leads o x (if n.ring.responsible (start.forward 1) = some failed then
        spreadDataOf failed start else pure ()) () o₁ ∧
      Restored s x (fun id y => ∃ b c rest, s.roundFrom id = failed :: b :: c :: x :: y :: rest)
        o o₁ := by
  have hnme : n.ring.me = x := h.me hn
  have hpasses : ∀ {id y : NodeId} {b' c' : NodeId} {rest : List NodeId},
      s.roundFrom id = failed :: b' :: c' :: x :: y :: rest →
      front ++ [start] = y :: rest ∧ next = failed := by
    intro id y b' c' rest hid
    have hself := NodeSet.round_of_dataOf hid
    rw [← hnme, hround, List.append_cons] at hself
    obtain ⟨hfront, htail⟩ := List.append_inj' hself rfl
    exact ⟨hfront, (List.cons.inj htail).1⟩
  rw [hexact.responsible_start hround]
  by_cases heq : next = failed
  · subst heq
    have htargets : ∀ y ∈ (n.ring.successorsAfter n.me).filter (· ≠ next), o.Other x y := by
      intro y hy
      obtain ⟨hy, hynext⟩ := List.mem_filter.mp hy
      exact other_of_mem_superpeers h hn hexact hothers
        (Ring.mem_successorsAfter.mp hy).1 (of_decide_eq_true hynext)
    obtain ⟨o₁, hleads, hspread⟩ :=
      leads_spreadDataOf h hkeyed hn hrole start rfl htargets
    have hhead := hexact.head?_targets hround
    have hbefore := NodeSet.before_next (hnme.symm ▸ hme) hround
    have harc (id : NodeId) :
        Arc.contains ⟨start, next, .upperClosed⟩ id = true ↔ s.Owns id next := by
      rw [Arc.mem_upperClosed_iff hbefore.2.1, NodeSet.owns_iff_of_before hfailed hbefore]
    refine ⟨o₁, by rw [if_pos rfl]; exact hleads, (hspread.restored ?_ ?_).mono ?_⟩
    · intro hx
      exact (htargets x (List.mem_of_mem_head? hx)).1 rfl
    · intro _ slot hslot
      have hholder := NodeSet.mem_holders_of_owns (hnme.symm ▸ hme) hround ((harc _).mp hslot)
      rw [hnme] at hholder
      exact hholder
    · rintro id y ⟨b', c', rest, hid⟩
      refine ⟨?_, (harc id).mpr (NodeSet.owns_of_roundFrom hid)⟩
      rw [show n.me = n.ring.me from rfl, hhead, (hpasses hid).1, List.head?_cons]
  · refine ⟨o, ?_, (Restored.nobody h hkeyed).mono ?_⟩
    · rw [if_neg fun hsome => heq (Option.some.inj hsome)]
      exact Leads.pure hn
    · rintro id y ⟨b', c', rest, hid⟩
      exact heq (hpasses hid).2

/-- If the failed superpeer kept copies of this one's range, the next in line gets them. -/
theorem restored_own (hne : failed ≠ x) {b c d y : NodeId} {rest : List NodeId}
    (hround : (s.erase n.ring.me).roundFrom n.ring.me = b :: c :: d :: y :: rest) :
    ∃ o₁, Leads o x (if Arc.contains ⟨b, d, .closed⟩ failed then
        spreadOwnBackups failed d else pure ()) () o₁ ∧
      Restored s x (fun id y => ∃ b c d rest, s.roundFrom id = x :: b :: c :: d :: y :: rest ∧
        failed ∈ [b, c, d]) o o₁ := by
  have hnme : n.ring.me = x := h.me hn
  have hmember : n.ring.me ∈ s := hnme.symm ▸ hme
  have hpasses : ∀ {id z : NodeId} {b' c' d' : NodeId} {rest' : List NodeId},
      s.roundFrom id = x :: b' :: c' :: d' :: z :: rest' →
      b = b' ∧ c = c' ∧ d = d' ∧ y = z := by
    intro id z b' c' d' rest' hid
    have hself := NodeSet.round_of_own hid
    rw [← hnme, hround] at hself
    simp only [List.cons.injEq] at hself
    exact ⟨hself.1, hself.2.1, hself.2.2.1, hself.2.2.2.1⟩
  by_cases hclosed : Arc.contains ⟨b, d, .closed⟩ failed = true
  · obtain ⟨p, -, hp, hbefore, -, -⟩ := hexact.exists_neighbours hfailed (hnme.symm ▸ hne)
    have harea : n.primaryArea = some (.window p n.me) := by
      rw [Node.primaryArea, if_pos hrole, hp]
    have htargets : ∀ y ∈ (n.ring.successorsAfter d).filter fun y => y ≠ failed && y ≠ d,
        o.Other x y := by
      intro y hy
      obtain ⟨hy, hyfailed⟩ := List.mem_filter.mp hy
      rw [Bool.and_eq_true] at hyfailed
      exact other_of_mem_superpeers h hn hexact hothers (Ring.mem_successorsAfter.mp hy).1
        (of_decide_eq_true hyfailed.1)
    obtain ⟨o₁, hleads, hspread⟩ :=
      leads_spreadOwnBackups h hkeyed hn hrole harea rfl htargets
    have harc (id : NodeId) :
        Arc.contains ⟨p, n.me, .upperClosed⟩ id = true ↔ s.Owns id n.ring.me := by
      rw [NodeSet.owns_iff_of_before hmember hbefore]
      exact Arc.mem_upperClosed_iff hbefore.2.1
    refine ⟨o₁, by rw [if_pos hclosed]; exact hleads, (hspread.restored ?_ ?_).mono ?_⟩
    · intro hx
      exact (htargets x (List.mem_of_mem_head? hx)).1 rfl
    · intro _ slot hslot
      rw [← hexact.holders ((harc _).mp hslot), ← hnme]
      exact List.mem_cons_self
    · rintro id z ⟨b', c', d', rest', hid, hmem⟩
      obtain ⟨rfl, rfl, rfl, rfl⟩ := hpasses hid
      have hown := NodeSet.owns_of_roundFrom hid
      exact ⟨hexact.head?_next hround hmem, (harc id).mpr (hnme.symm ▸ hown)⟩
  · refine ⟨o, ?_, (Restored.nobody h hkeyed).mono ?_⟩
    · rw [if_neg hclosed]
      exact Leads.pure hn
    · rintro id z ⟨b', c', d', rest', hid, hmem⟩
      obtain ⟨rfl, rfl, rfl, rfl⟩ := hpasses hid
      exact hclosed (NodeSet.mem_closed hround hmem)

/-- A superpeer makes the copies anew that it is the one to pass on. -/
theorem leads_restoreCopies (hne : failed ≠ x) :
    ∃ o₁, Leads o x (restoreCopies failed) () o₁ ∧
      Restored s x (fun id y => s.Passes failed id x y) o o₁ := by
  have hnme : n.ring.me = x := h.me hn
  by_cases hsize : replicas < n.ring.superpeers.size
  · obtain ⟨front, start, next, b', c', hwindow⟩ := hexact.exists_window hsize
    have hlength := hexact.size_superpeers
    match hround : (s.erase n.ring.me).roundFrom n.ring.me, hlength with
    | b :: c :: d :: y :: rest, hlength =>
      obtain ⟨o₁, hdata, hrestored⟩ := restored_data h hn hexact hothers hkeyed hrole hme hfailed
        hwindow
      obtain ⟨n₁, hn₁, hview⟩ := hrestored.alike.exists_node? hn
      have hring : n₁.ring = n.ring := congrArg (·.2.1) hview
      have hothers₁ : ∀ z ∈ s, z ≠ failed → z ≠ x → o₁.Other x z := by
        intro z hz hzfailed hzx
        obtain ⟨-, m, hm, hsuper⟩ := hothers z hz hzfailed hzx
        obtain ⟨m₁, hm₁, hmview⟩ := hrestored.alike.exists_node? hm
        exact ⟨hzx, m₁, hm₁, (congrArg (·.2.2) hmview).trans hsuper⟩
      obtain ⟨o₂, hown, hrestored₁⟩ := restored_own hrestored.alike.direct hn₁ (hring ▸ hexact)
        hothers₁ hrestored.keyed ((congrArg (·.2.2) hview).trans hrole) hme hfailed hne
        (by rw [hring]; exact hround)
      refine ⟨o₂, ?_, (hrestored.trans hrestored₁).mono ?_⟩
      · refine Leads.node_bind hn ?_
        rw [if_pos hsize]
        simp only [Node.me, hexact.area_eq hwindow, hexact.backups_eq hround]
        split
        case isTrue hfirst =>
          rw [if_pos hfirst] at hdata
          exact hdata.bind hown
        case isFalse hfirst =>
          rw [if_neg hfirst] at hdata
          have hboth : Leads o x (pure () >>= fun _ =>
              if Arc.contains ⟨b, d, .closed⟩ failed then spreadOwnBackups failed d
              else pure ()) () o₂ := hdata.bind hown
          exact hboth
      · rintro id z (hid | ⟨hid, hmem⟩)
        · exact .inl ⟨_, _, _, hid⟩
        · exact .inr ⟨_, _, _, _, hid, hmem⟩
    | [], hlength | [_], hlength | [_, _], hlength | [_, _, _], hlength =>
      rw [hlength] at hsize
      simp [replicas] at hsize
  · refine ⟨o, Leads.node_bind hn ?_, (Restored.nobody h hkeyed).mono ?_⟩
    · rw [if_neg hsize]
      exact Leads.pure hn
    · intro id z hpasses
      refine hsize ?_
      rw [hexact.size_superpeers, hnme]
      cases hpasses with
      | dataOf hid =>
        rw [NodeSet.round_of_dataOf hid]
        simp [replicas]
      | own hid _ =>
        rw [NodeSet.round_of_own hid]
        simp [replicas]

end

end Overlay

end ChunkDirectory
