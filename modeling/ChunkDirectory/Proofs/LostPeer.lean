import ChunkDirectory.Proofs.Directory.Purge
import ChunkDirectory.Proofs.Overlay.Complete
import ChunkDirectory.Proofs.Overlay.Partition
import ChunkDirectory.Proofs.Protocol.Undisturbed
import ChunkDirectory.Proofs.Ring.Loss

/-!
# A peer is lost

A superpeer handles the failure of a peer that held data and does not answer. It strikes the peer
from all backups, has every superpeer that is reached do the same, and then has each range of the
peer rebuilt by the first of the peers with copies that is reached. Which nodes are reached is
arbitrary, and nothing else is assumed of the overlay or of what its nodes know and store.

The ranges are those that the superpeer had when the peer was struck. Asking for them changes no
node, so that each of them is asked for as if it were the only one (`does_startRecovery`). What
happens then is one list of events (`peerLostEvents`), and who is asked, and takes a range, is read
off it (`RangesAsked`).
-/

namespace ChunkDirectory

open Protocol

namespace Node

theorem core_enqueueAll (l : List NodeId) (n : Node) : (l.foldl enqueue n).core = n.core := by
  induction l generalizing n with
  | nil => rfl
  | cons x rest ih => exact (ih (n.enqueue x)).trans (n.core_enqueue x)

theorem mem_failures_enqueueAll {x : NodeId} {l : List NodeId} {n : Node} :
    x ∈ (l.foldl enqueue n).failures ↔ x ∈ n.failures ∨ x ∈ l := by
  induction l generalizing n with
  | nil => simp
  | cons y rest ih => rw [List.foldl_cons, ih, mem_failures_enqueue, List.mem_cons, or_assoc]

end Node

/-- A request to rebuild a range of a failed peer. -/
structure Attempt where
  backup : NodeId
  failed : NodeId
  start : RangeStart
  /-- Whether the backup is reached. -/
  taken : Bool
deriving DecidableEq

namespace Event

variable {ρ : Type}

/-- A request to rebuild a range is sent. -/
def attempt? : Event ρ → Option Attempt
  | .sent _ b (.startRecovery failed start) outcome => some ⟨b, failed, start, outcome.isOk⟩
  | _ => none

/-- A range begins to be rebuilt. -/
def begun? : Event ρ → Option Attempt
  | .recovered b failed start _ => some ⟨b, failed, start, true⟩
  | _ => none

end Event

namespace Overlay

variable {ρ : Type} {o o₁ : Overlay ρ} {id failed : NodeId} {n m : Node} {start : RangeStart}

/-! ## What is asked of the peers with copies -/

/-- What happens when the peers with copies of a range are asked to rebuild it. -/
def recoveryEvents (o : Overlay ρ) (id failed : NodeId) (start : RangeStart) :
    List NodeId → List (Event ρ)
  | [] => []
  | b :: rest =>
    if o.reaches b then
      [.sent id b (.startRecovery failed start) (.ok ()),
        .recovered b failed start (!o.holds .recoveryFails b)]
    else
      .sent id b (.startRecovery failed start) (.error (.unreachable b .refused)) ::
        recoveryEvents o id failed start rest

/-- Who is asked to rebuild a range: those that are not reached, up to the first one that is. -/
def attempts (o : Overlay ρ) (failed : NodeId) (start : RangeStart) (backups : List NodeId) :
    List Attempt :=
  ((backups.takeWhile fun b => !o.reaches b).map fun b => ⟨b, failed, start, false⟩) ++
    ((backups.find? o.reaches).map fun b => ⟨b, failed, start, true⟩).toList

theorem attempts_cons_of_reaches {b : NodeId} (h : o.reaches b = true) (rest : List NodeId) :
    o.attempts failed start (b :: rest) = [⟨b, failed, start, true⟩] := by
  simp [attempts, h]

theorem attempts_cons_of_lost {b : NodeId} (h : o.reaches b = false) (rest : List NodeId) :
    o.attempts failed start (b :: rest) =
      ⟨b, failed, start, false⟩ :: o.attempts failed start rest := by
  simp [attempts, h]

/-- Only the backups are asked, and for this range. -/
theorem of_mem_attempts {backups : List NodeId} {a : Attempt}
    (h : a ∈ o.attempts failed start backups) :
    a.backup ∈ backups ∧ a.failed = failed ∧ a.start = start := by
  rcases List.mem_append.mp h with h | h
  · obtain ⟨b, hb, rfl⟩ := List.mem_map.mp h
    exact ⟨(List.takeWhile_sublist _).subset hb, rfl, rfl⟩
  · obtain ⟨b, hb, rfl⟩ := Option.map_eq_some_iff.mp (Option.mem_toList.mp h)
    exact ⟨List.mem_of_find?_eq_some hb, rfl, rfl⟩

/-- Exactly one takes a range if any is reached, and none otherwise. -/
theorem countP_attempts (o : Overlay ρ) (failed : NodeId) (start : RangeStart)
    (backups : List NodeId) :
    (o.attempts failed start backups).countP (·.taken) = (backups.any o.reaches).toNat := by
  induction backups with
  | nil => rfl
  | cons b rest ih =>
    cases hreach : o.reaches b with
    | true => rw [attempts_cons_of_reaches hreach, List.any_cons, hreach]; rfl
    | false =>
      rw [attempts_cons_of_lost hreach, List.any_cons, hreach, Bool.false_or, ← ih]
      exact List.countP_cons_of_neg Bool.false_ne_true

theorem attempt?_recoveryEvents (o : Overlay ρ) (id failed : NodeId) (start : RangeStart)
    (backups : List NodeId) :
    (o.recoveryEvents id failed start backups).filterMap Event.attempt? =
      o.attempts failed start backups := by
  induction backups with
  | nil => rfl
  | cons b rest ih =>
    cases hreach : o.reaches b with
    | true => rw [attempts_cons_of_reaches hreach, recoveryEvents, if_pos hreach]; rfl
    | false =>
      rw [attempts_cons_of_lost hreach, recoveryEvents, if_neg (by rw [hreach]; simp), ← ih]
      rfl

/-- Whoever takes a range begins to rebuild it, and nobody else does. -/
theorem begun?_recoveryEvents (o : Overlay ρ) (id failed : NodeId) (start : RangeStart)
    (backups : List NodeId) :
    (o.recoveryEvents id failed start backups).filterMap Event.begun? =
      (o.attempts failed start backups).filter (·.taken) := by
  induction backups with
  | nil => rfl
  | cons b rest ih =>
    cases hreach : o.reaches b with
    | true => rw [attempts_cons_of_reaches hreach, recoveryEvents, if_pos hreach]; rfl
    | false =>
      rw [attempts_cons_of_lost hreach, recoveryEvents, if_neg (by rw [hreach]; simp)]
      exact ih

/-- Nobody is asked for more than one range at a time, and nobody after the first that is reached. -/
theorem does_startRecovery (h : o.Plain) (hn : o.node? id = some n) (failed : NodeId)
    (start : RangeStart) (backups : List NodeId) :
    Does o id (startRecovery failed start backups) () o
      (o.recoveryEvents id failed start backups).reverse := by
  induction backups with
  | nil => exact Does.pure hn
  | cons b rest ih =>
    by_cases hreach : o.reaches b = true
    · obtain ⟨k, hk⟩ := exists_node?_of_reaches hreach
      have hrecover := does_recover hk failed start
      rw [h.me hk] at hrecover
      have hhandle : Does o b (handleMessage id (.startRecovery failed start)) .ack o
          [.recovered b failed start (!o.holds .recoveryFails b)] :=
        Does.node_bind hk (hrecover.bind_silent (Does.pure hk))
      have hsent := h.does_send hn hreach hhandle hn
      have hevents : (o.recoveryEvents id failed start (b :: rest)).reverse =
          [.recovered b failed start (!o.holds .recoveryFails b)] ++
            [.sent id b (.startRecovery failed start) (.ok ())] := by
        rw [recoveryEvents, if_pos hreach]
        rfl
      rw [hevents]
      exact hsent.bind_silent (Does.pure hn)
    · have hlost := Bool.eq_false_of_not_eq_true hreach
      have hsent := h.does_send_lost hn hlost (.startRecovery failed start)
      rw [recoveryEvents, if_neg hreach, List.reverse_cons]
      exact hsent.bind ih

theorem does_recoverRanges (h : o.Plain) (hn : o.node? id = some n) (failed : NodeId)
    (ranges : List BackupRange) :
    Does o id (recoverRanges failed ranges) () o
      (ranges.flatMap fun r => o.recoveryEvents id failed r.start r.backups.toList).reverse := by
  induction ranges with
  | nil => exact Does.pure hn
  | cons r rest ih =>
    rw [List.flatMap_cons, List.reverse_append]
    exact (does_startRecovery h hn failed r.start r.backups.toList).bind ih

/-- What is asked depends on who is reached only. -/
theorem SameFrame.recoveryEvents_eq (hframe : SameFrame o o₁) (h : o.Plain) (backups : List NodeId) :
    o₁.recoveryEvents id failed start backups = o.recoveryEvents id failed start backups := by
  induction backups with
  | nil => rfl
  | cons b rest ih =>
    rw [recoveryEvents, recoveryEvents, hframe.reaches_eq h, hframe.holds_eq, ih]

/-! ## What the superpeers are told -/

/-- What happens when superpeers are told of a failed peer. -/
def notices (o : Overlay ρ) (id failed : NodeId) (targets : List NodeId) : List (Event ρ) :=
  targets.map fun t => .sent id t (.notifyAboutFailedPeer failed)
    (if o.reaches t then .ok () else .error (.unreachable t .refused))

/-- One superpeer takes note if it is reached and is queued otherwise. The one that tells it has taken
note before, so that it is not changed when it tells itself. -/
theorem does_notify (h : o.Plain) (hn : o.node? id = some n) (hnoted : n.Noted failed)
    (t : NodeId) :
    ∃ o₁, SameFrame o o₁ ∧ o₁.node? id = some (if o.reaches t then n else n.enqueue t) ∧
      (∀ x ≠ id, o₁.node? x = if x = t ∧ o.reaches t = true then
        (o.node? x).map (·.noticeFailedPeer failed) else o.node? x) ∧
      ∀ {rest : List NodeId} {o₂ : Overlay ρ} {events : List (Event ρ)},
        Does o₁ id (notifyAll (.notifyAboutFailedPeer failed) rest) () o₂ events →
          Does o id (notifyAll (.notifyAboutFailedPeer failed) (t :: rest)) () o₂
            (events ++ o.notices id failed [t]) := by
  by_cases hreach : o.reaches t = true
  · obtain ⟨k, hk⟩ := exists_node?_of_reaches hreach
    have hme : (k.noticeFailedPeer failed).me = t := by rw [k.me_noticeFailedPeer, h.me hk]
    have hhandle : Does o t (handleMessage id (.notifyAboutFailedPeer failed)) .ack
        (o.put t (k.noticeFailedPeer failed)) [] :=
      Does.node_bind hk (Does.modify_bind hk (Does.pure (node?_put_self hk)))
    have hn₁ : (o.put t (k.noticeFailedPeer failed)).node? id = some n := by
      by_cases hid : id = t
      · subst hid
        rw [hk] at hn
        cases hn
        rw [node?_put_self hk, show n.noticeFailedPeer failed = n from hnoted]
      · rw [h.node?_put_of_ne hid, hn]
    refine ⟨_, .put h hme, by rw [if_pos hreach, hn₁], fun x _ => ?_, fun hrest => ?_⟩
    · by_cases hxt : x = t
      · subst hxt
        rw [if_pos ⟨rfl, hreach⟩, node?_put_self hk, hk, Option.map_some]
      · rw [if_neg fun hx => hxt hx.1, h.node?_put_of_ne hxt]
    · rw [notices, List.map_singleton, if_pos hreach]
      exact (h.does_send hn hreach hhandle hn₁).bind hrest
  · have hlost := Bool.eq_false_of_not_eq_true hreach
    have hme : (n.enqueue t).me = id := by rw [n.me_enqueue, h.me hn]
    refine ⟨o.put id (n.enqueue t), .put h hme, ?_, fun x hx => ?_, fun hrest => ?_⟩
    · rw [if_neg hreach, node?_put_self hn]
    · rw [if_neg fun hx => hreach hx.2, h.node?_put_of_ne hx]
    · rw [notices, List.map_singleton, if_neg hreach]
      exact (h.does_send_lost hn hlost _).bind (Does.modify_bind hn hrest)

/-- The superpeers that are reached take note, and the others are queued. -/
theorem does_notifyAll (h : o.Plain) (hn : o.node? id = some n) (hnoted : n.Noted failed)
    (targets : List NodeId) (hnodup : targets.Nodup) :
    ∃ o', Does o id (notifyAll (.notifyAboutFailedPeer failed) targets) () o'
        (o.notices id failed targets).reverse ∧
      SameFrame o o' ∧
      o'.node? id = some ((targets.filter fun t => !o.reaches t).foldl Node.enqueue n) ∧
      ∀ x ≠ id, o'.node? x = if x ∈ targets ∧ o.reaches x = true then
        (o.node? x).map (·.noticeFailedPeer failed) else o.node? x := by
  induction targets generalizing o n with
  | nil =>
    refine ⟨o, Does.pure hn, .refl h, hn, fun x _ => ?_⟩
    rw [if_neg fun hx => by cases hx.1]
  | cons t rest ih =>
    obtain ⟨ht, hnodup⟩ := List.nodup_cons.mp hnodup
    obtain ⟨o₁, hframe, hn₁, hothers₁, hdoes⟩ := does_notify h hn hnoted t
    have hnoted₁ : (if o.reaches t then n else n.enqueue t).Noted failed := by
      split
      · exact hnoted
      · exact hnoted.enqueue t
    obtain ⟨o₂, hrest, hframe₂, hself, hothers⟩ := ih hframe.plain hn₁ hnoted₁ hnodup
    have hreaches : o₁.reaches = o.reaches := funext (hframe.reaches_eq h)
    rw [notices, hreaches] at hrest
    rw [hreaches] at hself
    refine ⟨o₂, ?_, hframe.trans hframe₂, ?_, fun x hx => ?_⟩
    · rw [notices, List.map_cons, List.reverse_cons]
      exact hdoes hrest
    · rw [hself, List.filter_cons]
      cases o.reaches t <;> rfl
    · rw [hothers x hx, hothers₁ x hx, hreaches]
      by_cases hxt : x = t
      · subst hxt
        rw [if_neg fun hmem => ht hmem.1]
        simp only [List.mem_cons, true_or, true_and]
      · simp only [List.mem_cons, hxt, false_or, false_and, if_false]

/-! ## The whole of it -/

/-- A superpeer that has handled the failure of a peer. -/
def withoutPeer (o : Overlay ρ) (failed : NodeId) (n : Node) : Node :=
  ((n.ring.superpeers.toList.filter fun t => !o.reaches t).foldl Node.enqueue
    (n.noticeFailedPeer failed)).mapRing (·.removePeer failed)

theorem directory?_withoutPeer :
    (o.withoutPeer failed n).directory? = (n.noticeFailedPeer failed).directory? :=
  Node.directory?_congr (congrArg (·.2.2) (Node.core_enqueueAll _ _))

theorem ring_withoutPeer : (o.withoutPeer failed n).ring = n.ring.removePeer failed := by
  rw [← n.ring_noticeFailedPeer failed]
  exact congrArg (fun c => c.2.1.removePeer failed) (Node.core_enqueueAll _ _)

/-- The superpeers that are not reached are queued. -/
theorem mem_failures_withoutPeer {x : NodeId} : x ∈ (o.withoutPeer failed n).failures ↔
    x ∈ n.failures ∨ x ∈ n.ring.superpeers ∧ o.reaches x = false := by
  show x ∈ (List.foldl Node.enqueue _ _).failures ↔ _
  rw [Node.mem_failures_enqueueAll, n.failures_noticeFailedPeer, List.mem_filter,
    Bool.not_eq_true']
  rfl

/-- What happens when the failure of a peer is handled that holds data and does not answer. -/
def peerLostEvents (o : Overlay ρ) (id failed : NodeId) (n : Node) : List (Event ρ) :=
  [.askedAvailable id failed true,
    .sent id failed (.sendSuperpeers (n.ring.superpeers.insert id).toList)
      (.error (.unreachable failed .refused))] ++
  o.notices id failed n.ring.superpeers.toList ++
  ((n.rangesOf failed).flatMap fun r =>
    o.recoveryEvents id failed r.start (r.backups.erase failed).toList) ++
  [.reportedFailure id failed false]

theorem does_creatorAvailable (h : o.Plain) (hn : o.node? id = some n)
    (hrole : n.isSuperpeer = true) (hne : failed ≠ id) (hlisted : failed ∉ n.ring.superpeers)
    (hlost : o.reaches failed = false) :
    Does o id (creatorAvailable failed) false o
      [.sent id failed (.sendSuperpeers (n.ring.superpeers.insert id).toList)
        (.error (.unreachable failed .refused))] := by
  have hme := h.me hn
  have hcontains : ¬ n.ring.superpeers.contains failed = true :=
    fun hcontains => hlisted (of_decide_eq_true hcontains)
  refine Does.node_bind hn ?_
  rw [if_neg (by rwa [hme]), if_neg hcontains, if_pos hrole, hme]
  exact (h.does_send_lost hn hlost _).map hn

theorem does_peerFailed (h : o.Plain) (hn : o.node? id = some n) (hrole : n.isSuperpeer = true)
    (hne : failed ≠ id) (hlisted : failed ∉ n.ring.superpeers)
    (hdata : o.holds .holdsData failed = true) (hlost : o.reaches failed = false) :
    ∃ o', Does o id (peerFailed failed) () o' (o.peerLostEvents id failed n).reverse ∧
      o'.node? id = some (o.withoutPeer failed n) ∧
      ∀ x ≠ id, o'.node? x = if x ∈ n.ring.superpeers ∧ o.reaches x = true then
        (o.node? x).map (·.noticeFailedPeer failed) else o.node? x := by
  have hme := h.me hn
  let n₁ := n.noticeFailedPeer failed
  have hme₁ : n₁.me = id := by rw [n.me_noticeFailedPeer, hme]
  have hring₁ : n₁.ring = n.ring := n.ring_noticeFailedPeer failed
  let o₁ := o.put id n₁
  have hframe₁ : SameFrame o o₁ := .put h hme₁
  have hn₁ : o₁.node? id = some n₁ := node?_put_self hn
  have hreaches₁ : o₁.reaches = o.reaches := funext (hframe₁.reaches_eq h)
  obtain ⟨o₂, hnotify, hframe₂, hn₂, hothers⟩ := does_notifyAll hframe₁.plain hn₁
    (n.noted_noticeFailedPeer failed) n.ring.superpeers.toList n.ring.superpeers.toList_nodup
  have hframe := hframe₁.trans hframe₂
  rw [hreaches₁] at hn₂ hothers
  let n₂ := (n.ring.superpeers.toList.filter fun t => !o.reaches t).foldl Node.enqueue n₁
  let n' := o.withoutPeer failed n
  have hme₂ : n₂.me = id := hframe.plain.me hn₂
  have hme' : n'.me = id := hme₂
  have hn' : (o₂.put id n').node? id = some n' := node?_put_self hn₂
  have hask := does_available hn failed
  rw [hdata, hme] at hask
  have hcreator := does_creatorAvailable h hn hrole hne hlisted hlost
  have hrecover := does_recoverRanges hframe.plain hn₂ failed (n₁.rangesOf failed)
  have hreport := does_reportFailure hn' failed false
  rw [hme'] at hreport
  rw [← hring₁] at hnotify
  have hasked : (n₁.rangesOf failed).flatMap
        (fun r => o₂.recoveryEvents id failed r.start r.backups.toList) =
      (n.rangesOf failed).flatMap
        fun r => o.recoveryEvents id failed r.start (r.backups.erase failed).toList := by
    rw [n.rangesOf_noticeFailedPeer, List.flatMap_map]
    simp only [hframe.recoveryEvents_eq h]
  have hall : Does o id (peerFailed failed) () (o₂.put id n') _ :=
    hask.bind (hcreator.bind (Does.modify_bind hn (Does.node_bind hn₁ (hnotify.bind
      (hrecover.bind (Does.modify_bind hn₂ hreport))))))
  refine ⟨_, ?_, hn', fun x hx => ?_⟩
  · convert hall using 1
    rw [hasked, hring₁, notices, hreaches₁]
    simp only [peerLostEvents, notices, List.reverse_append, List.append_assoc]
    rfl
  · rw [hframe.plain.node?_put_of_ne hx, hothers x hx, h.node?_put_of_ne hx]
    rfl

/-- Whoever looks only for the rebuilding of ranges finds it range by range. -/
theorem filterMap_peerLostEvents {β : Type} {f : Event ρ → Option β}
    (hsent : ∀ t message outcome, (∀ lost start, message ≠ .startRecovery lost start) →
      f (.sent id t message outcome) = none)
    (hasked : f (.askedAvailable id failed true) = none)
    (hreported : f (.reportedFailure id failed false) = none) :
    (o.peerLostEvents id failed n).filterMap f = (n.rangesOf failed).flatMap fun r =>
      (o.recoveryEvents id failed r.start (r.backups.erase failed).toList).filterMap f := by
  have hnotices : (o.notices id failed n.ring.superpeers.toList).filterMap f = [] := by
    rw [notices, List.filterMap_map]
    exact List.filterMap_eq_nil_iff.mpr fun t _ => hsent t _ _ fun _ _ => Message.noConfusion
  have hping := hsent failed (.sendSuperpeers (n.ring.superpeers.insert id).toList)
    (.error (.unreachable failed .refused)) fun _ _ => Message.noConfusion
  rw [peerLostEvents, List.filterMap_append, List.filterMap_append, List.filterMap_append, hnotices,
    List.filterMap_flatMap, List.filterMap_cons_none hasked, List.filterMap_cons_none hping,
    List.filterMap_cons_none hreported]
  simp only [List.filterMap_nil, List.append_nil, List.nil_append]

theorem attempt?_peerLostEvents (o : Overlay ρ) (id failed : NodeId) (n : Node) :
    (o.peerLostEvents id failed n).filterMap Event.attempt? =
      (n.rangesOf failed).flatMap fun r =>
        o.attempts failed r.start (r.backups.erase failed).toList := by
  have hsent (t : NodeId) (message : Message) (outcome : Except NetError Unit)
      (hne : ∀ lost start, message ≠ .startRecovery lost start) :
      (Event.sent id t message outcome : Event ρ).attempt? = none := by
    cases message with
    | startRecovery lost start => exact absurd rfl (hne lost start)
    | _ => rfl
  rw [filterMap_peerLostEvents hsent rfl rfl]
  simp only [attempt?_recoveryEvents]

theorem begun?_peerLostEvents (o : Overlay ρ) (id failed : NodeId) (n : Node) :
    (o.peerLostEvents id failed n).filterMap Event.begun? =
      ((o.peerLostEvents id failed n).filterMap Event.attempt?).filter (·.taken) := by
  rw [filterMap_peerLostEvents (fun _ _ _ _ => rfl) rfl rfl, attempt?_peerLostEvents,
    List.filter_flatMap]
  simp only [begun?_recoveryEvents]

/-- It makes no difference to who is reached that a lost peer is struck. -/
theorem any_reaches_erase (hlost : o.reaches failed = false) (b : BackupPeers) :
    (b.erase failed).toList.any o.reaches = b.toList.any o.reaches := by
  rw [BackupPeers.erase, List.any_filter]
  refine congrArg (b.toList.any ·) (funext fun x => ?_)
  by_cases hx : x = failed
  · rw [hx, hlost, Bool.and_false]
  · rw [decide_eq_true hx, Bool.true_and]

/-- As many requests for a start are taken as there are ranges with that start and a backup that is
reached. -/
theorem countP_attempts_flatMap (hlost : o.reaches failed = false) (ranges : List BackupRange)
    (start : RangeStart) :
    (ranges.flatMap fun r => o.attempts failed r.start (r.backups.erase failed).toList).countP
        (fun a => a.taken && a.start = start) =
      ranges.countP fun r => r.start = start && r.backups.toList.any o.reaches := by
  induction ranges with
  | nil => rfl
  | cons r rest ih =>
    have hstart {a : Attempt} (ha : a ∈ o.attempts failed r.start (r.backups.erase failed).toList) :
        a.start = r.start := (of_mem_attempts ha).2.2
    rw [List.flatMap_cons, List.countP_append, ih, List.countP_cons, Nat.add_comm]
    congr 1
    by_cases hs : r.start = start
    · rw [List.countP_congr (q := (·.taken)) fun a ha => by rw [hstart ha]; simp [hs],
        countP_attempts, any_reaches_erase hlost]
      cases r.backups.toList.any o.reaches <;> simp [hs]
    · rw [List.countP_eq_zero.mpr fun a ha => by rw [hstart ha]; simp [hs]]
      simp [hs]

/-- Whom a superpeer in state `n` asked to rebuild the ranges of a failed peer, and who does. The
events are listed from the last to the first. -/
structure RangesAsked (o : Overlay ρ) (failed : NodeId) (n : Node) (events : List (Event ρ)) :
    Prop where
  /-- Each range is asked for by itself, until a backup takes it. -/
  asked : events.reverse.filterMap Event.attempt? = (n.rangesOf failed).flatMap fun r =>
    o.attempts failed r.start (r.backups.erase failed).toList
  once : ∀ r ∈ n.rangesOf failed,
    (o.attempts failed r.start (r.backups.erase failed).toList).countP (·.taken) =
      (r.backups.toList.any o.reaches).toNat
  taken : ∀ start, (events.filterMap Event.attempt?).countP (fun a => a.taken && a.start = start) =
    (n.rangesOf failed).countP fun r => r.start = start && r.backups.toList.any o.reaches
  never : ∀ a ∈ events.filterMap Event.attempt?, a.backup ≠ failed
  begun : events.reverse.filterMap Event.begun? =
    (events.reverse.filterMap Event.attempt?).filter (·.taken)

theorem rangesAsked_peerLostEvents (hlost : o.reaches failed = false) (id : NodeId) (n : Node) :
    RangesAsked o failed n (o.peerLostEvents id failed n).reverse := by
  have hattempts := attempt?_peerLostEvents o id failed n
  refine ⟨?_, fun r _ => ?_, fun start => ?_, fun a ha hbackup => ?_, ?_⟩
  · rw [List.reverse_reverse, hattempts]
  · rw [countP_attempts, any_reaches_erase hlost]
  · rw [List.filterMap_reverse, List.countP_reverse, hattempts]
    exact countP_attempts_flatMap hlost _ start
  · rw [List.filterMap_reverse, List.mem_reverse, hattempts] at ha
    obtain ⟨r, -, ha⟩ := List.mem_flatMap.mp ha
    exact r.backups.not_mem_erase (hbackup ▸ (of_mem_attempts ha).1)
  · rw [List.reverse_reverse, begun?_peerLostEvents]

/-! ## What is left of the peer -/

/-- Nothing is left of a failed peer at a superpeer that was in state `n` and became `n'`, nor at the
superpeers that it reaches. -/
structure PeerPurged (o o' : Overlay ρ) (id failed : NodeId) (n n' : Node) : Prop where
  struck : ∀ d, n.directory? = some d → ∃ d', n'.directory? = some d' ∧ d.Struck failed d'
  told : ∀ x ∈ n.ring.superpeers, o.reaches x = true → ∀ m d, o.node? x = some m →
    m.directory? = some d →
      ∃ m' d', o'.node? x = some m' ∧ m'.directory? = some d' ∧ d.Struck failed d'
  untold : ∀ x ≠ id, x ∉ n.ring.superpeers ∨ o.reaches x = false → o'.node? x = o.node? x
  forgotten : failed ∉ n'.ring.peers
  queued : ∀ x, x ∈ n'.failures ↔
    x ∈ n.failures ∨ x ∈ n.ring.superpeers ∧ o.reaches x = false

theorem peerPurged_withoutPeer {o' : Overlay ρ} (hn : o.node? id = some n)
    (hn' : o'.node? id = some (o.withoutPeer failed n))
    (hothers : ∀ x ≠ id, o'.node? x = if x ∈ n.ring.superpeers ∧ o.reaches x = true then
      (o.node? x).map (·.noticeFailedPeer failed) else o.node? x) :
    PeerPurged o o' id failed n (o.withoutPeer failed n) := by
  have hown {d : Directory} (hd : n.directory? = some d) :
      ∃ d', (o.withoutPeer failed n).directory? = some d' ∧ d.Struck failed d' := by
    rw [directory?_withoutPeer]
    exact Node.struck_noticeFailedPeer hd failed
  constructor
  case struck => exact fun d hd => hown hd
  case told =>
    intro x hx hreach m d hm hd
    by_cases hid : x = id
    · subst hid
      rw [hn] at hm
      cases hm
      obtain ⟨d', hd', hstruck⟩ := hown hd
      exact ⟨_, d', hn', hd', hstruck⟩
    · obtain ⟨d', hd', hstruck⟩ := Node.struck_noticeFailedPeer hd failed
      refine ⟨m.noticeFailedPeer failed, d', ?_, hd', hstruck⟩
      rw [hothers x hid, if_pos ⟨hx, hreach⟩, hm, Option.map_some]
  case untold =>
    intro x hid hx
    refine (hothers x hid).trans (if_neg ?_)
    rintro ⟨hmem, hreach⟩
    exact hx.elim (· hmem) fun hlost => by rw [hlost] at hreach; cases hreach
  case forgotten =>
    rw [ring_withoutPeer, Ring.removePeer, NodeSet.mem_erase]
    exact fun hmem => hmem.2 rfl
  case queued => exact fun x => mem_failures_withoutPeer

/-- A lost peer is struck everywhere, and each of its ranges is rebuilt once if any of the peers with
copies is reached, whichever nodes are. The peer is another node than the superpeer, as every node
answers itself. -/
theorem lost_peer_is_recovered (h : o.Plain) (hn : o.node? id = some n)
    (hrole : n.isSuperpeer = true) (hne : failed ≠ id) (hpeer : failed ∈ n.ring.peers)
    (hlisted : failed ∉ n.ring.superpeers) (hdata : o.holds .holdsData failed = true)
    (hlost : o.reaches failed = false) :
    ∃ o' n' events, Does o id (handleFailure failed) () o' events ∧ o'.node? id = some n' ∧
      RangesAsked o failed n events ∧ PeerPurged o o' id failed n n' := by
  obtain ⟨o', hdoes, hn', hothers⟩ := does_peerFailed h hn hrole hne hlisted hdata hlost
  refine ⟨o', _, _, ?_, hn', rangesAsked_peerLostEvents hlost id n,
    peerPurged_withoutPeer hn hn' hothers⟩
  have hcontains : ¬ n.ring.superpeers.contains failed = true :=
    fun hcontains => hlisted (of_decide_eq_true hcontains)
  refine Does.node_bind hn ?_
  rw [if_neg (by rwa [h.me hn]), if_neg hcontains,
    if_pos (show n.ring.peers.contains failed = true from decide_eq_true hpeer)]
  exact hdoes

/-- The superpeer at 1000 in the ring of five, with the tree of the peer at 500. -/
def mourner : Node :=
  let tree : LookupTree :=
    { LookupTree.new ⟨500⟩ with
      backupRanges := .ofList [(0, ⟨[⟨600⟩, ⟨500⟩, ⟨700⟩]⟩)]
      migrationRanges := .ofList [(3, ⟨[⟨600⟩]⟩)] }
  let n : Node := .complete ringOfFive (twoAttempts ⟨1000⟩ .superpeer)
  (n.mapRing fun r => { r with peers := .ofList [⟨500⟩, ⟨600⟩, ⟨700⟩] }).store [tree] []

/-- The superpeers of the ring of five and three peers. -/
def nodesOfEight : List Config :=
  nodesOfFive ++ [twoAttempts ⟨600⟩ .peer, twoAttempts ⟨700⟩ .peer]

/-- The ring of five with three peers. The superpeer at 3000 and the peers at 500 and 600 are cut
off. -/
def thinned : Overlay Unit :=
  { (complete ringOfFive nodesOfEight).put ⟨1000⟩ mourner with
    conditions := [(.down, ⟨500⟩), (.down, ⟨600⟩), (.down, ⟨3000⟩), (.holdsData, ⟨500⟩)] }

theorem plain_thinned : thinned.Plain := by
  have hcomplete : ((complete ringOfFive nodesOfEight : Overlay Unit).put ⟨1000⟩ mourner).Plain :=
    calm_complete.plain.put rfl
  exact ⟨hcomplete.rules, hcomplete.numbered⟩

/-- The peer at 700 rebuilds the range of chunks, and nobody rebuilds the other range. -/
theorem lost_peer_is_recovered_thinned :
    ∃ o' n' events, Does thinned ⟨1000⟩ (handleFailure ⟨500⟩) () o' events ∧
      o'.node? ⟨1000⟩ = some n' ∧
      events.reverse.filterMap Event.attempt? =
        [⟨⟨600⟩, ⟨500⟩, .created (.make ⟨500⟩ 0), false⟩,
          ⟨⟨700⟩, ⟨500⟩, .created (.make ⟨500⟩ 0), true⟩, ⟨⟨600⟩, ⟨500⟩, .migration 3, false⟩] ∧
      ⟨3000⟩ ∈ n'.failures ∧ ⟨500⟩ ∉ n'.ring.peers := by
  have hn : thinned.node? ⟨1000⟩ = some mourner := rfl
  obtain ⟨o', n', events, hdoes, hn', hranges, hpurged⟩ := lost_peer_is_recovered plain_thinned hn
    (by decide) (by decide : (⟨500⟩ : NodeId) ≠ ⟨1000⟩) (by decide) (by decide) (by decide) (by decide)
  refine ⟨o', n', events, hdoes, hn', hranges.asked.trans (by decide), ?_, hpurged.forgotten⟩
  exact (hpurged.queued ⟨3000⟩).mpr (.inr (by decide))

end Overlay

end ChunkDirectory
