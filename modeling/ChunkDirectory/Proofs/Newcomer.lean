import ChunkDirectory.Proofs.Concurrency.Promotion
import ChunkDirectory.Proofs.Overlay.Complete
import ChunkDirectory.Proofs.Protocol.Obeys
import ChunkDirectory.Proofs.Protocol.Record
import ChunkDirectory.Proofs.Ring.Window
import ChunkDirectory.Proofs.Wire.Snapshot

/-!
# What a newcomer is given

A superpeer that admits a newcomer or promotes a peer sends it a snapshot. The area for which the
snapshot is made is that of a superpeer in the newcomer's place with the list of the sender, and
this is never smaller than the area the newcomer finds from its own list, which has at least as many
members (`Ring.area_of_adopt`). So once the snapshot is installed the newcomer holds in its area
exactly what the sender held there (`Node.Equips`). This needs nothing of the sender's list but that
it names nodes, and it is so whatever happens while the join or the promotion is under way
(`Node.snapshot_equips`).
-/

namespace ChunkDirectory

open Protocol

/-- What every node keeps up: it lists no reserved identifiers, and its trees are stored under their
creators and have lengths that can be written. -/
structure Node.Sound (n : Node) : Prop where
  superpeers : ∀ x ∈ n.ring.superpeers, x.isReserved = false
  peers : ∀ x ∈ n.ring.peers, x.isReserved = false
  keyed : n.Keyed
  fits : n.Fits

/-- `m` installed a snapshot from `giver`. In its area each slot holds what `seen` makes of the
giver's, and its peers are the giver's between the snapshot's predecessor and itself. -/
structure Node.Equips (giver : Node) (s : Snapshot) (m : Node)
    (seen : (slot : Slot) → Option slot.Content → Option slot.Content) : Prop where
  slots : ∀ slot, (m.ring.area m.me).contains slot.position = true →
    m.read slot = seen slot (giver.read slot)
  peers : ∃ p, s.predecessor = some p ∧ ∀ x, x ∈ m.ring.peers ↔
    x ∈ giver.ring.peers ∧ Arc.contains ⟨p, m.me, .strict⟩ x = true

variable {n k : Node} {id new p : NodeId} {slot : Slot} {s : Snapshot}

/-! ## The newcomer's view -/

/-- The area of a newcomer is no larger than that of its place in the list it was given. -/
theorem Ring.area_of_adopt {r : Ring} (h : n.Sound)
    (hgiven : s.superpeers = n.ring.superpeers.toList)
    (harea : ((r.adopt s).area r.me).contains id = true) :
    (n.ring.area r.me).contains id = true := by
  obtain ⟨t, u, hadopt, ht, -⟩ := adopt_shape r s
  rw [hadopt] at harea
  rw [area_contains_iff] at harea ⊢
  refine Nat.le_trans (NodeSet.between_mono fun y hy hyme => ?_) harea
  exact (ht y).mpr ⟨.inl (by rw [hgiven]; exact hy), admits_iff.mpr ⟨hyme, h.superpeers y hy⟩⟩

/-- The peers of a newcomer are those it was given. -/
theorem Ring.mem_peers_adopt {r : Ring} {x : NodeId} (h : n.Sound)
    (hgiven : s.peers = n.ring.peersIn ⟨p, r.me, .strict⟩) :
    x ∈ (r.adopt s).peers ↔ x ∈ n.ring.peers ∧ Arc.contains ⟨p, r.me, .strict⟩ x = true := by
  obtain ⟨t, u, hadopt, -, hu⟩ := adopt_shape r s
  rw [hadopt, hu, hgiven, peersIn, List.mem_filter]
  exact and_iff_left_of_imp fun ⟨hx, hbetween⟩ =>
    admits_iff.mpr ⟨Arc.ne_of_mem_strict hbetween, h.peers x hx⟩

/-- Whoever takes over the view of a snapshot and reads in it what the snapshot carries is
equipped. -/
theorem Node.equips_of_adopt {m : Node}
    {seen : (slot : Slot) → Option slot.Content → Option slot.Content} (h : n.Sound)
    (hring : m.ring = k.ring.adopt (n.snapshotFor p k.me))
    (hread : ∀ slot content, (n.snapshotFor p k.me).Carries slot content →
      m.read slot = seen slot content) :
    n.Equips (n.snapshotFor p k.me) m seen := by
  have hme : m.me = k.me := by rw [Node.me, hring, Ring.me_adopt, Node.me]
  refine ⟨fun slot harea => hread slot _ (carries_of_contains h.keyed ?_), p, rfl, fun x => ?_⟩
  · rw [hme, hring] at harea
    exact Ring.area_of_adopt h rfl harea
  · rw [hme, hring]
    exact Ring.mem_peers_adopt h rfl

/-! ## Joins -/

/-- A superpeer without metadata that installs a snapshot. -/
theorem Node.equips_install (h : n.Sound) (hempty : k.directory? = some .empty) :
    n.Equips (n.snapshotFor p k.me) (k.install (n.snapshotFor p k.me))
      fun _ content => content := by
  refine equips_of_adopt h (ring_mapDirectory _) fun slot content hcarries => ?_
  rw [read_install (by rw [isSuperpeer, hempty]; rfl) hcarries, read_of_directory? hempty,
    Directory.read_empty, Option.or_none]

/-- What a superpeer is told that admits a superpeer, and what becomes of the one that admits it. -/
theorem Node.welcome_eq_superpeer {n' : Node} {old : Option NodeId} {isSuperpeer : Bool}
    (h : n.welcome new isSuperpeer = (.superpeer s old, n')) :
    ∃ p alone, s = n.snapshotFor p new ∧
      n' = n.mapRing fun r => splitRing r s.peers new alone := by
  unfold welcome at h
  split at h
  case isTrue => cases h
  case isFalse =>
    split at h
    case isTrue => cases h
    case isFalse =>
      cases h
      exact ⟨_, _, rfl, rfl⟩

/-- The reply that admits a superpeer has the snapshot that was made for it. -/
theorem obeys_admissionReply (new : NodeId) (admission : Admission) (m : Node) :
    (admissionReply new admission m).Obeys (fun _ _ => True) fun reply _ =>
      ∀ s, reply = .joinAccepted s → ∃ old, admission = .superpeer s old := by
  cases admission with
  | redirect contact => exact fun s hs => by cases hs
  | peer superpeers => exact fun s hs => by cases hs
  | superpeer snapshot old =>
    cases old with
    | none =>
      intro s hs
      cases hs
      exact ⟨_, rfl⟩
    | some old =>
      refine ⟨trivial, fun sent n' => ?_⟩
      cases sent with
      | ok =>
        intro s hs
        cases hs
        exact ⟨_, rfl⟩
      | error e =>
        refine ⟨trivial, fun _ _ s hs => ?_⟩
        cases hs
        exact ⟨_, rfl⟩

/-- An admission is decided at once; nothing is changed afterwards. -/
theorem state_admissionReply (new : NodeId) (admission : Admission) (m : Node) :
    (admissionReply new admission m).state = m := by
  match admission with
  | .redirect _ => rfl
  | .peer _ => rfl
  | .superpeer _ none => rfl
  | .superpeer _ (some _) => rfl

/-- If the reply accepts a superpeer, it arrives as it was sent, and whoever asked for admission
with nothing stored is equipped by it before it does anything else. Its peers are those that `giver`
lists and `left`, what remains of the giver's view, does not. -/
def AcceptanceEquips (giver : Node) (left : Ring) (new : NodeId) (reply : Message) : Prop :=
  ∀ s, reply = .joinAccepted s →
    Wire.decodeMessage (Wire.encodeMessage reply) = some reply ∧
    ∀ (attempt : JoinAttempt) (contact : NodeId) (k₀ k : Node), attempt.isSuperpeer = true →
      k.me = new → k.directory? = some .empty →
        ∃ resume m resume',
          askAdmission attempt contact k₀ = .wait k₀ (.call contact (.join k₀.me true)) resume ∧
          resume (.ok reply) k = .wait m .startWorker resume' ∧
          giver.Equips s m (fun _ content => content) ∧
          ∀ x, x ∈ m.ring.peers ↔ x ∈ giver.ring.peers ∧ x ∉ left.peers ∧ x ≠ new

/-- An accepted superpeer installs the snapshot before it does anything else. -/
theorem askAdmission_eq {attempt : JoinAttempt} (h : attempt.isSuperpeer = true)
    (contact : NodeId) (k₀ : Node) :
    ∃ resume, askAdmission attempt contact k₀ = .wait k₀ (.call contact (.join k₀.me true)) resume ∧
      ∀ s k, ∃ resume',
        resume (.ok (.joinAccepted s)) k = .wait (k.install s) .startWorker resume' := by
  obtain ⟨bootstrap, isSuperpeer, attempts⟩ := attempt
  cases h
  exact ⟨_, rfl, fun s k => ⟨_, rfl⟩⟩

/-- Whatever happens while a superpeer is admitted, the acceptance it gets equips it, and its peers
are those that are given up for it. -/
theorem Node.join_equips (h : n.Sound) (new : NodeId) :
    (handleJoin new true n).Obeys (fun _ _ => True) fun reply _ =>
      AcceptanceEquips n (handleJoin new true n).state.ring new reply := by
  by_cases hrole : n.isSuperpeer = true
  case neg =>
    have hrefused : handleJoin new true n = .done (.status .notSuperpeer) n := by
      show (if !n.isSuperpeer then _ else _ : Task Message) n = _
      rw [if_pos (by simp [hrole])]
      rfl
    rw [hrefused]
    exact fun s hs => by cases hs
  by_cases hne : new = n.me
  case pos =>
    have hrefused : handleJoin new true n = .done (.error "node ID already in use") n := by
      show (if !n.isSuperpeer then _ else if new = n.me then _ else _ : Task Message) n = _
      rw [if_neg (by simp [hrole]), if_pos hne]
      rfl
    rw [hrefused]
    exact fun s hs => by cases hs
  cases hwelcome : n.welcome new true with | mk admission n' =>
  rw [handleJoin_eq hrole hne hwelcome, state_admissionReply]
  refine (obeys_admissionReply new admission n').mono (fun _ _ => id) fun reply _ hreply s hs => ?_
  obtain ⟨old, rfl⟩ := hreply s hs
  obtain ⟨p, alone, rfl, rfl⟩ := welcome_eq_superpeer hwelcome
  rw [hs]
  refine ⟨Wire.decode_encodeMessage (Wire.readable_joinAccepted (fits_snapshotFor h.fits _ _)),
    fun attempt contact k₀ k hattempt hk hempty => ?_⟩
  subst hk
  obtain ⟨resume, hasks, hresume⟩ := askAdmission_eq hattempt contact k₀
  obtain ⟨resume', hresume⟩ := hresume (n.snapshotFor p k.me) k
  refine ⟨resume, _, resume', hasks, hresume, equips_install h hempty, fun x => ?_⟩
  have hmoved : x ∈ (k.install (n.snapshotFor p k.me)).ring.peers ↔
      x ∈ n.ring.peers ∧ Arc.contains ⟨p, k.me, .strict⟩ x = true := by
    rw [show (k.install (n.snapshotFor p k.me)).ring = k.ring.adopt _ from ring_mapDirectory _]
    exact Ring.mem_peers_adopt h rfl
  obtain ⟨t, u, hsplit, -, hkept⟩ := Ring.splitRing_eq_of_ne (r := n.ring)
    (n.snapshotFor p k.me).peers alone hne
  show x ∈ _ ↔ x ∈ n.ring.peers ∧ x ∉ (splitRing n.ring _ k.me alone).peers ∧ x ≠ k.me
  have hsent : x ∈ (n.snapshotFor p k.me).peers ↔
      x ∈ n.ring.peers ∧ Arc.contains ⟨p, k.me, .strict⟩ x = true := List.mem_filter
  rw [hsplit, hkept, hmoved, hsent]
  constructor
  · rintro ⟨hx, hbetween⟩
    exact ⟨hx, fun hstays => hstays.1.2 ⟨hx, hbetween⟩, Arc.ne_of_mem_strict hbetween⟩
  · rintro ⟨hx, hleaves, hne⟩
    refine ⟨hx, Decidable.byContradiction fun houtside => hleaves ⟨⟨hx, fun hboth => ?_⟩, hne⟩⟩
    exact houtside hboth.2

/-! ## Promotions -/

/-- A peer that is promoted with a snapshot. -/
theorem Node.equips_becomeSuperpeer (h : n.Sound) :
    n.Equips (n.snapshotFor p k.me) (becomeSuperpeer k (n.snapshotFor p k.me))
      fun slot content => slot.mark k.me content :=
  equips_of_adopt h rfl fun _ _ hcarries => read_becomeSuperpeer k hcarries

/-- What is offered to the candidate, if anything, is the snapshot for it from the same state. -/
def Offering (candidate : NodeId) (n : Node) (r : Request) : Prop :=
  ∀ s replacement, r = .call candidate (.promotePeer s replacement) → s = offer candidate n

/-- Nothing but the offer is sent to the candidate as an offer. -/
theorem offering_of_ne {candidate : NodeId} {r : Request}
    (h : ∀ s replacement, r ≠ .call candidate (.promotePeer s replacement)) (n : Node) :
    Offering candidate n r := fun s replacement hr => absurd hr (h s replacement)

theorem offering_draw {candidate : NodeId} (n : Node) : Offering candidate n .draw :=
  offering_of_ne (fun _ _ hr => by cases hr) n

theorem obeys_promoteWith (candidate replacement : NodeId) (n : Node) :
    (promoteWith candidate replacement n).Obeys (Offering candidate) fun _ _ => True := by
  refine ⟨fun s replacement hr => by cases hr; rfl, fun reply n' => ?_⟩
  show (conclude candidate n.ring.superpeers.isEmpty (offer candidate n).peers reply n').Obeys _ _
  cases reply with
  | error e => trivial
  | ok reply =>
    cases reply with
    | promotionResult accepted =>
      cases accepted with
      | false => trivial
      | true =>
        show (tell candidate (if n.ring.superpeers.isEmpty then none else n'.ring.predecessor)
          _).Obeys _ _
        cases (if n.ring.superpeers.isEmpty then none else n'.ring.predecessor) with
        | none => trivial
        | some old =>
          refine ⟨offering_of_ne (fun _ _ hr => by cases hr) _, fun sent _ => ?_⟩
          cases sent <;> trivial
    | _ => trivial

/-- A promotion makes no offer but for the place the candidate is to have. -/
theorem obeys_promote (candidate : NodeId) (safe : Bool) (n : Node) :
    (promote candidate safe n).Obeys (Offering candidate) fun _ _ => True := by
  show ((if !n.isSuperpeer then _ else if n.promoting then _ else _ : Task _) n).Obeys _ _
  by_cases hrole : n.isSuperpeer = true
  case neg =>
    rw [if_pos (by simp [hrole])]
    trivial
  by_cases hbusy : n.promoting = true
  case pos =>
    rw [if_neg (by simp [hrole]), if_pos hbusy]
    trivial
  rw [if_neg (by simp [hrole]), if_neg hbusy]
  show Progress.Obeys _ _ (Progress.bind (findReplacement candidate safe _) _)
  have hsearch (n : Node) (contact : NodeId) :
      Offering candidate n (.call contact .searchForPeer) :=
    offering_of_ne (fun _ _ hr => by cases hr) n
  refine (obeys_findReplacement offering_draw hsearch candidate safe _).bind fun found n _ => ?_
  cases found with
  | none => trivial
  | some replacement => exact (obeys_promoteWith candidate replacement n).bind fun _ _ _ => trivial

/-- If the request offers the candidate a promotion, it arrives as it was sent, and a peer that gets
it is equipped by it before it moves its objects. -/
def OfferEquips (candidate : NodeId) (giver : Node) (r : Request) : Prop :=
  ∀ s replacement, r = .call candidate (.promotePeer s replacement) →
    (∀ sender, Wire.decodeEnvelope (Wire.encodeEnvelope ⟨sender, .promotePeer s replacement⟩) =
      some ⟨sender, .promotePeer s replacement⟩) ∧
    ∀ k : Node, k.me = candidate → k.isSuperpeer = false →
      ∃ m resume, handlePromotePeer s replacement k = .wait m (.handOver replacement) resume ∧
        giver.Equips s m fun slot content => slot.mark candidate content

/-- Whatever happens while a peer is promoted, the offer it gets equips it. -/
theorem Node.promotion_equips (candidate : NodeId) (safe : Bool) (n₀ : Node) :
    (promote candidate safe n₀).Obeys (fun n r => n.Sound → OfferEquips candidate n r)
      fun _ _ => True := by
  refine (obeys_promote candidate safe n₀).mono (fun n r hoffer h s replacement hr => ?_)
    fun _ _ => id
  obtain rfl := hoffer s replacement hr
  refine ⟨fun sender => Wire.decode_encodeEnvelope ?_, fun k hk hpeer => ?_⟩
  · exact Wire.readable_promotePeer (fits_snapshotFor h.fits _ _) replacement
  · subst hk
    exact ⟨_, _, handlePromotePeer_eq _ replacement hpeer, equips_becomeSuperpeer h⟩

/-- A snapshot gives a newcomer all it must hold, in every join and every promotion, whatever the
sender lists and whatever happens meanwhile. -/
theorem Node.snapshot_equips :
    (∀ (n : Node) (new : NodeId), n.Sound →
      (handleJoin new true n).Obeys (fun _ _ => True) fun reply _ =>
        AcceptanceEquips n (handleJoin new true n).state.ring new reply) ∧
    ∀ (n₀ : Node) (candidate : NodeId) (safe : Bool),
      (promote candidate safe n₀).Obeys (fun n r => n.Sound → OfferEquips candidate n r)
        fun _ _ => True :=
  ⟨fun _ new h => join_equips h new, fun n₀ candidate safe => promotion_equips candidate safe n₀⟩

/-! ## A join and a promotion in the ring of five -/

/-- A run ends with such a result. -/
theorem Progress.Obeys.ends {α : Type} {asks : Node → Request → Prop} {ends : α → Node → Prop}
    {a : α} {n' : Node} {p : Progress α} {log : List Occurrence} (h : p.Obeys asks ends)
    (hfollows : p.Follows log a n') : ends a n' := by
  induction hfollows with
  | done => exact h
  | wait x _ ih => exact ih (h.2 x _)
  | enter _ _ _ ih => exact ih (h _ _)

/-- The superpeer at 1000 in the ring of five. It lists three peers and stores three trees and two
mappings. -/
def stocked : Node :=
  let tree (creator : NodeId) : LookupTree :=
    (LookupTree.new creator).register (.created (.make creator 0)) (.ofList [⟨200⟩, ⟨700⟩])
  let n : Node := .complete Overlay.ringOfFive (Overlay.twoAttempts ⟨1000⟩ .superpeer)
  (n.mapRing (·.insertPeers [⟨200⟩, ⟨500⟩, ⟨700⟩])).store [tree ⟨500⟩, tree ⟨800⟩, tree ⟨3500⟩]
    [(⟨5⟩, .make ⟨800⟩ 1), (⟨12⟩, .make ⟨500⟩ 2)]

theorem sound_stocked : stocked.Sound := by
  let d := stocked.directory?.getD .empty
  have hstored : stocked.directory? = some d := rfl
  have hsuperpeers : ∀ x ∈ stocked.ring.superpeers.toList, x.isReserved = false := by decide
  have hpeers : ∀ x ∈ stocked.ring.peers.toList, x.isReserved = false := by decide
  have hlengths : ∀ e ∈ d.trees.byCreator.entries,
      (e.2.owners.size < 2 ^ 64 ∧ e.2.backupRanges.size < 2 ^ 64) ∧
      (∀ r ∈ e.2.backupRanges.entries, r.2.size < 2 ^ 64) ∧
      ∀ r ∈ e.2.migrationRanges.entries, r.2.size < 2 ^ 64 := by decide
  refine ⟨hsuperpeers, hpeers, ?_, fun d' hd' creator tree htree => ?_⟩
  · have hempty : Node.Keyed
        (.complete Overlay.ringOfFive (Overlay.twoAttempts ⟨1000⟩ .superpeer)) :=
      fun d hd => by cases hd; exact TreeTable.keyed_empty
    exact Node.Keyed.store hempty _ _
  · obtain rfl := Option.some.inj (hstored.symm.trans hd')
    obtain ⟨⟨howners, hranges⟩, hbackups, hmigrated⟩ :=
      hlengths _ (SortedMap.get?_eq_some_iff.mp htree)
    exact ⟨howners, hranges, hbackups, hmigrated⟩

/-- It admits a superpeer at 600 and promotes its peer at 500. To either it gives the trees of 500
and of 3500 and the mapping at 225, which are in the windows of both newcomers, but not the tree of
800 and the mapping at 675. -/
theorem snapshot_equips_ringOfFive :
    stocked.Sound ∧
      (∃ s n', (handleJoin ⟨600⟩ true stocked).Follows
          [.asked (.send ⟨0⟩ (.notifyAboutNewSuccessor ⟨600⟩)) (.ok ())] (.joinAccepted s) n' ∧
        s.trees.map (·.creator) = [⟨500⟩, ⟨3500⟩] ∧ s.mappings.map (·.1) = [⟨5⟩] ∧
        s.peers = [⟨200⟩, ⟨500⟩] ∧
        AcceptanceEquips stocked n'.ring ⟨600⟩ (.joinAccepted s)) ∧
      ∃ s n', (promote ⟨500⟩ true stocked).Follows
          [.asked .draw (0 : Nat),
            .asked (.call ⟨500⟩ (.promotePeer s ⟨200⟩)) (.ok (.promotionResult true)),
            .asked (.send ⟨0⟩ (.notifyAboutNewSuccessor ⟨500⟩)) (.ok ())] (.ok ()) n' ∧
        s.trees.map (·.creator) = [⟨500⟩, ⟨3500⟩] ∧ s.mappings.map (·.1) = [⟨5⟩] ∧
        s.peers = [⟨200⟩] ∧
        OfferEquips ⟨500⟩ { stocked with promoting := true }
          (.call ⟨500⟩ (.promotePeer s ⟨200⟩)) := by
  have hjoin : (handleJoin ⟨600⟩ true stocked).Follows
      [.asked (.send ⟨0⟩ (.notifyAboutNewSuccessor ⟨600⟩)) (.ok ())]
      (.joinAccepted (stocked.snapshotFor ⟨0⟩ ⟨600⟩)) (stocked.welcome ⟨600⟩ true).2 :=
    .wait _ .done
  obtain ⟨n', hpromotion⟩ : ∃ n', (promote ⟨500⟩ true stocked).Follows
      [.asked .draw (0 : Nat),
        .asked (.call ⟨500⟩ (.promotePeer (stocked.snapshotFor ⟨0⟩ ⟨500⟩) ⟨200⟩))
          (.ok (.promotionResult true)),
        .asked (.send ⟨0⟩ (.notifyAboutNewSuccessor ⟨500⟩)) (.ok ())] (.ok ()) n' :=
    ⟨_, .wait _ (.wait _ (.wait _ .done))⟩
  refine ⟨sound_stocked, ⟨_, _, hjoin, by decide +kernel, by decide +kernel, by decide, ?_⟩,
    _, n', hpromotion, by decide +kernel, by decide +kernel, by decide, ?_⟩
  · exact (Node.snapshot_equips.1 stocked ⟨600⟩ sound_stocked).ends hjoin
  · -- The offer is what is asked for after the draw.
    have hobeys := Node.snapshot_equips.2 stocked ⟨500⟩ true
    have hoffer := (hobeys.2 (0 : Nat) { stocked with promoting := true }).1
    exact hoffer ⟨sound_stocked.superpeers, sound_stocked.peers, sound_stocked.keyed,
      sound_stocked.fits⟩

end ChunkDirectory
