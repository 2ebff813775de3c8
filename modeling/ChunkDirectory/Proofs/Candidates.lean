import ChunkDirectory.Proofs.Ascending
import ChunkDirectory.Proofs.Protocol.Attempt
import ChunkDirectory.Proofs.Protocol.Errands
import ChunkDirectory.Proofs.Ring.Sides

/-!
# The order of candidates

A superpeer that promotes one of its peers goes through them one by one. It should begin right below
the target on the ring (`NodeSet.ClosestBelow`). The order in which it takes them is that of the
list: the greatest untried identifier less than the target, and the least one when none is less
(`NodeSet.Picked`).

The two agree as long as an untried identifier is less than the target. Else the way down from the
target leads across position 0, to the greatest identifiers of the list, and the least one is taken
all the same. `Protocol.promotion_candidates` says when this is the right one; the other cases are
those in which the promotion splits the range of the superpeer away from the target
(`Protocol.promotion_candidates_acrossZero`).
-/

namespace ChunkDirectory

open NodeId

variable {low target c x y : NodeId} {tried : List NodeId}

namespace Request

/-- The peer that a request asks to become a superpeer. -/
def offered? : Request → Option NodeId
  | .call candidate (.promotePeer ..) => some candidate
  | _ => none

end Request

/-- The peer that was asked to become a superpeer. -/
def Occurrence.offered? : Occurrence → Option NodeId
  | .asked r _ => r.offered?
  | .entered .. => none

namespace NodeSet

/-- The members that are not in the list. -/
def without (s : NodeSet) (l : List NodeId) : NodeSet := s.filter fun x => !l.contains x

@[simp] theorem mem_without {s : NodeSet} {l : List NodeId} : x ∈ s.without l ↔ x ∈ s ∧ x ∉ l := by
  show x ∈ s.toList.filter _ ↔ _
  rw [List.mem_filter]
  exact and_congr_right fun _ => by simp

/-- Strictly between the low end of a range and the target. -/
def Below (low target x : NodeId) : Prop := Arc.contains ⟨low, target, .strict⟩ x = true

instance : Decidable (Below low target x) := inferInstanceAs (Decidable (_ = true))

theorem below_iff : Below low target x ↔
    x ≠ target ∧ clockwise x target < clockwise low target := by
  by_cases h : low = target
  · subst h
    simp [Below, Arc.contains, clockwise_self]
  · exact Arc.mem_strict_iff h

/-- A candidate as it should be: the closest one below the target if there is any, else another. -/
def ClosestBelow (low target : NodeId) (untried : NodeSet) (c : NodeId) : Prop :=
  c ∈ untried ∧ ∀ x ∈ untried, Below low target x →
    Closest .before target (fun y => y ∈ untried ∧ Below low target y) c

/-- A candidate as it is taken: the closest one below the target on the way down to position 0 if
there is any, else the least. -/
def Picked (untried : NodeSet) (target c : NodeId) : Prop :=
  Closest .before target (fun x => x ∈ untried ∧ x < target) c ∨
    (∀ x ∈ untried, target ≤ x) ∧ c ∈ untried ∧ ∀ x ∈ untried, c ≤ x

variable {untried : NodeSet}

/-- The closest of those that are less is right: what is below the target and closer is less too. -/
theorem Picked.closestBelow_of_lt (h : untried.Picked target c) (hx : x ∈ untried)
    (hless : x < target) : ClosestBelow low target untried c := by
  rcases h with hclosest | ⟨hnone, -, -⟩
  · refine ⟨hclosest.1.1, fun y hy hbelow => ?_⟩
    obtain ⟨-, hnear⟩ := below_iff.mp hbelow
    have hle : ∀ z ∈ untried, z ≠ target → clockwise c target ≤ clockwise z target := by
      intro z hz hne
      by_cases hlt : z < target
      · exact hclosest.2 z ⟨hz, hlt⟩
      · have hc := lt_def.mp hclosest.1.2
        have hz' := toNat_lt z
        have hgreater : target < z := (lt_or_gt_of_ne hne).resolve_left hlt
        rw [clockwise_of_le (Nat.le_of_lt hc), clockwise_of_lt hgreater]
        omega
    refine ⟨⟨hclosest.1.1, below_iff.mpr ⟨ne_of_lt hclosest.1.2, ?_⟩⟩, fun z hz => ?_⟩
    · exact Nat.lt_of_le_of_lt (hle y hy (below_iff.mp hbelow).1) hnear
    · exact hle z hz.1 (below_iff.mp hz.2).1
  · exact absurd (hnone x hx) (Nat.not_le.mpr hless)

/-- Across position 0 the least one is the farthest. It is right only if there is no other, or none
below the target. -/
theorem Picked.closestBelow_iff_of_ge (h : untried.Picked target c)
    (hnone : ∀ x ∈ untried, target ≤ x) :
    ClosestBelow low target untried c ↔
      (∀ x ∈ untried, ¬ Below low target x) ∨ ∀ x ∈ untried, x = c := by
  obtain ⟨hmem, hleast⟩ : c ∈ untried ∧ ∀ x ∈ untried, c ≤ x := by
    rcases h with hclosest | ⟨-, hmem, hleast⟩
    · exact absurd (hnone c hclosest.1.1) (Nat.not_le.mpr hclosest.1.2)
    · exact ⟨hmem, hleast⟩
  constructor
  · rintro ⟨-, hclosest⟩
    by_contra hcon
    push Not at hcon
    obtain ⟨⟨x, hx, hbelow⟩, y, hy, hne⟩ := hcon
    have hc := hclosest x hx hbelow
    obtain ⟨hcne, hcnear⟩ := below_iff.mp hc.1.2
    have hless : c < y := (lt_or_gt_of_ne hne).resolve_left (Nat.not_lt.mpr (hleast y hy))
    have hgreater : target < c :=
      (lt_or_gt_of_ne hcne).resolve_left (Nat.not_lt.mpr (hnone c hmem))
    have hcloser : clockwise y target < clockwise c target := by
      have hless' := lt_def.mp hless
      have hy' := toNat_lt y
      rw [clockwise_of_lt hgreater, clockwise_of_lt (lt_trans hgreater hless)]
      omega
    have hybelow : Below low target y :=
      below_iff.mpr ⟨(ne_of_lt (lt_trans hgreater hless)).symm, Nat.lt_trans hcloser hcnear⟩
    exact Nat.not_le.mpr hcloser (hc.2 y ⟨hy, hybelow⟩)
  · rintro (hnobody | halone)
    · exact ⟨hmem, fun x hx hbelow => absurd hbelow (hnobody x hx)⟩
    · refine ⟨hmem, fun x hx hbelow => ⟨⟨hmem, halone x hx ▸ hbelow⟩, fun y hy => ?_⟩⟩
      rw [halone y hy.1]

end NodeSet

namespace Protocol

open NodeSet

variable {peers : NodeSet} {n n' : Node} {log : List Occurrence}

/-! ## One choice -/

theorem nextCandidate_none_iff :
    nextCandidate peers.toList tried target = none ↔ ∀ x ∈ peers, x ∈ tried := by
  have hlist : peers.toList.filter (fun x => !tried.contains x) = (peers.without tried).toList := rfl
  unfold nextCandidate
  dsimp only
  rw [hlist]
  split
  case h_1 c hc =>
    obtain ⟨hmem, -⟩ := List.mem_filter.mp (List.mem_of_getLast? hc)
    obtain ⟨hpeer, hnew⟩ := mem_without.mp hmem
    exact iff_of_false (by simp) fun hall => hnew (hall c hpeer)
  case h_2 =>
    rw [List.head?_eq_none_iff, List.eq_nil_iff_forall_not_mem]
    refine forall_congr' fun x => ?_
    have hmem : x ∈ (peers.without tried).toList ↔ x ∈ peers ∧ x ∉ tried := mem_without
    rw [hmem, not_and, not_not]

theorem picked_of_nextCandidate (h : nextCandidate peers.toList tried target = some c) :
    (peers.without tried).Picked target c := by
  have hlist : peers.toList.filter (fun x => !tried.contains x) = (peers.without tried).toList := rfl
  have hasc := (peers.without tried).ascending
  unfold nextCandidate at h
  dsimp only at h
  rw [hlist] at h
  split at h
  case h_1 c' hlast =>
    cases h
    obtain ⟨hmem, hmax⟩ :=
      (getLast?_eq_some_iff_of_ascending (f := toNat) (hasc.filter _)).mp hlast
    obtain ⟨huntried, hless⟩ := List.mem_filter.mp hmem
    have hless := of_decide_eq_true hless
    refine .inl ⟨⟨huntried, hless⟩, fun y hy => ?_⟩
    have hle := hmax y (List.mem_filter.mpr ⟨hy.1, decide_eq_true hy.2⟩)
    show clockwise c target ≤ clockwise y target
    rw [clockwise_of_le (Nat.le_of_lt hless), clockwise_of_le (Nat.le_of_lt hy.2)]
    omega
  case h_2 hnone =>
    obtain ⟨hmem, hmin⟩ := (head?_eq_some_iff_of_ascending (f := toNat) hasc).mp h
    refine .inr ⟨fun x hx => not_lt.mp fun hless => ?_, hmem, hmin⟩
    rw [List.getLast?_eq_none_iff, List.filter_eq_nil_iff] at hnone
    exact hnone x hx (decide_eq_true hless)

/-! ## A series of choices -/

/-- No peer is asked in what asks nothing of the kind. -/
theorem offered_eq_nil {α : Type} {t : Task α} {a : α}
    (ht : t.Within (·.offered? = none) (fun _ _ => True) (fun _ => False) fun _ => True)
    (h : (t n).Follows log a n') : log.filterMap Occurrence.offered? = [] := by
  have hrun : (t n).Interleaves Eq log a n' := h.interleaves fun _ => rfl
  obtain ⟨-, hasked, -⟩ := hrun.within (ht n trivial) (fun _ _ _ _ => trivial)
    (fun _ hr => hr.elim) fun _ _ _ => trivial
  refine List.filterMap_eq_nil_iff.mpr fun e he => ?_
  cases e with
  | asked r x => exact hasked r x he
  | entered => rfl

theorem offered_of_promoteWith {replacement : NodeId} {result : Except PromotionError Unit}
    (h : (promoteWith c replacement n).Follows log result n') :
    log.filterMap Occurrence.offered? = [c] := by
  obtain ⟨reply, rest, rfl, hrest⟩ := Task.follows_ask_bind.mp h
  have hnone : (conclude c n.ring.superpeers.isEmpty (offer c n).peers reply).Within
      (·.offered? = none) (fun _ _ => True) (fun _ => False) fun _ => True := by
    have htell (old : Option NodeId) : (tell c old).Within
        (·.offered? = none) (fun _ _ => True) (fun _ => False) fun _ => True := by
      cases old with
      | none => exact .pure _
      | some old =>
        refine (Task.Within.ask (by rfl)).bind fun sent => ?_
        cases sent with
        | ok => exact .pure _
        | error e => exact (within_enqueue (fun _ _ _ _ => trivial) old).bind fun _ => .pure _
    cases reply with
    | error e => exact (within_enqueue (fun _ _ _ _ => trivial) c).bind fun _ => .pure _
    | ok reply =>
      cases reply with
      | promotionResult accepted =>
        cases accepted with
        | false => exact .pure _
        | true =>
          refine .node_bind fun m _ => ?_
          exact (Task.Within.modify fun _ _ => trivial).bind fun _ => htell _
      | _ => exact .pure _
  exact congrArg (c :: ·) (offered_eq_nil hnone hrest)

/-- A superpeer that promotes asks the candidate, unless it is promoting somebody already or finds no
other place for the candidate's objects. -/
theorem offered_of_promote {safe : Bool} {result : Except PromotionError Unit}
    (hrole : n.isSuperpeer = true) (h : (promote c safe n).Follows log result n') :
    log.filterMap Occurrence.offered? = [c] ∨
      log.filterMap Occurrence.offered? = [] ∧
        (result = .error .busy ∨ result = .error .noReplacement) := by
  change ((if !n.isSuperpeer then _ else if n.promoting then _ else _ : Task _) n).Follows _ _ _ at h
  rw [hrole] at h
  split at h
  case isTrue hcontra => cases hcontra
  split at h
  case isTrue =>
    obtain ⟨rfl, rfl, -⟩ := Task.follows_pure.mp h
    exact .inr ⟨rfl, .inl rfl⟩
  case isFalse =>
    obtain ⟨found, m, first, rest, rfl, hsearch, hrest⟩ :=
      Task.follows_bind.mp (Task.follows_modify_bind.mp h)
    have hfirst := offered_eq_nil
      (within_findReplacement (fun _ _ _ _ => trivial) (by rfl) (fun _ => by rfl) c safe) hsearch
    rw [List.filterMap_append, hfirst, List.nil_append]
    cases found with
    | none =>
      obtain ⟨rfl, rfl, -⟩ := Progress.follows_done.mp hrest
      exact .inr ⟨rfl, .inr rfl⟩
    | some replacement =>
      obtain ⟨result', m', asked, last, rfl, hoffer, hlast⟩ := Task.follows_bind.mp hrest
      obtain ⟨rfl, -, -⟩ := Progress.follows_done.mp hlast
      rw [List.append_nil]
      exact .inl (offered_of_promoteWith hoffer)

/-- Each candidate of a series is chosen among those that were not asked before it. -/
theorem choice_of_tryCandidates {attempts : Nat} {series : PromotionSeries}
    {before later : List NodeId} (hrole : n.isSuperpeer = true)
    (h : (tryCandidates target attempts tried n).Follows log series n')
    (hoffered : log.filterMap Occurrence.offered? = before ++ c :: later) :
    nextCandidate n.ring.peers.toList (tried ++ before) target = some c := by
  induction attempts generalizing n tried log before with
  | zero =>
    obtain ⟨rfl, -, -⟩ := Task.follows_pure.mp h
    simp at hoffered
  | succ attempts ih =>
    have hnext := Task.follows_node_bind.mp h
    cases hcandidate : nextCandidate n.ring.peers.toList tried target with
    | none =>
      rw [hcandidate] at hnext
      obtain ⟨rfl, -, -⟩ := Task.follows_pure.mp hnext
      simp at hoffered
    | some candidate =>
      rw [hcandidate] at hnext
      obtain ⟨result, m, first, rest, rfl, hpromote, hrest⟩ := Task.follows_bind.mp hnext
      rw [List.filterMap_append] at hoffered
      rcases offered_of_promote hrole hpromote with hfirst | ⟨hfirst, hresult⟩
      · rw [hfirst, List.singleton_append] at hoffered
        cases before with
        | nil =>
          obtain ⟨rfl, -⟩ := List.cons.inj hoffered
          rw [List.append_nil]
          exact hcandidate
        | cons x before =>
          -- One more candidate was asked, so this attempt has failed.
          obtain ⟨rfl, hlater⟩ := List.cons.inj hoffered
          have hover {series' : PromotionSeries}
              (h : ((pure series' : Task PromotionSeries) m).Follows rest series n') : False := by
            obtain ⟨rfl, -, -⟩ := Task.follows_pure.mp h
            simp at hlater
          cases attempt_of_promote hpromote with
          | made => exact (hover hrest).elim
          | @failed error hqueued =>
            have hretry (h : (tryCandidates target attempts (tried ++ [candidate]) m).Follows
                rest series n') :
                nextCandidate n.ring.peers.toList (tried ++ candidate :: before) target = some c := by
              have hm : m.isSuperpeer = true := by
                rw [← hrole, Node.isSuperpeer, Node.directory?, hqueued.role]
                rfl
              have hchoice := ih hm h hlater
              rwa [hqueued.ring, List.append_assoc] at hchoice
            cases error with
            | busy => exact (hover hrest).elim
            | noReplacement => exact (hover hrest).elim
            | rejected => exact hretry hrest
            | peerUnavailable => exact hretry hrest
      · have hstopped : rest = [] := by
          rcases hresult with rfl | rfl
          · exact (Task.follows_pure.mp hrest).1
          · exact (Task.follows_pure.mp hrest).1
        rw [hfirst, hstopped] at hoffered
        simp at hoffered

theorem choice_of_promoteOnePeer {before later : List NodeId} (hrole : n.isSuperpeer = true)
    (h : (promoteOnePeer target n).Follows log () n')
    (hoffered : log.filterMap Occurrence.offered? = before ++ c :: later) :
    nextCandidate n.ring.peers.toList before target = some c := by
  obtain ⟨series, m, first, rest, rfl, htry, hrest⟩ :=
    Task.follows_bind.mp (Task.follows_node_bind.mp h)
  have hnone : rest.filterMap Occurrence.offered? = [] := by
    cases series with
    | settled => rw [(Task.follows_pure.mp hrest).1, List.filterMap_nil]
    | exhausted =>
      exact offered_eq_nil
        (within_delegatePromotion (fun _ _ _ _ => trivial) (fun _ _ => by rfl) (fun _ => by rfl) 1)
          hrest
  rw [List.filterMap_append, hnone, List.append_nil] at hoffered
  exact choice_of_tryCandidates hrole htry hoffered

/-- Who is asked to be promoted, one after the other: each is chosen among the peers that were not
asked before, as long as there is one. It is the closest one below the target on the way down to
position 0, and otherwise the least. So it is the closest one below the target, unless no untried peer
is less than the target, one lies below it across position 0, and it is not the only one left. -/
theorem promotion_candidates (low target : NodeId) :
    (∀ (peers : NodeSet) (tried : List NodeId),
      (nextCandidate peers.toList tried target = none ↔ ∀ x ∈ peers, x ∈ tried) ∧
      ∀ c, nextCandidate peers.toList tried target = some c →
        (peers.without tried).Picked target c ∧
        (ClosestBelow low target (peers.without tried) c ↔
          (∃ x ∈ peers.without tried, x < target) ∨
          (∀ x ∈ peers.without tried, ¬ Below low target x) ∨
          ∀ x ∈ peers.without tried, x = c)) ∧
    ∀ (n n' : Node) (log : List Occurrence), n.isSuperpeer = true →
      (promoteOnePeer target n).Follows log () n' → ∀ tried c later,
      log.filterMap Occurrence.offered? = tried ++ c :: later →
      nextCandidate n.ring.peers.toList tried target = some c := by
  constructor
  · refine fun peers tried => ⟨nextCandidate_none_iff, fun c hc => ?_⟩
    have hpicked := picked_of_nextCandidate hc
    refine ⟨hpicked, ?_⟩
    by_cases hless : ∃ x ∈ peers.without tried, x < target
    · obtain ⟨x, hx, hlt⟩ := hless
      exact iff_of_true (hpicked.closestBelow_of_lt hx hlt) (.inl ⟨x, hx, hlt⟩)
    · rw [or_iff_right hless]
      push Not at hless
      exact hpicked.closestBelow_iff_of_ge fun x hx => not_lt.mp (hless x hx)
  · intro n n' log hrole h tried c later hoffered
    exact choice_of_promoteOnePeer hrole h hoffered

/-- A superpeer at 100 whose range begins at 65000, with peers on both sides of position 0. -/
def ownerAcrossZero : Node :=
  (Node.complete (.ofList [⟨100⟩, ⟨65000⟩]) (Overlay.twoAttempts ⟨100⟩ .superpeer)).mapRing
    (·.insertPeers [⟨50⟩, ⟨65100⟩])

/-- Below 20 there is 65100, on the other side of position 0. The peer 50 is promoted. -/
theorem promotion_candidates_acrossZero :
    ∃ n', (promoteOnePeer ⟨20⟩ ownerAcrossZero).Follows
        [.asked .draw (0 : Nat),
          .asked (.call ⟨50⟩ (.promotePeer (offer ⟨50⟩ ownerAcrossZero) ⟨65100⟩))
            (.ok (.promotionResult true)),
          .asked (.send ⟨65000⟩ (.notifyAboutNewSuccessor ⟨50⟩)) (.ok ())] () n' ∧
      nextCandidate ownerAcrossZero.ring.peers.toList [] ⟨20⟩ = some ⟨50⟩ ∧
      ¬ ClosestBelow ⟨65000⟩ ⟨20⟩ (ownerAcrossZero.ring.peers.without []) ⟨50⟩ := by
  have hrun : (promoteOnePeer ⟨20⟩ ownerAcrossZero).Follows
      [.asked .draw (0 : Nat),
        .asked (.call ⟨50⟩ (.promotePeer (offer ⟨50⟩ ownerAcrossZero) ⟨65100⟩))
          (.ok (.promotionResult true)),
        .asked (.send ⟨65000⟩ (.notifyAboutNewSuccessor ⟨50⟩)) (.ok ())] () _ :=
    .wait _ (.wait _ (.wait _ .done))
  obtain ⟨hchoice, hasked⟩ := promotion_candidates ⟨65000⟩ ⟨20⟩
  have hc := hasked _ _ _ rfl hrun [] ⟨50⟩ [] rfl
  refine ⟨_, hrun, hc, fun hright => ?_⟩
  rcases ((hchoice _ _).2 _ hc).2.mp hright with ⟨x, hx, hless⟩ | hnone | hall
  · revert x
    decide
  · exact hnone ⟨65100⟩ (by decide) (by decide)
  · have hsame : (⟨65100⟩ : NodeId) = ⟨50⟩ := hall ⟨65100⟩ (by decide)
    cases hsame

end Protocol

end ChunkDirectory
