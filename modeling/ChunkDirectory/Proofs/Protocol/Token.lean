import ChunkDirectory.Proofs.Protocol.Deeds

/-!
# The token of a promotion

Each step of a promotion keeps the token until the candidate has answered that it is promoted, and
passing the job on keeps it until a superpeer was reached. So the series of attempts of a superpeer,
and the attempt of one that a job was passed on to, spend the token at most once
(`carries_promoteOnePeer`, `carries_delegatedPromotion`), and they have come to at most one deed
(`Progress.Carries.sound`).
-/

namespace ChunkDirectory

open Protocol

namespace Task

variable {hops : UInt16} {token : Bool} {n : Node}

theorem carries_choose {α : Type} (l : List α) (n : Node) :
    (Task.choose l n).Carries hops (fun now _ => now = token) token := by
  cases l with
  | nil => rfl
  | cons a rest => exact .keep trivial (fun _ => rfl) fun _ _ => rfl

theorem carries_shuffle {α : Type} (l : List α) (n : Node) :
    (Task.shuffle l n).Carries hops (fun now _ => now = token) token := by
  unfold Task.shuffle
  split
  case isTrue => rfl
  case isFalse => exact .keep trivial (fun _ => rfl) fun _ _ => rfl

end Task

namespace Protocol

variable {hops : UInt16} {token : Bool}

/-! ## The acting side -/

theorem carries_searchReplacement (candidate : NodeId) (superpeers : List NodeId) (tries : Nat)
    (n : Node) :
    (searchReplacement candidate superpeers tries n).Carries hops (fun now _ => now = token)
      token := by
  induction tries generalizing n with
  | zero => rfl
  | succ tries ih =>
    refine (Task.carries_choose superpeers n).bind ?_
    rintro _ found n rfl
    cases found with
    | none => rfl
    | some contact =>
      refine .keep (.inl rfl) (fun _ => rfl) fun reply n' => ?_
      cases reply with
      | error e => exact ih _
      | ok reply =>
        cases reply with
        | foundPeer peer =>
          cases peer with
          | none => exact ih n'
          | some peer =>
            show ((if peer ≠ candidate then _ else _ : Task _) n').Carries _ _ _
            split
            · rfl
            · exact ih n'
        | _ => exact ih n'

theorem carries_findReplacement (candidate : NodeId) (safe : Bool) (n : Node) :
    (findReplacement candidate safe n).Carries hops (fun now _ => now = token) token := by
  show Progress.Carries _ _ _ (Progress.bind (Task.choose _ n) _)
  refine (Task.carries_choose _ n).bind ?_
  rintro _ found n rfl
  cases found with
  | some peer => rfl
  | none =>
    cases safe with
    | false => rfl
    | true => exact carries_searchReplacement candidate _ _ n

theorem carries_tell (candidate : NodeId) (old : Option NodeId) (n : Node) :
    (tell candidate old n).Carries hops (fun now result => result = .ok () ∧ now = token)
      token := by
  cases old with
  | none => exact ⟨rfl, rfl⟩
  | some old =>
    refine .keep (.inl ⟨candidate, rfl⟩) (fun _ => rfl) fun sent n' => ?_
    cases sent with
    | ok => exact ⟨rfl, rfl⟩
    | error e => exact ⟨rfl, rfl⟩

/-- A promotion that fails keeps the token, and one that succeeds has spent it. -/
theorem carries_promoteWith (candidate replacement : NodeId) (n : Node) :
    (promoteWith candidate replacement n).Carries hops
      (fun now result => now = true ↔ ∃ error, result = .error error) true := by
  refine ⟨.inr (.inl ⟨_, _, rfl⟩), fun reply n' => ⟨fun _ => rfl, ?_⟩⟩
  cases reply with
  | error e => exact iff_of_true rfl ⟨_, rfl⟩
  | ok reply =>
    cases reply with
    | promotionResult accepted =>
      cases accepted with
      | false => exact iff_of_true rfl ⟨_, rfl⟩
      | true =>
        refine Progress.Carries.mono (carries_tell candidate _ _) ?_
        rintro _ _ ⟨rfl, rfl⟩
        exact iff_of_false Bool.false_ne_true fun ⟨error, h⟩ => by cases h
    | _ => exact iff_of_true rfl ⟨_, rfl⟩

theorem carries_promote (candidate : NodeId) (safe : Bool) (n : Node) :
    (promote candidate safe n).Carries hops
      (fun now result => now = true ↔ ∃ error, result = .error error) true := by
  show ((if !n.isSuperpeer then _ else if n.promoting then _ else _ : Task _) n).Carries _ _ _
  split
  case isTrue => exact iff_of_true rfl ⟨_, rfl⟩
  split
  case isTrue => exact iff_of_true rfl ⟨_, rfl⟩
  refine (carries_findReplacement candidate safe _).bind ?_
  rintro _ found n rfl
  cases found with
  | none => exact iff_of_true rfl ⟨_, rfl⟩
  | some replacement => exact (carries_promoteWith candidate replacement n).bind fun _ _ _ h => h

/-- A series of attempts that is exhausted keeps the token. -/
theorem carries_tryCandidates (target : NodeId) (attempts : Nat) (tried : List NodeId) (n : Node) :
    (tryCandidates target attempts tried n).Carries hops
      (fun now series => series = .exhausted → now = true) true := by
  induction attempts generalizing tried n with
  | zero => exact fun _ => rfl
  | succ attempts ih =>
    refine Progress.Carries.node_bind ?_
    cases nextCandidate n.ring.peers.toList tried target with
    | none => exact fun _ => rfl
    | some candidate =>
      refine (carries_promote candidate true n).bind fun now result n' hresult => ?_
      cases result with
      | ok => exact fun h => by cases h
      | error error =>
        obtain rfl := hresult.mpr ⟨error, rfl⟩
        cases error with
        | busy => exact fun h => by cases h
        | noReplacement => exact fun _ => rfl
        | rejected => exact ih _ n'
        | peerUnavailable => exact ih _ n'

theorem carries_delegateTo (hops : UInt16) (contacts : List NodeId) (n : Node) :
    (delegateTo hops contacts n).Carries hops (fun _ _ => True) true := by
  induction contacts generalizing n with
  | nil => trivial
  | cons contact rest ih =>
    refine ⟨.inr rfl, fun sent n' => ⟨fun _ => rfl, ?_⟩⟩
    cases sent with
    | ok => trivial
    | error e => exact ih _

theorem carries_delegatePromotion (hops : UInt16) (n : Node) :
    (delegatePromotion hops n).Carries hops (fun _ _ => True) true := by
  show Progress.Carries _ _ _ (Progress.bind (Task.shuffle _ n) _)
  refine (Task.carries_shuffle _ n).bind ?_
  rintro _ contacts n rfl
  exact carries_delegateTo hops contacts n

/-- The one who begins passes the job on with one hop. -/
theorem carries_promoteOnePeer (target : NodeId) (n : Node) :
    (promoteOnePeer target n).Carries 1 (fun _ _ => True) true := by
  refine (carries_tryCandidates target _ [] n).bind fun now series n' hseries => ?_
  cases series with
  | settled => trivial
  | exhausted =>
    rw [hseries rfl]
    exact carries_delegatePromotion 1 n'

/-- What is done with the candidate that was drawn. -/
theorem carries_promoteDrawn (hops : UInt16) (candidate : Option NodeId) (n : Node) :
    ((do
      match candidate with
      | none => delegatePromotion hops
      | some candidate =>
        match ← promote candidate false with
        | .ok () => return ()
        | .error .busy => return ()
        | .error _ => delegatePromotion hops : Task Unit) n).Carries hops (fun _ _ => True)
      true := by
  cases candidate with
  | none => exact carries_delegatePromotion _ n
  | some candidate =>
    refine (carries_promote candidate false n).bind fun now result n' hresult => ?_
    cases result with
    | ok => trivial
    | error error =>
      obtain rfl := hresult.mpr ⟨error, rfl⟩
      cases error with
      | busy => trivial
      | noReplacement => exact carries_delegatePromotion _ n'
      | rejected => exact carries_delegatePromotion _ n'
      | peerUnavailable => exact carries_delegatePromotion _ n'

/-- One that a job was passed on to passes it on with one hop more. -/
theorem carries_delegatedPromotion (hops : UInt16) (n : Node) :
    (delegatedPromotion hops n).Carries (nextHop hops) (fun _ _ => True) true := by
  show ((if 2 * max n.ring.superpeers.size 1 ≤ hops.toNat then _
    else if 1 < n.ring.peers.toList.length then _ else _ : Task _) n).Carries _ _ _
  split
  case isTrue => trivial
  split
  case isTrue =>
    refine (Task.carries_choose _ n).bind ?_
    rintro _ candidate n rfl
    exact carries_promoteDrawn _ candidate n
  case isFalse => exact carries_promoteDrawn _ none n

/-- A job that has been passed on often enough for what this node knows is dropped. -/
theorem delegatedPromotion_of_limit {n : Node}
    (h : 2 * max n.ring.superpeers.size 1 ≤ hops.toNat) :
    delegatedPromotion hops n = .done () n := by
  show (if 2 * max n.ring.superpeers.size 1 ≤ hops.toNat then _ else _ : Task Unit) n = _
  rw [if_pos h]
  rfl

/-! ## The other sides -/

theorem carries_copyTo {owner restorer : NodeId} (backups : List NodeId) (n : Node) :
    (copyTo (.updateAll owner restorer true) backups n).Carries hops (fun now _ => now = token)
      token := by
  induction backups generalizing n with
  | nil => rfl
  | cons b rest ih =>
    refine .keep (.inr (.inr ⟨owner, restorer, rfl⟩)) (fun _ => rfl) fun reply n' => ?_
    cases reply with
    | ok => exact ih n'
    | error e => exact .keep ⟨b, rfl⟩ (fun _ => rfl) fun _ n'' => ih n''

theorem carries_mutate (owner restorer : NodeId) (isBackup : Bool) (n : Node) :
    (mutate (.updateAll owner restorer) isBackup n).Carries hops (fun now _ => now = token)
      token := by
  cases hd : n.directory? with
  | none =>
    rw [mutate_of_peer _ _ (by rw [Node.isSuperpeer, hd]; rfl)]
    rfl
  | some d =>
    rw [mutate_of_superpeer _ _ hd]
    split
    case isTrue => rfl
    split
    case isTrue =>
      split
      case isTrue =>
        refine (carries_copyTo _ _).bind ?_
        rintro _ ⟨⟩ n rfl
        rfl
      case isFalse => rfl
    case isFalse => rfl

/-- A candidate that answers that it is promoted has spent the token, with any other answer it has
not. -/
theorem carries_handlePromotePeer (snapshot : Snapshot) (replacement : NodeId) (n : Node) :
    (handlePromotePeer snapshot replacement n).Carries hops
      (fun now reply => now = true ↔ reply ≠ .promotionResult true) true := by
  have hdenied : true = true ↔ Message.promotionResult false ≠ .promotionResult true := by simp
  have haccepted : false = true ↔ Message.promotionResult true ≠ .promotionResult true := by simp
  cases hrole : n.isSuperpeer with
  | true =>
    show ((if n.isSuperpeer then _ else _ : Task Message) n).Carries _ _ _
    rw [hrole]
    exact hdenied
  | false =>
    rw [handlePromotePeer_eq snapshot replacement hrole]
    refine ⟨trivial, fun moved n' => ⟨fun _ => rfl, ?_⟩⟩
    cases moved with
    | false => exact hdenied
    | true =>
      refine (carries_mutate n.me replacement false n').bind ?_
      rintro _ status n' rfl
      exact .keep trivial (fun _ => rfl) fun _ _ => haccepted

/-- The other messages that a holder of the token sends are handled without it. -/
theorem carries_handleMessage {message : Message}
    (h : message = .searchForPeer ∨ (∃ node, message = .notifyAboutNewSuccessor node) ∨
      ∃ owner restorer, message = .updateAll owner restorer true) (sender : NodeId) (n : Node) :
    (handleMessage sender message n).Carries hops (fun _ _ => True) false := by
  rcases h with rfl | ⟨node, rfl⟩ | ⟨owner, restorer, rfl⟩
  · exact (Task.carries_choose _ n).bind fun _ _ _ _ => trivial
  · trivial
  · refine (carries_mutate owner restorer true n).bind fun _ _ _ _ => trivial

/-- To handle the job is to start work on it. -/
theorem deeds_of_delegatePromotePeer {id sender : NodeId} {n : Node} {deeds : List Deed}
    {reply : Option Message}
    (h : (handleMessage sender (.delegatePromotePeer hops) n).Causes id deeds reply) :
    deeds = [] ∨ deeds = [.started id hops] := by
  have hhandle : handleMessage sender (.delegatePromotePeer hops) n =
      .wait n (.spawn (.promoteForOther hops)) fun _ n' => .done .ack n' := rfl
  rw [hhandle] at h
  cases h with
  | underWay => exact .inl rfl
  | lost sent => cases sent
  | handling sent => cases sent
  | handled sent => cases sent
  | answered _ _ hrest =>
    cases hrest with
    | underWay => exact .inr rfl
    | done => exact .inr rfl

end Protocol

/-! ## Spending the token -/

/-- What has come of a token that is spent. -/
inductive Spent (hops : UInt16) : List Deed → Prop
  | promoted (node : NodeId) : Spent hops [.promoted node]
  | delegated (contact : NodeId) : Spent hops [.delegated contact hops]
  | started (contact : NodeId) : Spent hops [.delegated contact hops, .started contact hops]

/-- What has come of a token that was held or not, and the result goes with whether it is left. -/
def Balanced {α : Type} (hops : UInt16) (ends : Bool → α → Prop) (token : Bool)
    (deeds : List Deed) (result : Option α) : Prop :=
  (deeds = [] ∧ ∀ a, result = some a → ends token a) ∨
    (token = true ∧ Spent hops deeds ∧ ∀ a, result = some a → ends false a)

variable {hops : UInt16} {r : Request} {d : Delivery r} {id : NodeId} {deeds : List Deed}

theorem Request.spends_lost (h : r.delivery? = some d) (e : NetError) :
    r.spends (d.outcome (.error e)) = false := by
  cases r with
  | call target message =>
    cases h
    cases message <;> rfl
  | send target message =>
    cases h
    cases message <;> rfl
  | _ => cases h

theorem Request.spends_promotePeer {target replacement : NodeId} {snapshot : Snapshot}
    {reply : Message} :
    Request.spends (.call target (.promotePeer snapshot replacement)) (.ok reply) = true ↔
      reply = .promotionResult true := by
  constructor
  · intro h
    cases reply with
    | promotionResult accepted =>
      cases accepted with
      | true => rfl
      | false => cases h
    | _ => cases h
  · rintro rfl
    rfl

/-- What comes of a permitted message once it is delivered, and whether the reply says so. -/
theorem Delivery.balanced {n : Node} {reply : Option Message} (hd : r.delivery? = some d)
    (hr : r.Permitted hops)
    (hcauses : (Protocol.handleMessage id d.message n).Causes d.target deeds reply)
    (hsound : ∀ ends token, (Protocol.handleMessage id d.message n).Carries hops ends token →
      Balanced hops ends token deeds reply) :
    (d.deeds ++ deeds = [] ∧ ∀ a, reply = some a → r.spends (d.outcome (.ok a)) = false) ∨
      ((∃ x, r.spends x = true) ∧ Spent hops (d.deeds ++ deeds) ∧
        ∀ a, reply = some a → r.spends (d.outcome (.ok a)) = true) := by
  have hquiet (h : d.message = .searchForPeer ∨ (∃ node, d.message = .notifyAboutNewSuccessor node) ∨
      ∃ owner restorer, d.message = .updateAll owner restorer true) : deeds = [] := by
    rcases hsound _ _ (carries_handleMessage h id n) with ⟨hnone, -⟩ | ⟨htoken, -⟩
    · exact hnone
    · cases htoken
  cases r with
  | call target message =>
    cases hd
    rcases hr with rfl | ⟨snapshot, replacement, rfl⟩ | ⟨owner, restorer, rfl⟩
    · exact .inl ⟨hquiet (.inl rfl), fun _ _ => rfl⟩
    · rcases hsound _ _ (carries_handlePromotePeer snapshot replacement n) with
        ⟨hnone, hends⟩ | ⟨-, hspent, hends⟩
      · refine .inl ⟨hnone, fun reply hreply => ?_⟩
        rw [← Bool.not_eq_true]
        exact fun hspends =>
          (hends reply hreply).mp rfl (Request.spends_promotePeer.mp hspends)
      · refine .inr ⟨⟨.ok (.promotionResult true), rfl⟩, hspent, fun reply hreply => ?_⟩
        have haccepted : reply = .promotionResult true := by
          by_contra hne
          cases (hends reply hreply).mpr hne
        exact Request.spends_promotePeer.mpr haccepted
    · exact .inl ⟨hquiet (.inr (.inr ⟨owner, restorer, rfl⟩)), fun _ _ => rfl⟩
  | send target message =>
    cases hd
    rcases hr with ⟨node, rfl⟩ | rfl
    · exact .inl ⟨hquiet (.inr (.inl ⟨node, rfl⟩)), fun _ _ => rfl⟩
    · refine .inr ⟨⟨.ok (), rfl⟩, ?_, fun _ _ => rfl⟩
      rcases deeds_of_delegatePromotePeer hcauses with rfl | rfl
      · exact .delegated target
      · exact .started target
  | _ => cases hd

/-- What comes of a request that sends nothing. -/
theorem Request.deeds_of_permitted (hr : r.Permitted hops) (hquiet : r.delivery? = none)
    (x : r.Answer) :
    (r.deeds id x = [] ∧ r.spends x = false) ∨ (Spent hops (r.deeds id x) ∧ r.spends x = true) := by
  cases r with
  | call => cases hquiet
  | send => cases hquiet
  | handOver target =>
    cases x with
    | true => exact .inr ⟨.promoted id, rfl⟩
    | false => exact .inl ⟨rfl, rfl⟩
  | spawn work =>
    obtain ⟨failed, rfl⟩ := hr
    exact .inl ⟨rfl, rfl⟩
  | _ => exact .inl ⟨rfl, rfl⟩

/-- Without the token nothing comes of what is left of a task, and with it at most one deed. -/
theorem Progress.Carries.sound {α : Type} {ends : Bool → α → Prop} {token : Bool} {p : Progress α}
    {result : Option α} (h : p.Carries hops ends token) (hcauses : p.Causes id deeds result) :
    Balanced hops ends token deeds result := by
  induction hcauses generalizing token with
  | underWay => exact .inl ⟨rfl, fun a ha => by cases ha⟩
  | done =>
    refine .inl ⟨rfl, fun a ha => ?_⟩
    cases ha
    exact h
  | lost sent e _ ih => exact ih (h.kept (Request.spends_lost sent e) _)
  | handling sent hhandler ih =>
    rcases Delivery.balanced sent h.1 hhandler fun _ _ => ih with ⟨hnone, -⟩ | ⟨⟨x, hx⟩, hspent, -⟩
    · exact .inl ⟨hnone, fun a ha => by cases ha⟩
    · exact .inr ⟨h.held hx, hspent, fun a ha => by cases ha⟩
  | handled sent hhandler _ ih ihrest =>
    rcases Delivery.balanced sent h.1 hhandler fun _ _ => ih with
      ⟨hnone, hspends⟩ | ⟨-, hspent, hspends⟩
    · rw [hnone]
      exact ihrest (h.kept (hspends _ rfl) _)
    · rcases ihrest (h.spent (hspends _ rfl) _) with ⟨rfl, hends⟩ | ⟨hfalse, -⟩
      · rw [List.append_nil]
        exact .inr ⟨h.held (hspends _ rfl), hspent, hends⟩
      · cases hfalse
  | answered quiet x _ ih =>
    rcases Request.deeds_of_permitted h.1 quiet x with ⟨hnone, hspends⟩ | ⟨hspent, hspends⟩
    · rw [hnone]
      exact ih (h.kept hspends _)
    · rcases ih (h.spent hspends _) with ⟨rfl, hends⟩ | ⟨hfalse, -⟩
      · rw [List.append_nil]
        exact .inr ⟨h.held hspends, hspent, hends⟩
      · cases hfalse
  | entered => exact h.elim

end ChunkDirectory
