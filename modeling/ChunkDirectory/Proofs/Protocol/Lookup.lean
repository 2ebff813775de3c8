import ChunkDirectory.Proofs.Protocol.Mutation

/-!
# Lookups in a settled overlay

Every node finds the owner of a key (`leads_resolve`): a superpeer that owns it knows so from its
pointers, and everybody else finds it in the list. Asking the superpeer before the one found does
not change the answer. If that superpeer is the asking node itself, which its own list lacks, the
walk begins one superpeer further back, passes through the asking node and ends at the same owner.
-/

namespace ChunkDirectory

open NodeId

theorem NodeSet.Before.erase {s : NodeSet} {id x y : NodeId} (h : s.Before id x) (hne : x ≠ y) :
    (s.erase y).Before id x :=
  ⟨mem_erase.mpr ⟨h.1, hne⟩, h.2.1, fun z hz hzid => h.2.2 z (mem_erase.mp hz).1 hzid⟩

/-- Without the nearest member before `id`, the next one before `id` is the nearest one before that
member. -/
theorem NodeSet.before_of_before_erase {s : NodeSet} {id me p : NodeId} (hid : id ∈ s)
    (hme : s.Before id me) (hp : (s.erase me).Before id p) : s.Before me p := by
  obtain ⟨hmem, hne, hmin⟩ := hp
  obtain ⟨hps, hpme⟩ := mem_erase.mp hmem
  refine ⟨hps, hpme, fun y hy hyme => ?_⟩
  have hpass := clockwise_add_of_le' (hme.2.2 p hps hne)
  by_cases hyid : y = id
  · subst hyid
    have hround := clockwise_add_swap hme.2.1.symm
    have hlt := clockwise_lt p y
    omega
  · have hpass' := clockwise_add_of_le' (hme.2.2 y hy hyid)
    have hle := hmin y (mem_erase.mpr ⟨hy, hyme⟩) hyid
    omega

namespace Ring

variable {r : Ring} {id : NodeId}

theorem not_admits_me (r : Ring) : r.admits r.me = false := by
  simp [admits]

/-- An identifier that may not be listed is not listed. -/
theorem insertSuperpeer_of_not_admits (h : r.admits id = false) : r.insertSuperpeer id = r := by
  rw [insertSuperpeer, h]
  rfl

end Ring

namespace Overlay

variable {ρ : Type} {s : NodeSet} {o : Overlay ρ} {id sender contact owner key : NodeId} {n : Node}

/-- A question is answered from the state of whoever gets it. -/
theorem Does.question {message : Message} {f : Node → Message} (hn : o.node? id = some n)
    (hf : Protocol.handleMessage sender message = (Task.node >>= fun n => return f n)) :
    Does o id (Protocol.handleMessage sender message) (f n) o [] := by
  rw [hf]
  exact Does.node_bind hn (Does.pure hn)

namespace Settled

/-- Asked about its successor, a superpeer names the nearest one after it. -/
theorem does_askAboutSuccessor {next : NodeId} (h : o.Settled s) (hn : o.node? id = some n)
    (hcontact : contact ∈ s) (hnext : s.After contact next) :
    Does o id (Task.call contact .askAboutSuccessor) (.ok (.successorIs (some next))) o
      [.called id contact .askAboutSuccessor (.ok (.successorIs (some next)))] := by
  obtain ⟨n', hn', hrole⟩ := h.exists_superpeer hcontact
  have hme : n'.ring.me = contact := h.me hn'
  have hsuccessor : n'.ring.successor = some next := by
    rw [(h.exact contact n' hn' hcontact).successor, hme]
    exact hnext
  have hanswer : n'.successorAnswer = .successorIs (some next) := by
    rw [Node.successorAnswer, hrole, if_pos rfl, hsuccessor]
  have hask :
      Does o contact (Protocol.handleMessage id .askAboutSuccessor) n'.successorAnswer o [] :=
    Does.question hn' rfl
  rw [hanswer] at hask
  exact Does.call h.toCalm hn hask hn

/-- A superpeer answers to a sign of life. -/
theorem does_ping (h : o.Settled s) (hn : o.node? id = some n) (hcontact : contact ∈ s) :
    Does o id (Task.call contact .pingSuperpeer) (.ok .ack) o
      [.called id contact .pingSuperpeer (.ok .ack)] := by
  obtain ⟨n', hn', -⟩ := h.exists_superpeer hcontact
  exact Does.call h.toCalm hn (Does.question (f := fun _ => .ack) hn' rfl) hn

/-- A superpeer does not list itself. -/
theorem not_mem_superpeers (h : o.Settled s) (hn : o.node? id = some n) (hid : id ∈ s) :
    id ∉ n.ring.superpeers := by
  have hme : n.ring.me = id := h.me hn
  rw [(h.exact id n hn hid).superpeers, hme]
  exact fun hmem => (NodeSet.mem_erase.mp hmem).2 rfl

/-- The superpeer before the one found confirms it. -/
theorem leads_verifyOwner_of_before {found predecessor : NodeId} (h : o.Settled s)
    (hn : o.node? id = some n) (hfound : found ∈ s) (hbefore : s.Before found predecessor)
    (rounds : Nat) : Leads o id (Protocol.verifyOwner key found predecessor rounds) found o := by
  cases rounds with
  | zero => exact Leads.pure hn
  | succ rounds =>
    have hask := h.does_askAboutSuccessor hn hbefore.1 (hbefore.after hfound)
    unfold Protocol.verifyOwner
    refine (Leads.of_does hask).bind ?_
    simp only [if_true]
    exact Leads.pure hn

/-- A superpeer that is itself the one before the one found starts further back, and ends there
again. -/
theorem leads_verifyOwner_past_self {found predecessor : NodeId} (h : o.Settled s)
    (hn : o.node? id = some n) (hid : id ∈ s) (hfound : found ∈ s) (hme : s.Before found id)
    (hbefore : (s.erase id).Before found predecessor) (hown : ¬ s.Owns key id) (rounds : Nat) :
    Leads o id (Protocol.verifyOwner key found predecessor rounds) found o := by
  cases rounds with
  | zero => exact Leads.pure hn
  | succ rounds =>
    have hback := NodeSet.before_of_before_erase hfound hme hbefore
    have hask := h.does_askAboutSuccessor hn hback.1 (hback.after hid)
    have hlisted : n.ring.superpeers.contains id = false :=
      decide_eq_false (h.not_mem_superpeers hn hid)
    have houtside : Arc.contains ⟨predecessor, id, .upperClosed⟩ key = false := by
      rw [← Bool.not_eq_true, Arc.mem_upperClosed_iff hback.2.1,
        ← NodeSet.owns_iff_of_before hid hback]
      exact hown
    have hsame : (n.mapRing fun r => r.insertSuperpeer id) = n := by
      rw [Node.mapRing, Ring.insertSuperpeer_of_not_admits
        (by rw [← h.me hn]; exact n.ring.not_admits_me)]
    have hrest : Leads o id (Protocol.verifyOwner key found id rounds) found o :=
      h.leads_verifyOwner_of_before hn hfound hme rounds
    unfold Protocol.verifyOwner
    refine (Leads.of_does hask).bind ?_
    simp only [hme.2.1, if_false]
    apply Leads.node_bind hn
    simp only [hlisted]
    refine (Leads.of_does (h.does_ping hn hid)).bind ?_
    refine (Leads.pure hn).bind ?_
    simp only [Except.isOk, Except.toBool, if_true]
    apply Leads.modify_bind hn
    rw [hsame, put_of_node? hn]
    simp only [houtside]
    exact hrest

/-- Every node finds the owner of a key, and is none the wiser afterwards. -/
theorem leads_resolve (h : o.Settled s) (hn : o.node? id = some n) (hown : s.Owns key owner)
    (verify : Bool) : Leads o id (Protocol.resolve key verify) (some owner) o := by
  have hme : n.ring.me = id := h.me hn
  unfold Protocol.resolve
  apply Leads.node_bind hn
  by_cases hprimary : n.isPrimaryFor key = true
  · have howner := (h.isPrimaryFor_iff hn key).mp hprimary
    have heq : id = owner := howner.unique hown
    subst heq
    rw [if_pos hprimary, h.me hn]
    exact Leads.pure hn
  rw [if_neg hprimary]
  have hnot : ¬ s.Owns key id := fun howner => hprimary ((h.isPrimaryFor_iff hn key).mpr howner)
  have hfound : n.ring.responsible key = some owner := by
    by_cases hid : id ∈ s
    · exact ((h.exact id n hn hid).responsible (by rw [hme]; exact hnot)).mpr hown
    · rw [Ring.responsible_eq_some_iff, h.lists id n hn hid]
      exact hown
  rw [hfound]
  cases verify with
  | false => exact Leads.pure hn
  | true =>
    simp only [if_true]
    cases hprevious : n.ring.previousBefore owner with
    | none => exact Leads.pure hn
    | some predecessor =>
      have hbefore := Ring.previousBefore_eq_some_iff.mp hprevious
      have hwalk : Leads o id
          (Protocol.verifyOwner key owner predecessor n.ring.superpeers.size) owner o := by
        by_cases hid : id ∈ s
        · have howner : id ≠ owner := fun heq => hnot (heq ▸ hown)
          rw [(h.exact id n hn hid).superpeers, hme] at hbefore
          obtain ⟨p, hp⟩ := NodeSet.exists_before hid howner
          by_cases hpid : p = id
          · subst hpid
            exact h.leads_verifyOwner_past_self hn hid hown.1 hp hbefore hnot _
          · have hsame : predecessor = p := hbefore.unique (hp.erase hpid)
            subst hsame
            exact h.leads_verifyOwner_of_before hn hown.1 hp _
        · rw [h.lists id n hn hid] at hbefore
          exact h.leads_verifyOwner_of_before hn hown.1 hbefore _
      exact hwalk.map hn

/-! ## Questions to the owner -/

theorem lookup_of_owns {chunk : ChunkId} (h : o.Settled s) (hn : o.node? owner = some n)
    (hown : s.Owns chunk.creator owner) :
    n.lookup chunk =
      .lookupResult ((o.read owner (.tree chunk.creator)).bind (·.locate chunk)) := by
  have hprimary := (h.isPrimaryFor_iff hn chunk.creator).mpr hown
  obtain ⟨d, hd⟩ := Node.exists_directory ((h.superpeer_iff owner n hn).mpr hown.1)
  rw [read_of_node? hn, Node.read_of_directory? hd, Node.lookup, hd]
  simp only [Directory.read, hprimary, if_true]
  cases d.trees.get? chunk.creator <;> rfl

theorem backupRanges_of_owns {creator : NodeId} (h : o.Settled s) (hn : o.node? owner = some n)
    (hown : s.Owns creator owner) :
    n.backupRanges creator = .backupRanges ((o.read owner (.tree creator)).map (·.ranges)) := by
  have hprimary := (h.isPrimaryFor_iff hn creator).mpr hown
  obtain ⟨d, hd⟩ := Node.exists_directory ((h.superpeer_iff owner n hn).mpr hown.1)
  rw [read_of_node? hn, Node.read_of_directory? hd, Node.backupRanges, hd]
  simp only [Directory.read, hprimary, if_true]
  cases d.trees.get? creator <;> rfl

theorem chunkOf_of_owns {app : ApplicationId} (h : o.Settled s) (hn : o.node? owner = some n)
    (hown : s.Owns app.position owner) :
    n.chunkOf app = .chunkIdResult (o.read owner (.mapping app)) := by
  have hprimary := (h.isPrimaryFor_iff hn app.position).mpr hown
  obtain ⟨d, hd⟩ := Node.exists_directory ((h.superpeer_iff owner n hn).mpr hown.1)
  rw [read_of_node? hn, Node.read_of_directory? hd, Node.chunkOf, hd]
  simp only [Directory.read, hprimary, if_true]
  cases d.mappings.get? app <;> rfl

end Settled

end Overlay

end ChunkDirectory
