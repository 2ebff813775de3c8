import ChunkDirectory.Proofs.Concurrency.Seeking

/-!
# The course of an admission

An admission goes through stages (`Machine.Joining`): the newcomer asks one superpeer after the
other, the owner of its position takes a snapshot and splits its range, the superpeer before is
told, and the newcomer installs the snapshot over what it holds by then. The owner's snapshot and
its split are one segment; the newcomer takes requests all the time.
-/

namespace ChunkDirectory

open Protocol

namespace Machine

variable {s ps : NodeSet} {owner new : NodeId} {nodes₀ nodes : NodeId → Node}
  {σ : Machine} {t : Thread} {trace before during after : List Segment} {snapshot : Snapshot}

/-- The newcomer is a superpeer that knows nobody but its bootstrap superpeer, and holds what it
applied. -/
structure Outside (s : NodeSet) (new : NodeId) (nodes₀ nodes : NodeId → Node)
    (trace : List Segment) : Prop where
  role : (nodes new).isSuperpeer = true
  isEmpty : (nodes new).ring.superpeers.isEmpty = true
  bootstrap : (nodes new).ring.bootstrap ∈ s
  read : ∀ slot, (nodes new).read slot = held new nodes₀ trace slot

/-- The newcomer waits for the answer of a superpeer it asked. -/
structure Awaits (s : NodeSet) (k : Except NetError Message → Task Message) : Prop where
  redirected : ∀ y ∈ s, ∀ next, (k (.ok (.joinRedirect y)) next).Seeks s next
  accepted : ∀ snapshot next, ∃ k', k (.ok (.joinAccepted snapshot)) next =
    .wait (next.install snapshot) .startWorker k' ∧
      ∀ next', Replies (fun _ => True) next' (k' () next')

/-- The owner has taken a snapshot and split its range at the beginning of `during`, and the
newcomer does not know it yet. -/
structure Welcomed (s ps : NodeSet) (owner new : NodeId) (nodes₀ : NodeId → Node)
    (before during : List Segment) (snapshot : Snapshot) (nodes : NodeId → Node)
    (trace : List Segment) : Prop where
  split : trace = before ++ during
  welcome : ∃ g rest, during = g :: rest ∧ g.IsWelcome owner new
  plain : ∀ g ∈ trace, g.cue.isPlain = true
  divided : Divided s ps owner new during nodes
  outside : Outside s new nodes₀ nodes trace
  places : ∃ p, Node.Places s ps owner new p snapshot
  carries : ∀ slot, (s.insert new).Owns slot.position new →
    snapshot.Carries slot (held owner nodes₀ before slot)

/-- The newcomer has taken its place at the beginning of `after`. -/
structure Installed (s ps : NodeSet) (owner new : NodeId) (nodes₀ : NodeId → Node)
    (before during after : List Segment) (nodes : NodeId → Node) (trace : List Segment) : Prop where
  split : trace = before ++ during ++ after
  welcome : ∃ g rest, during = g :: rest ∧ g.IsWelcome owner new
  installation : ∃ g rest, after = g :: rest ∧ g.IsInstallation new
  divided : Divided s ps owner new (during ++ after) nodes
  took : Took (s.insert new) new
    (fun slot => (held owner nodes₀ before slot).or (held new nodes₀ (before ++ during) slot))
    after (nodes new)

/-! ## What the threads do next -/

section

variable {S u : NodeSet} {contact : NodeId} {n : Node}
  {k : Except NetError Message → Task Message}

/-- A superpeer that sees the ring `u` and does not own the newcomer's position there sends it on to
another member. -/
theorem next_redirected (hrole : (σ.nodes contact).isSuperpeer = true)
    (hme : (σ.nodes contact).me = contact) (hne : new ≠ contact)
    (hformed : (σ.nodes contact).ring.Formed u ps) (hmember : contact ∈ u)
    (hnot : ¬ u.Owns new contact)
    (ht : t = .arrival new contact (.join new true) [⟨new, k⟩]) (x : Oracle) :
    σ.Quiet S t ∧ ∃ y ∈ u,
      σ.next t x = .inr ⟨new, .reply (.joinRedirect y), k (.ok (.joinRedirect y)), []⟩ := by
  obtain ⟨y, hwelcome, hy, -⟩ := Node.welcome_redirect hformed (hme.symm ▸ hmember)
    (hme.symm ▸ hnot) true
  have hp : handleMessage new (.join new true) (σ.nodes contact) =
      .done (.joinRedirect y) (σ.nodes contact) :=
    handleJoin_eq hrole (hme.symm ▸ hne) hwelcome
  subst ht
  refine ⟨quiet_of_message rfl ?_ (fun m hm => by cases hm), y, hy, ?_⟩
  · show (handleMessage new (.join new true) (σ.nodes contact)).state.core = _
    rw [hp]
    rfl
  · show Thread.next _ x (handleMessage new (.join new true) (σ.nodes contact)) = _
    rw [hp]
    rfl

theorem next_admissionReply_none (hcallers : t.callers = [⟨new, k⟩]) (x : Oracle) :
    t.next x (admissionReply new (.superpeer snapshot none) n) =
      .inr ⟨new, .reply (.joinAccepted snapshot), k (.ok (.joinAccepted snapshot)), []⟩ := by
  show t.next x (.done _ _) = _
  rw [Thread.next, hcallers]

theorem next_admissionReply_some (new : NodeId) (snapshot : Snapshot) (old : NodeId) (n : Node)
    (x : Oracle) :
    ∃ resume : Except NetError Message → Task Message,
      t.next x (admissionReply new (.superpeer snapshot (some old)) n) =
        .inr (notice n.me new old (⟨t.node, resume⟩ :: t.callers)) ∧
      ∀ reply, (resume (.ok reply)).Tame S (Replies (· = .joinAccepted snapshot)) :=
  ⟨_, rfl, fun _ _ => .goal ⟨_, _, rfl, rfl, rfl⟩⟩

/-- A newcomer that is given its place takes it and has nothing else to do. -/
theorem next_joinAccepted (hk : Awaits u k)
    (ht : t = ⟨new, .reply (.joinAccepted snapshot), k (.ok (.joinAccepted snapshot)), []⟩)
    (x : Oracle) :
    (t.task (σ.nodes new)).state = (σ.nodes new).install snapshot ∧
      ∃ t', σ.next t x = .inr t' ∧ Closes S new t' := by
  obtain ⟨k', hp, hends⟩ := hk.accepted snapshot (σ.nodes new)
  have hp : t.task (σ.nodes new) = .wait ((σ.nodes new).install snapshot) .startWorker k' := by
    rw [ht]
    exact hp
  have hnode : t.node = new := by rw [ht]
  refine ⟨by rw [hp]; rfl, ⟨new, .answer .startWorker (x.answer .startWorker), k' (), []⟩, ?_,
    .home rfl fun n => .goal (hends n)⟩
  rw [next, hnode, hp, ht]
  rfl

end

/-! ## Stages -/

/-- The stages of an admission. -/
inductive Joining (s ps : NodeSet) (owner new : NodeId) (nodes₀ : NodeId → Node) :
    Option Thread → (NodeId → Node) → List Segment → Prop
  | seeking {t : Thread} {nodes : NodeId → Node} {trace : List Segment} :
      t.node = new → t.callers = [] → t.cue.isSilent = true →
      (∀ n, n.isSuperpeer = true → n.ring.bootstrap ∈ s → n.me = new → (t.task n).Seeks s n) →
      Undivided s ps nodes trace → Outside s new nodes₀ nodes trace →
      Joining s ps owner new nodes₀ (some t) nodes trace
  | asking {nodes : NodeId → Node} {trace : List Segment} {contact : NodeId}
      {k : Except NetError Message → Task Message} :
      contact ∈ s → Awaits s k → Undivided s ps nodes trace → Outside s new nodes₀ nodes trace →
      Joining s ps owner new nodes₀ (some (.arrival new contact (.join new true) [⟨new, k⟩]))
        nodes trace
  | noticing {nodes : NodeId → Node} {trace before during : List Segment} {snapshot : Snapshot}
      {old : NodeId} {resume k : Except NetError Message → Task Message} :
      Welcomed s ps owner new nodes₀ before during snapshot nodes trace → s.Before owner old →
      (∀ reply, (resume (.ok reply)).Tame (s.insert new) (Replies (· = .joinAccepted snapshot))) →
      Awaits s k →
      Joining s ps owner new nodes₀ (some (notice owner new old [⟨owner, resume⟩, ⟨new, k⟩]))
        nodes trace
  | replying {t : Thread} {nodes : NodeId → Node} {trace before during : List Segment}
      {snapshot : Snapshot} {k : Except NetError Message → Task Message} :
      Welcomed s ps owner new nodes₀ before during snapshot nodes trace →
      t.Tame (s.insert new) (Replies (· = .joinAccepted snapshot)) owner [⟨new, k⟩] → Awaits s k →
      Joining s ps owner new nodes₀ (some t) nodes trace
  | accepted {nodes : NodeId → Node} {trace before during : List Segment} {snapshot : Snapshot}
      {k : Except NetError Message → Task Message} :
      Welcomed s ps owner new nodes₀ before during snapshot nodes trace → Awaits s k →
      Joining s ps owner new nodes₀
        (some ⟨new, .reply (.joinAccepted snapshot), k (.ok (.joinAccepted snapshot)), []⟩)
        nodes trace
  | installed {operation : Option Thread} {nodes : NodeId → Node}
      {trace before during after : List Segment} :
      Installed s ps owner new nodes₀ before during after nodes trace →
      (∀ t, operation = some t → Closes (s.insert new) new t) →
      Joining s ps owner new nodes₀ operation nodes trace
  | failed {nodes : NodeId → Node} {trace : List Segment} :
      Undivided s ps nodes trace → Outside s new nodes₀ nodes trace →
      Joining s ps owner new nodes₀ none nodes trace

/-- Either the newcomer has taken its place, or it has not yet been decided about, or the operation
goes on. -/
theorem Joining.installed_or {operation : Option Thread}
    (h : Joining s ps owner new nodes₀ operation nodes trace) :
    (∃ before during after, Installed s ps owner new nodes₀ before during after nodes trace) ∨
      (∀ g ∈ trace, g.cue.isPlain = true) ∧ (operation = none → Undivided s ps nodes trace) := by
  cases h with
  | seeking _ _ _ _ h => exact .inr ⟨h.plain, fun _ => h⟩
  | asking _ _ h => exact .inr ⟨h.plain, fun _ => h⟩
  | noticing h => exact .inr ⟨h.plain, fun hover => by cases hover⟩
  | replying h => exact .inr ⟨h.plain, fun hover => by cases hover⟩
  | accepted h => exact .inr ⟨h.plain, fun hover => by cases hover⟩
  | installed h => exact .inl ⟨_, _, _, h⟩
  | failed h => exact .inr ⟨h.plain, fun _ => h⟩

/-! ## Quiet steps -/

theorem Outside.advance (h : Outside s new nodes₀ σ.nodes σ.trace)
    (hevolves : (σ.nodes new).Evolves ((σ.advance t).nodes new) (appliedBy new [σ.segment t])) :
    Outside s new nodes₀ (σ.advance t).nodes (σ.advance t).trace := by
  refine ⟨hevolves.role.trans h.role, ?_, ?_, ?_⟩
  · rw [hevolves.ring]
    exact h.isEmpty
  · rw [hevolves.ring]
    exact h.bootstrap
  · intro slot
    have hread := h.read slot
    rw [held] at hread
    show _ = held new nodes₀ (σ.trace ++ [σ.segment t]) slot
    rw [held, appliedBy_append, Slot.replay_append, ← hread]
    exact hevolves.read h.role slot

theorem Welcomed.advance (h : Welcomed s ps owner new nodes₀ before during snapshot σ.nodes σ.trace)
    (hsteady : Steady s ps new nodes₀ σ.nodes σ.trace) (howner : owner ∈ s)
    (hplain : t.cue.isPlain = true)
    (hevolves : ∀ x, x = owner ∨ x = new →
      (σ.nodes x).Evolves ((σ.advance t).nodes x) (appliedBy x [σ.segment t])) :
    Welcomed s ps owner new nodes₀ before (during ++ [σ.segment t]) snapshot (σ.advance t).nodes
      (σ.advance t).trace := by
  obtain ⟨g, rest, hduring, hg⟩ := h.welcome
  refine ⟨?_, ⟨g, rest ++ [σ.segment t], ?_, hg⟩, ?_,
    h.divided.advance hsteady howner (hevolves owner (.inl rfl)),
    h.outside.advance (hevolves new (.inr rfl)), h.places, h.carries⟩
  · show σ.trace ++ [σ.segment t] = _
    rw [h.split, List.append_assoc]
  · rw [hduring]
    rfl
  · intro g hg
    rcases List.mem_append.mp hg with hg | hg
    · exact h.plain g hg
    · rw [List.mem_singleton.mp hg]
      exact hplain

theorem Installed.advance (h : Installed s ps owner new nodes₀ before during after σ.nodes σ.trace)
    (hsteady : Steady s ps new nodes₀ σ.nodes σ.trace) (howner : owner ∈ s)
    (hquiet : σ.Quiet (s.insert new) t) :
    Installed s ps owner new nodes₀ before during (after ++ [σ.segment t]) (σ.advance t).nodes
      (σ.advance t).trace := by
  obtain ⟨g, rest, hafter, hg⟩ := h.installation
  refine ⟨?_, h.welcome, ⟨g, rest ++ [σ.segment t], ?_, hg⟩, ?_,
    h.took.advance (hsteady.me new) (NodeSet.mem_insert.mpr (.inl rfl)) (hquiet.evolves new)⟩
  · show σ.trace ++ [σ.segment t] = _
    rw [h.split, List.append_assoc]
  · rw [hafter]
    rfl
  · rw [← List.append_assoc]
    exact h.divided.advance hsteady howner (hquiet.evolves owner)

/-- An admission remains at its stage while others go on quietly. -/
theorem Joining.quiet {operation : Option Thread} (he : Entrance s owner new)
    (hsteady : Steady s ps new nodes₀ σ.nodes σ.trace)
    (h : Joining s ps owner new nodes₀ operation σ.nodes σ.trace)
    (hquiet : σ.Quiet (s.insert new) t) :
    Joining s ps owner new nodes₀ operation (σ.advance t).nodes (σ.advance t).trace := by
  have howner := he.owns.1
  have hevolves := hquiet.evolves new
  have hwelcomed {before during : List Segment} {snapshot : Snapshot}
      (h : Welcomed s ps owner new nodes₀ before during snapshot σ.nodes σ.trace) :=
    h.advance hsteady howner hquiet.plain fun x _ => hquiet.evolves x
  cases h with
  | seeking hnode hcallers hcue hseeks hundivided houtside =>
    exact .seeking hnode hcallers hcue hseeks (hundivided.advance hquiet.settles)
      (houtside.advance hevolves)
  | asking hcontact hk hundivided houtside =>
    exact .asking hcontact hk (hundivided.advance hquiet.settles) (houtside.advance hevolves)
  | noticing h hold hresume hk => exact .noticing (hwelcomed h) hold hresume hk
  | replying h htame hk => exact .replying (hwelcomed h) htame hk
  | accepted h hk => exact .accepted (hwelcomed h) hk
  | installed h hcloses => exact .installed (h.advance hsteady howner hquiet) hcloses
  | failed hundivided houtside =>
    exact .failed (hundivided.advance hquiet.settles) (houtside.advance hevolves)

/-! ## Steps of the admission -/

/-- The newcomer goes on to seek admission. -/
theorem Joining.seek (he : Entrance s owner new)
    (hsteady : Steady s ps new nodes₀ σ.nodes σ.trace) (hnode : t.node = new)
    (hcallers : t.callers = []) (hcue : t.cue.isSilent = true)
    (hseeks : ∀ n, n.isSuperpeer = true → n.ring.bootstrap ∈ s → n.me = new → (t.task n).Seeks s n)
    (hundivided : Undivided s ps σ.nodes σ.trace)
    (houtside : Outside s new nodes₀ σ.nodes σ.trace) (x : Oracle) :
    σ.Continues s ps new nodes₀ (Joining s ps owner new nodes₀) t x := by
  subst hnode
  have hstate (hcore : (t.task (σ.nodes t.node)).state.core = (σ.nodes t.node).core) :
      σ.Quiet (s.insert t.node) t := quiet_of_silent hcue hcore
  have hkept (hquiet : σ.Quiet (s.insert t.node) t) :
      Steady s ps t.node nodes₀ (σ.advance t).nodes (σ.advance t).trace ∧
        Undivided s ps (σ.advance t).nodes (σ.advance t).trace ∧
        Outside s t.node nodes₀ (σ.advance t).nodes (σ.advance t).trace :=
    ⟨hsteady.quiet he.fresh hquiet, hundivided.advance hquiet.settles,
      houtside.advance (hquiet.evolves t.node)⟩
  have hnext : σ.next t x = t.next x (t.task (σ.nodes t.node)) := rfl
  have hseek := hseeks (σ.nodes t.node) houtside.role houtside.bootstrap (hsteady.me t.node)
  generalize t.task (σ.nodes t.node) = p at hseek hstate hnext
  cases hseek with
  | ended h =>
    obtain ⟨reply, n', rfl, hcore, -⟩ := h
    obtain ⟨hsteady', hundivided', houtside'⟩ := hkept (hstate hcore)
    rw [Thread.next, hcallers] at hnext
    exact .of_next hnext hsteady' (.failed hundivided' houtside')
  | @asks _ n' contact k hcore hcontact hredirected haccepted =>
    obtain ⟨hsteady', hundivided', houtside'⟩ := hkept (hstate hcore)
    have hme : n'.me = t.node := by
      rw [Node.me, (Node.evolves_of_core hcore).ring]
      exact hsteady.me t.node
    have hcall : t.next x (.wait n' (.call contact (.join n'.me true)) k) =
        .inr (.arrival n'.me contact (.join n'.me true) (⟨t.node, k⟩ :: t.callers)) := rfl
    rw [hcall, hme, hcallers] at hnext
    exact .of_next hnext hsteady'
      (.asking hcontact ⟨hredirected, haccepted⟩ hundivided' houtside')
  | @pauses _ n' r k hcore hr hrest =>
    obtain ⟨hsteady', hundivided', houtside'⟩ := hkept (hstate hcore)
    exact .of_next (hnext.trans (Thread.next_of_pause hr x)) hsteady'
      (.seeking rfl hcallers hr (fun n _ _ _ => hrest _ n) hundivided' houtside')
  | @enters _ n' attempt k hcore hbootstrap hrole hends =>
    obtain ⟨hsteady', hundivided', houtside'⟩ := hkept (hstate hcore)
    exact .of_next hnext hsteady' (.seeking rfl hcallers rfl
      (fun n _ _ _ => seeks_attemptJoin hrole hbootstrap hends n) hundivided' houtside')

/-- A superpeer that does not own the newcomer's position redirects it. -/
theorem Joining.redirect (he : Entrance s owner new)
    (hsteady : Steady s ps new nodes₀ σ.nodes σ.trace) {contact : NodeId} (hcontact : contact ∈ s)
    (hnot : ¬ s.Owns new contact) {k : Except NetError Message → Task Message} (hk : Awaits s k)
    (hundivided : Undivided s ps σ.nodes σ.trace) (houtside : Outside s new nodes₀ σ.nodes σ.trace)
    (ht : t = .arrival new contact (.join new true) [⟨new, k⟩]) (x : Oracle) :
    σ.Continues s ps new nodes₀ (Joining s ps owner new nodes₀) t x := by
  obtain ⟨hquiet, y, hy, hnext⟩ := next_redirected (hsteady.role contact hcontact)
    (hsteady.me contact) (Ne.symm (he.ne hcontact)) (hundivided.formed contact hcontact) hcontact
    hnot ht x
  exact .of_next hnext (hsteady.quiet he.fresh hquiet) (.seeking rfl rfl rfl
    (fun n _ _ _ => hk.redirected y hy n) (hundivided.advance hquiet.settles)
    (houtside.advance (hquiet.evolves new)))

/-- The owner of the newcomer's position takes its snapshot and splits its range. -/
theorem Undivided.welcomed (he : Entrance s owner new)
    (hsteady : Steady s ps new nodes₀ σ.nodes σ.trace) (h : Undivided s ps σ.nodes σ.trace)
    (houtside : Outside s new nodes₀ σ.nodes σ.trace) (hnode : t.node = owner)
    (hcue : t.cue = .message new (.join new true)) {m : Node} {p : NodeId}
    (hplaces : Node.Places s ps owner new p ((σ.nodes owner).snapshotFor p new))
    (hme : m.me = owner) (hrole : m.role = (σ.nodes owner).role)
    (hformed : m.ring.Formed (s.insert new) ps) (hstate : (t.task (σ.nodes owner)).state = m) :
    Steady s ps new nodes₀ (σ.advance t).nodes (σ.advance t).trace ∧
      Welcomed s ps owner new nodes₀ σ.trace [σ.segment t] ((σ.nodes owner).snapshotFor p new)
        (σ.advance t).nodes (σ.advance t).trace := by
  have howner := he.owns.1
  have hhandled : (σ.segment t).handled? = none := handled?_of_message hcue
  subst hnode hstate
  refine ⟨hsteady.reshape he.fresh howner hhandled (applied?_of_message hcue) hme hrole hformed,
    rfl, ⟨_, [], rfl, rfl, hcue⟩, fun g hg => ?_, ⟨?_, fun g hg _ m' hm' => ?_⟩,
    houtside.advance (evolves_of_ne (Ne.symm (he.ne howner))), ⟨p, hplaces⟩, fun slot hown => ?_⟩
  · rcases List.mem_append.mp hg with hg | hg
    · exact h.plain g hg
    · rw [List.mem_singleton.mp hg, show (σ.segment t).cue = t.cue from rfl, hcue]
      rfl
  · rw [nodes_advance_self]
    exact hformed
  · rw [List.mem_singleton.mp hg, Segment.Accepts, hhandled] at hm'
    cases hm'
  · rw [held, ← hsteady.content t.node howner]
    exact Node.carries_snapshotFor (hsteady.keyed _ howner) he.fresh
      (fun x hx => ((h.formed _ howner).listed x hx).1) hown

/-- The owner of the newcomer's position gives it its place. -/
theorem Joining.welcome (he : Entrance s owner new)
    (hsteady : Steady s ps new nodes₀ σ.nodes σ.trace)
    {k : Except NetError Message → Task Message} (hk : Awaits s k)
    (hundivided : Undivided s ps σ.nodes σ.trace) (houtside : Outside s new nodes₀ σ.nodes σ.trace)
    (ht : t = .arrival new owner (.join new true) [⟨new, k⟩]) (x : Oracle) :
    σ.Continues s ps new nodes₀ (Joining s ps owner new nodes₀) t x := by
  have howner := he.owns.1
  have hme : (σ.nodes owner).me = owner := hsteady.me owner
  have hmember : (σ.nodes owner).ring.me ∈ s := by
    rw [show (σ.nodes owner).ring.me = owner from hme]
    exact howner
  obtain ⟨m, p, hwelcome, hplaces, hmme, hmrole, hmformed⟩ :=
    Node.welcome_superpeer (hundivided.formed owner howner) (by rw [hme]; exact he.owns) he.fresh
      (he.admits hmember)
  rw [hme] at hplaces hmme
  have hnode : t.node = owner := by rw [ht]; rfl
  have hcallers : t.callers = [⟨new, k⟩] := by rw [ht]; rfl
  have hp : t.task (σ.nodes owner) =
      admissionReply new (.superpeer ((σ.nodes owner).snapshotFor p new)
        (σ.nodes owner).ring.predecessor) m := by
    rw [ht]
    exact handleJoin_eq (hsteady.role owner howner) (by rw [hme]; exact Ne.symm (he.ne howner))
      hwelcome
  have hwelcomed := hundivided.welcomed he hsteady houtside hnode (by rw [ht]; rfl) hplaces hmme
    hmrole hmformed
  have hnext : σ.next t x = t.next x (t.task (σ.nodes owner)) := by rw [next, hnode]
  cases hpredecessor : (σ.nodes owner).ring.predecessor with
  | none =>
    rw [hp, hpredecessor] at hwelcomed hnext
    obtain ⟨hsteady', hwelcomed'⟩ := hwelcomed rfl
    exact .of_next (hnext.trans (next_admissionReply_none hcallers x)) hsteady'
      (.accepted hwelcomed' hk)
  | some old =>
    rw [hp, hpredecessor] at hwelcomed hnext
    obtain ⟨hsteady', hwelcomed'⟩ := hwelcomed rfl
    obtain ⟨resume, hsend, hresume⟩ := next_admissionReply_some (t := t)
      (S := s.insert new) new ((σ.nodes owner).snapshotFor p new) old m x
    rw [hmme, hnode, hcallers] at hsend
    exact .of_next (hnext.trans hsend) hsteady' (.noticing hwelcomed'
      (hundivided.before_of_predecessor howner hme hpredecessor) hresume hk)

/-- The superpeer before the owner is told. -/
theorem Welcomed.noticed (he : Entrance s owner new)
    (hsteady : Steady s ps new nodes₀ σ.nodes σ.trace)
    (h : Welcomed s ps owner new nodes₀ before during snapshot σ.nodes σ.trace) {old : NodeId}
    (hold : s.Before owner old) {resume k : Except NetError Message → Task Message}
    (hresume : ∀ reply,
      (resume (.ok reply)).Tame (s.insert new) (Replies (· = .joinAccepted snapshot)))
    (hk : Awaits s k) (ht : t = notice owner new old [⟨owner, resume⟩, ⟨new, k⟩]) (x : Oracle) :
    σ.Continues s ps new nodes₀ (Joining s ps owner new nodes₀) t x := by
  subst ht
  refine ⟨hsteady.notice he hold _, ?_⟩
  rw [next_notice]
  refine .replying (h.advance hsteady he.owns.1 rfl fun y hy => evolves_of_ne ?_)
    (.home rfl (hresume .ack)) hk
  rcases hy with rfl | rfl
  · exact Ne.symm hold.2.1
  · exact Ne.symm (he.ne hold.1)

/-- The owner answers the newcomer. -/
theorem Welcomed.replied (he : Entrance s owner new)
    (hsteady : Steady s ps new nodes₀ σ.nodes σ.trace)
    (h : Welcomed s ps owner new nodes₀ before during snapshot σ.nodes σ.trace)
    {k : Except NetError Message → Task Message}
    (htame : t.Tame (s.insert new) (Replies (· = .joinAccepted snapshot)) owner [⟨new, k⟩])
    (hk : Awaits s k) (x : Oracle) :
    σ.Continues s ps new nodes₀ (Joining s ps owner new nodes₀) t x := by
  obtain ⟨hquiet, hnext⟩ := answers_of_tame (σ := σ) htame x
  have hsteady' := hsteady.quiet he.fresh hquiet
  have hwelcomed := h.advance hsteady he.owns.1 hquiet.plain fun x _ => hquiet.evolves x
  rcases hnext with hnext | ⟨t', ht', htame'⟩
  · exact .of_next hnext hsteady' (.accepted hwelcomed hk)
  · exact .of_next ht' hsteady' (.replying hwelcomed htame' hk)

/-- The newcomer takes its place. -/
theorem Welcomed.install (he : Entrance s owner new)
    (hsteady : Steady s ps new nodes₀ σ.nodes σ.trace)
    (h : Welcomed s ps owner new nodes₀ before during snapshot σ.nodes σ.trace)
    (hnode : t.node = new) (hcue : t.cue = .reply (.joinAccepted snapshot))
    (hstate : (t.task (σ.nodes new)).state = (σ.nodes new).install snapshot) :
    Steady s ps new nodes₀ (σ.advance t).nodes (σ.advance t).trace ∧
      Installed s ps owner new nodes₀ before during [σ.segment t] (σ.advance t).nodes
        (σ.advance t).trace := by
  have howner := he.owns.1
  obtain ⟨p, hplaces⟩ := h.places
  obtain ⟨hme, hpointed⟩ := he.adopt_pointed hplaces (r := (σ.nodes new).ring) (hsteady.me new)
  have hring : ((σ.nodes new).install snapshot).ring = (σ.nodes new).ring.adopt snapshot :=
    Node.ring_mapDirectory _
  rw [← hring] at hme hpointed
  have hrole : ((σ.nodes new).install snapshot).isSuperpeer = true :=
    (Node.isSuperpeer_mapDirectory _).trans h.outside.role
  have hhandled : (σ.segment t).handled? = none := handled?_of_reply hcue
  have hidle : Idle new [σ.segment t] := by
    intro g hg _
    rw [List.mem_singleton.mp hg]
    exact applied?_of_reply hcue
  have hself : (σ.advance t).nodes new = (σ.nodes new).install snapshot := by
    rw [← hstate, ← hnode]
    exact nodes_advance_self
  refine ⟨hsteady.renew he.fresh hnode hhandled ?_ ?_, ?_, h.welcome, ⟨_, [], rfl, hnode, snapshot,
    hcue⟩, h.divided.advance hsteady howner (evolves_of_ne ?_), Took.of_idle ⟨?_, ?_, ?_,
    fun g hg => by cases hg⟩ hidle⟩
  · rw [hstate]
    exact hme
  · rw [hstate]
    exact Node.proper_of_pointed hpointed (NodeSet.mem_insert.mpr (.inl hme))
  · show σ.trace ++ [_] = _
    rw [h.split]
  · rw [hnode]
    exact he.ne howner
  · rw [hself]
    exact hrole
  · rw [hself]
    exact hpointed
  · intro slot hown
    rw [hself, Node.read_install h.outside.role (h.carries slot hown), h.outside.read slot, h.split]
    rfl

/-- The newcomer takes its place and is done. -/
theorem Welcomed.installed (he : Entrance s owner new)
    (hsteady : Steady s ps new nodes₀ σ.nodes σ.trace)
    (h : Welcomed s ps owner new nodes₀ before during snapshot σ.nodes σ.trace)
    {k : Except NetError Message → Task Message} (hk : Awaits s k)
    (ht : t = ⟨new, .reply (.joinAccepted snapshot), k (.ok (.joinAccepted snapshot)), []⟩)
    (x : Oracle) :
    σ.Continues s ps new nodes₀ (Joining s ps owner new nodes₀) t x := by
  obtain ⟨hstate, t', hnext, hcloses⟩ := next_joinAccepted hk ht x
  obtain ⟨hsteady', hinstalled⟩ :=
    h.install he hsteady (by rw [ht]) (by rw [ht]) hstate
  refine .of_next hnext hsteady' (.installed hinstalled fun t'' ht'' => ?_)
  cases ht''
  exact hcloses

/-- The stages of an admission follow each other. -/
theorem joining_kept (he : Entrance s owner new) :
    Kept s ps new nodes₀ (Joining s ps owner new nodes₀) := by
  refine ⟨fun σ t x hsteady h => ?_,
    fun σ t operation hsteady h hquiet => h.quiet he hsteady hquiet⟩
  generalize hoperation : some t = operation at h
  cases h with
  | seeking hnode hcallers hcue hseeks hundivided houtside =>
    cases hoperation
    exact Joining.seek he hsteady hnode hcallers hcue hseeks hundivided houtside x
  | @asking _ _ contact k hcontact hk hundivided houtside =>
    cases hoperation
    by_cases hown : s.Owns new contact
    · rw [hown.unique he.owns]
      exact Joining.welcome he hsteady hk hundivided houtside rfl x
    · exact Joining.redirect he hsteady hcontact hown hk hundivided houtside rfl x
  | noticing h hold hresume hk =>
    cases hoperation
    exact h.noticed he hsteady hold hresume hk rfl x
  | replying h htame hk =>
    cases hoperation
    exact h.replied he hsteady htame hk x
  | accepted h hk =>
    cases hoperation
    exact h.installed he hsteady hk rfl x
  | installed h hcloses =>
    obtain ⟨hquiet, hnext⟩ := (hcloses t hoperation.symm).step x
    exact ⟨hsteady.quiet he.fresh hquiet, .installed (h.advance hsteady he.owns.1 hquiet) hnext⟩
  | failed => cases hoperation

end Machine

end ChunkDirectory
