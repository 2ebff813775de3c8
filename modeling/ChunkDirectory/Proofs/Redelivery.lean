import ChunkDirectory.Proofs.Concurrency.Tame
import ChunkDirectory.Proofs.Tree.Canonical
import ChunkDirectory.Proofs.Tree.Reduced

/-!
# Changes and copies that arrive again

A list of changes is made in a tree, and then the whole list is made once more. In between the tree
is not what it was at the same point of the first pass: later changes of the list overwrote, split
and took back what earlier ones did. Seen from a single place, though, each change either decides
what is there or leaves it alone (`Settles`), and so does the whole list, which therefore has the
same effect at this place again. Places determine a canonical tree, so that it is the same tree
(`LookupTree.replay_twice`).

A copy of a mutation may reach a superpeer whose trees are not canonical, since trees that arrive in
messages are kept as they are. There it is one change, or one list of chunks to forget, that is made
again, which is harmless in every tree (`Mutation.change_change`). The node that has handled a copy
is therefore not changed by handling it again (`Protocol.handleMessage_copy_again`), and `Delivered`
says what this means for any number of deliveries.
-/

namespace ChunkDirectory

/-! ## Places where something is decided -/

section Settles

variable {α β γ : Type} {look : α → β} {f g : α → α}

/-- What is to be seen at a place is decided, or is what was to be seen before. -/
def Settles (look : α → β) (f : α → α) : Prop :=
  (∃ b, ∀ a, look (f a) = b) ∨ ∀ a, look (f a) = look a

/-- The last one that decides counts. -/
theorem Settles.comp (hf : Settles look f) (hg : Settles look g) :
    Settles look fun a => g (f a) := by
  rcases hg with ⟨b, hb⟩ | hg
  · exact .inl ⟨b, fun a => hb (f a)⟩
  · exact hf.imp (fun ⟨b, hb⟩ => ⟨b, fun a => (hg (f a)).trans (hb a)⟩)
      fun hf a => (hg (f a)).trans (hf a)

theorem Settles.foldl {step : α → γ → α} {l : List γ}
    (h : ∀ c ∈ l, Settles look fun a => step a c) : Settles look fun a => l.foldl step a := by
  induction l with
  | nil => exact .inr fun _ => rfl
  | cons c rest ih =>
    have hrest := ih fun d hd => h d (List.mem_cons_of_mem c hd)
    exact (h c List.mem_cons_self).comp hrest

/-- Once is as good as twice. -/
theorem Settles.twice (h : Settles look f) (a : α) : look (f (f a)) = look (f a) := by
  rcases h with ⟨b, hb⟩ | h
  · rw [hb, hb]
  · exact h (f a)

end Settles

theorem SortedMap.settles_insert {κ β : Type} [Ranked κ] (k place : κ) (v : β) :
    Settles (fun m : SortedMap κ β => m.get? place) fun m => m.insert k v := by
  by_cases hk : place = k
  · subst hk
    exact .inl ⟨some v, fun _ => get?_insert_self⟩
  · exact .inr fun _ => get?_insert_of_ne hk

/-! ## A list of changes made twice -/

namespace LookupTree

variable {c : Change} {calls : List Change}

/-- The change says what is in the places it is about, whatever was there before. -/
def Change.overwrites : Change → Bool
  | .initRange .. | .initMigrationRange .. | .migrate .. | .migrateRange .. | .remove .. => true
  | .reassign .. | .eraseBackup .. | .setAlive .. => false

theorem Change.settles_ownerAt (h : c.overwrites = true) {id : UInt64} (hid : id ≤ maxLocalId) :
    Settles (fun t : LookupTree => t.ownerAt id) fun t => t.change c := by
  cases hassignment : c.assignment? with
  | some assignment =>
    obtain ⟨s, owner⟩ := assignment
    have howner (t : LookupTree) := ownerAt_change_of_assignment hassignment t hid
    by_cases hmem : id ∈ s
    · exact .inl ⟨owner, fun t => (howner t).trans (if_pos hmem)⟩
    · exact .inr fun t => (howner t).trans (if_neg hmem)
  | none =>
    cases c with
    | initRange | initMigrationRange => exact .inr fun _ => rfl
    | migrate | migrateRange | remove => cases hassignment
    | reassign | eraseBackup | setAlive => cases h

/-- Such a change is about owners or about one range. -/
theorem Change.settles_ranges (h : c.overwrites = true) :
    (∀ t : LookupTree, (t.change c).alive = t.alive) ∧
      (∀ start, Settles (fun t : LookupTree => t.backupRanges.get? start) fun t => t.change c) ∧
      ∀ batch, Settles (fun t : LookupTree => t.migrationRanges.get? batch)
        fun t => t.change c := by
  cases hassignment : c.assignment? with
  | some assignment =>
    have hother (t : LookupTree) : ∃ owners, t.change c = { t with owners } := by
      rw [change_of_assignment hassignment]
      exact t.exists_assign_eq _ _ _
    refine ⟨fun t => ?_, fun start => .inr fun t => ?_, fun batch => .inr fun t => ?_⟩ <;>
    · obtain ⟨owners, heq⟩ := hother t
      simp only [heq]
  | none =>
    cases c with
    | initRange first backups =>
      refine ⟨fun _ => rfl, fun start => ?_, fun _ => .inr fun _ => rfl⟩
      exact (SortedMap.settles_insert first.localId start backups).imp
        (fun ⟨b, hb⟩ => ⟨b, fun t => hb t.backupRanges⟩) fun h t => h t.backupRanges
    | initMigrationRange batch backups =>
      refine ⟨fun _ => rfl, fun _ => .inr fun _ => rfl, fun other => ?_⟩
      exact (SortedMap.settles_insert batch other backups).imp
        (fun ⟨b, hb⟩ => ⟨b, fun t => hb t.migrationRanges⟩) fun h t => h t.migrationRanges
    | migrate | migrateRange | remove => cases hassignment
    | reassign | eraseBackup | setAlive => cases h

theorem replay_append (creator : NodeId) (history calls : List Change) :
    replay creator (history ++ calls) = calls.foldl change (replay creator history) :=
  List.foldl_append

/-- A second pass through a list of changes finds everything as it would leave it. -/
theorem replay_twice (creator : NodeId) (history : List Change)
    (h : ∀ c ∈ calls, c.overwrites = true) :
    replay creator (history ++ calls ++ calls) = replay creator (history ++ calls) := by
  have hpass {β : Type} {look : LookupTree → β}
      (hlook : ∀ c ∈ calls, Settles look fun t => t.change c) :
      look (replay creator (history ++ calls ++ calls)) =
        look (replay creator (history ++ calls)) := by
    rw [replay_append, replay_append]
    exact (Settles.foldl hlook).twice (replay creator history)
  refine (canonical_replay creator _).eq (canonical_replay creator _)
    (by rw [creator_replay, creator_replay]) (fun id hid => ?_) ?_
    (SortedMap.eq_of_get? fun start => ?_) (SortedMap.eq_of_get? fun batch => ?_)
  · exact hpass fun c hc => Change.settles_ownerAt (h c hc) hid
  · exact hpass fun c hc => .inr (Change.settles_ranges (h c hc)).1
  · exact hpass fun c hc => (Change.settles_ranges (h c hc)).2.1 start
  · exact hpass fun c hc => (Change.settles_ranges (h c hc)).2.2 batch

end LookupTree

/-! ## A mutation applied twice -/

/-- A directory is what can be read from it. -/
theorem Directory.eq_of_read {d e : Directory} (h : ∀ slot, d.read slot = e.read slot) : d = e := by
  obtain ⟨⟨trees⟩, ⟨mappings⟩⟩ := d
  obtain ⟨⟨trees'⟩, ⟨mappings'⟩⟩ := e
  obtain rfl : trees = trees' := SortedMap.eq_of_get? fun creator => h (.tree creator)
  obtain rfl : mappings = mappings' := SortedMap.eq_of_get? fun id => h (.mapping id)
  rfl

namespace Mutation

variable (m : Mutation)

theorem changeTree_changeTree (creator : NodeId) (tree : Option LookupTree) :
    m.changeTree creator (m.changeTree creator tree) = m.changeTree creator tree := by
  have hmap {f : LookupTree → LookupTree} (hf : ∀ t, f (f t) = f t) (concerned : Prop)
      [Decidable concerned] :
      (if concerned then (if concerned then tree.map f else tree).map f
        else if concerned then tree.map f else tree) =
      if concerned then tree.map f else tree := by
    split
    case isTrue =>
      rw [Option.map_map]
      exact congrArg (Option.map · tree) (funext hf)
    case isFalse => rfl
  cases m with
  | updateAll owner restorer => exact hmap (fun t => t.reassign_reassign owner restorer) True
  | migrate chunk node => exact hmap (fun t => t.assign_assign (.single chunk) (some node)) _
  | migrateRange start stop node =>
    refine hmap (fun t => ?_) _
    have hassign (t : LookupTree) := LookupTree.change_of_assignment
      (c := .migrateRange start stop node) rfl t
    simp only [LookupTree.change] at hassign
    rw [hassign, hassign, LookupTree.assign_assign]
  | remove first rest => exact hmap (fun t => t.foldl_remove_twice first rest) _
  | initRange start owner backups =>
    simp only [changeTree]
    split
    case isTrue =>
      rw [Option.getD_some]
      cases start with
      | created first => exact congrArg some (LookupTree.initRange_initRange _ first backups)
      | migration batch =>
        exact congrArg some (LookupTree.initMigrationRange_initMigrationRange _ batch backups)
    case isFalse => rfl
  | insertId id chunk => rfl

/-- What a mutation makes of a slot it leaves there. -/
theorem change_change (slot : Slot) (content : Option slot.Content) :
    m.change slot (m.change slot content) = m.change slot content := by
  cases slot with
  | tree creator => exact m.changeTree_changeTree creator content
  | mapping id =>
    cases m with
    | insertId mapped target =>
      simp only [change, changeMapping]
      split <;> rfl
    | _ => rfl

theorem apply_apply (d : Directory) : (m.apply (m.apply d).1).1 = (m.apply d).1 :=
  Directory.eq_of_read fun slot => by rw [read_apply, read_apply, change_change]

end Mutation

theorem Node.mutate_mutate (n : Node) (m : Mutation) : (n.mutate m).mutate m = n.mutate m := by
  cases hd : n.directory? with
  | none =>
    have hself : n.mutate m = n := by
      unfold directory? at hd
      unfold mutate mapDirectory
      cases hrole : n.role with
      | peer superpeer => rfl
      | superpeer d => rw [hrole] at hd; cases hd
    rw [hself, hself]
  | some d =>
    have hd' : (n.mutate m).directory? = some (m.apply d).1 := by
      rw [directory?_mutate, hd, Option.map_some]
    rw [← mapDirectory_apply hd', Mutation.apply_apply, mapDirectory_self hd']

/-! ## A copy delivered again -/

namespace Protocol

variable {message reply : Message} {n n₁ n₂ : Node} {sender : NodeId} {senders : List NodeId}

/-- The message is delivered once from each of some senders, one after the other, and each of them
gets the reply. -/
inductive Delivered (message reply : Message) : Node → List NodeId → Node → Prop
  | none {n : Node} : Delivered message reply n [] n
  | next {n n₁ n₂ : Node} {sender : NodeId} {senders : List NodeId}
    (handled : handleMessage sender message n = .done reply n₁)
    (others : Delivered message reply n₁ senders n₂) :
    Delivered message reply n (sender :: senders) n₂

/-- A node that gives a reply and is not changed thereby does so any number of times. -/
theorem delivered_of_unchanged (h : ∀ sender, handleMessage sender message n = .done reply n)
    (senders : List NodeId) : Delivered message reply n senders n := by
  induction senders with
  | nil => exact .none
  | cons sender rest ih => exact .next (h sender) ih

/-- What a node does with a request flagged as a copy it does again, and is not changed by it. -/
theorem handleMessage_copy_again {m : Except RequestStatus Mutation}
    (h : message.mutation? = some (m, true)) (n : Node) : ∃ reply n₁, ∀ sender,
      handleMessage sender message n = .done reply n₁ ∧
        handleMessage sender message n₁ = .done reply n₁ := by
  cases m with
  | error status =>
    refine ⟨.status status, n, fun sender => ?_⟩
    rw [handleMessage_of_settled sender h]
    exact ⟨rfl, rfl⟩
  | ok m =>
    have hreply {status : RequestStatus} {n n₁ : Node}
        (hmutate : mutate m true n = .done status n₁) (sender : NodeId) :
        handleMessage sender message n = .done (.status status) n₁ := by
      rw [handleMessage_of_mutation h]
      show (mutate m true n).bind _ = _
      rw [hmutate]
      rfl
    cases hd : n.directory? with
    | none =>
      have hmutate := mutate_of_peer m true (by rw [Node.isSuperpeer, hd]; rfl)
      exact ⟨_, n, fun sender => ⟨hreply hmutate sender, hreply hmutate sender⟩⟩
    | some d =>
      have hd' : (n.mutate m).directory? = some (m.apply d).1 := by
        rw [Node.directory?_mutate, hd, Option.map_some]
      have hfirst : mutate m true n = .done .applied (n.mutate m) := mutate_of_superpeer m true hd
      have hagain : mutate m true (n.mutate m) = .done .applied ((n.mutate m).mutate m) :=
        mutate_of_superpeer m true hd'
      rw [Node.mutate_mutate] at hagain
      exact ⟨_, n.mutate m, fun sender => ⟨hreply hfirst sender, hreply hagain sender⟩⟩

end Protocol

open LookupTree (Change replay)

/-- To make a list of changes of owners and ranges twice is to make it once, in every tree that came
about by changes, and to deliver a copy any number of times is to deliver it once, to every node. -/
theorem replays_absorbed :
    (∀ (creator : NodeId) (history calls : List Change), (∀ c ∈ calls, c.overwrites = true) →
      replay creator (history ++ calls ++ calls) = replay creator (history ++ calls) ∧
        (replay creator (history ++ calls ++ calls)).digest =
          (replay creator (history ++ calls)).digest) ∧
    ∀ (n : Node) (message : Message) (m : Except RequestStatus Mutation),
      message.mutation? = some (m, true) →
      ∃ reply n₁, ∀ senders ≠ [], Protocol.Delivered message reply n senders n₁ := by
  constructor
  · intro creator history calls h
    have hsame := LookupTree.replay_twice creator history h
    exact ⟨hsame, congrArg LookupTree.digest hsame⟩
  · intro n message m h
    obtain ⟨reply, n₁, hhandled⟩ := Protocol.handleMessage_copy_again h n
    refine ⟨reply, n₁, fun senders hsenders => ?_⟩
    cases senders with
    | nil => exact absurd rfl hsenders
    | cons sender rest =>
      exact .next (hhandled sender).1
        (Protocol.delivered_of_unchanged (fun sender => (hhandled sender).2) rest)

/-- A range is registered, moved in one call and split by the next, and a superpeer that holds a
tree is told twice which chunks to forget. -/
theorem replays_absorbed_split :
    replay ⟨150⟩ [.initRange ⟨0⟩ ⟨[⟨2⟩]⟩, .migrateRange ⟨20⟩ ⟨10⟩ ⟨300⟩, .remove ⟨15⟩,
        .initRange ⟨0⟩ ⟨[⟨2⟩]⟩, .migrateRange ⟨20⟩ ⟨10⟩ ⟨300⟩, .remove ⟨15⟩] =
      replay ⟨150⟩ [.initRange ⟨0⟩ ⟨[⟨2⟩]⟩, .migrateRange ⟨20⟩ ⟨10⟩ ⟨300⟩, .remove ⟨15⟩] ∧
    ∃ reply n₁, Protocol.Delivered (.remove [⟨7⟩, ⟨8⟩] true) reply
      ((Node.new { Config.default with role := .superpeer }).store [.new ⟨0⟩] [])
      [⟨500⟩, ⟨600⟩] n₁ := by
  obtain ⟨htrees, hcopies⟩ := replays_absorbed
  have hsame := htrees ⟨150⟩ []
    [.initRange ⟨0⟩ ⟨[⟨2⟩]⟩, .migrateRange ⟨20⟩ ⟨10⟩ ⟨300⟩, .remove ⟨15⟩] (by decide)
  obtain ⟨reply, n₁, hdelivered⟩ :=
    hcopies ((Node.new { Config.default with role := .superpeer }).store [.new ⟨0⟩] [])
      (.remove [⟨7⟩, ⟨8⟩] true) (.ok (.remove ⟨7⟩ [⟨8⟩])) rfl
  exact ⟨hsame.1, reply, n₁, hdelivered [⟨500⟩, ⟨600⟩] (by decide)⟩

end ChunkDirectory
