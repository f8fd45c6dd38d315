import Replication.Raft.LogMoves

/-!
# Raft · Role: the role a node reports

A Raft node has two role fields: the internal one, which the handlers test, and the one of
`BaseNode`, which `Role` and `GetState` report. `stepDownLocked` changes the internal one only, and
of its four callers the two that handle votes do not publish the change.

* `RoleInv` — the roles agree, and a leader follows itself.
* `published_role_iff` — the roles agree in all states of a run exactly if its steps are announced.
-/

set_option linter.unusedSectionVars false

namespace Replication.Raft

open Storage Log Node Library Function

variable {N : ℕ} {K V : Type} [DecidableEq K] [Inhabited V]

/-! ### What a step does to the roles -/

/-- A vote request or a vote. -/
def Message.isVote (m : Message N K V) : Bool :=
  match m.body with
  | .voteRequest _ _ => true
  | .voteResponse _ => true
  | _ => false

/-- The node handles a vote message of a later term. -/
def RaftNode.outvoted (n : RaftNode N K V) (m : Message N K V) : Bool :=
  !n.state.isPaused && m.isVote && decide (n.currentTerm < m.term)

/-- What a step can do to the internal role, the reported role, and the leader that is followed. -/
inductive RoleMove (self : Fin N) (old : RaftNode N K V) (inp : Input N K V)
    (new : RaftNode N K V) : Prop
  | keep (hrole : new.role = old.role) (hpub : new.publishedRole = old.publishedRole)
      (hlead : new.raftLeader = old.raftLeader)
  | stand (hold : old.role ≠ .leader) (hrole : new.role = .candidate)
      (hpub : new.publishedRole = old.publishedRole)
  | lead (hrole : new.role = .leader) (hpub : new.publishedRole = .leader)
      (hlead : new.raftLeader = some self)
  | follow (hrole : new.role = .follower) (hpub : new.publishedRole = .follower)
  | stay (m : Message N K V) (hinp : inp = .receive m)
      (hlead : old.raftLeader = some m.senderID) (hrole : new.role = .follower)
      (hpub : new.publishedRole = old.publishedRole)
  /-- The node takes over the term of a vote message, and reports nothing. -/
  | depose (m : Message N K V) (hinp : inp = .receive m) (hvote : old.outvoted m = true)
      (hrole : new.role = .follower) (hpub : new.publishedRole = old.publishedRole)

namespace RaftNode

variable (self : Fin N) (n : RaftNode N K V)

/-- A node that follows a sender becomes a follower. -/
lemma follow_roleMove (m : Message N K V) {new : RaftNode N K V}
    (hrole : new.role = (n.follow m.senderID m.term).role)
    (hpub : new.publishedRole = (n.follow m.senderID m.term).publishedRole) :
    RoleMove self n (.receive m) new := by
  rw [follow_role] at hrole
  dsimp only [RaftNode.follow] at hpub
  split_ifs at hpub with hlt hne hne
  · exact .follow hrole hpub
  · exact absurd (Option.some_ne_none m.senderID).symm hne
  · exact .follow hrole hpub
  · exact .stay m rfl (not_not.mp hne) hrole hpub

/-- **Every step of a node is one of the six moves on its roles.** -/
theorem react_roleMove (inp : Input N K V) : RoleMove self n inp (n.react self inp).1 := by
  have h := n.react_reaction self inp
  generalize (n.react self inp).1 = new, (n.react self inp).2 = out at h
  cases h with
  | idle | switch | beat | compact | propose | vote | outdated | retry => exact .keep rfl rfl rfl
  | elect hl => exact .stand hl rfl rfl
  | grant m _ _ hbody hon | refuse m _ _ hbody hon =>
    unfold raised
    split_ifs with hlt
    · exact .depose m rfl (by simp [outvoted, Message.isVote, hon, hbody, hlt]) rfl rfl
    · exact .keep rfl rfl rfl
  | deposed m _ hbody hon hlt =>
    exact .depose m rfl (by simp [outvoted, Message.isVote, hon, hbody, hlt]) rfl rfl
  | win => exact .lead rfl rfl rfl
  | mismatch m => exact follow_roleMove self n m rfl rfl
  | append m p _ es lc =>
    obtain ⟨st, a, c, h⟩ := (n.follow m.senderID m.term).accept_eq p es lc
    rw [h]
    exact follow_roleMove self n m rfl rfl
  | install m i t snap inc =>
    obtain ⟨st, l, a, d, h⟩ := (n.follow m.senderID m.term).install_eq i t snap inc
    rw [h]
    exact follow_roleMove self n m rfl rfl
  | dethrone => exact .follow rfl rfl
  | ack m k =>
    obtain ⟨st, a, c, h⟩ := n.advance_acknowledged_eq self m.senderID k
    rw [h]
    exact .keep rfl rfl rfl

/-- A node that is outvoted becomes a follower, and reports what it did before. -/
lemma react_of_outvoted {m : Message N K V} (h : n.outvoted m = true) :
    (n.react self (.receive m)).1.role = .follower ∧
      (n.react self (.receive m)).1.publishedRole = n.publishedRole := by
  unfold outvoted at h
  simp only [Bool.and_eq_true, Bool.not_eq_true', decide_eq_true_eq] at h
  obtain ⟨⟨hp, hv⟩, hlt⟩ := h
  dsimp only [react, handleMessage]
  rw [if_neg (by simp [hp])]
  unfold Message.isVote at hv
  split at hv
  · rename_i a b hb
    rw [hb]
    dsimp only [handleVoteRequest]
    simp only [if_pos hlt]
    split_ifs <;> exact ⟨rfl, rfl⟩
  · rename_i g hb
    rw [hb]
    dsimp only [handleVoteResponse]
    rw [if_pos hlt]
    exact ⟨rfl, rfl⟩
  · cases hv

/-! ### Addresses -/

/-- Replication messages go to other nodes. -/
lemma target_of_mem_sendAppend {p : Fin N} {m' : Message N K V} (hp : p ≠ self)
    (h : m' ∈ sendAppend self n p) : m'.senderID = self ∧ m'.targetID ≠ self := by
  obtain ⟨-, ⟨-, rfl⟩ | ⟨prev, -, rfl⟩⟩ := mem_sendAppend self n h
  · exact ⟨rfl, hp⟩
  · exact ⟨rfl, hp⟩

/-- **No node sends to itself**, as long as no message from itself reaches it. -/
theorem target_ne_of_mem_react {inp : Input N K V} {m' : Message N K V}
    (hinp : ∀ m, inp = .receive m → m.senderID ≠ self) (h : m' ∈ (n.react self inp).2) :
    m'.senderID ≠ m'.targetID := by
  have hreact := n.react_reaction self inp
  generalize (n.react self inp).1 = new, (n.react self inp).2 = out at h hreact
  suffices hother : m'.senderID = self ∧ m'.targetID ≠ self by
    rw [hother.1]
    exact hother.2.symm
  cases hreact with
  | idle | switch | compact | deposed | vote | win | dethrone | ack | retry => cases h
  | elect =>
    obtain ⟨p, hp, rfl⟩ := List.mem_map.mp h
    exact ⟨rfl, mem_peers.mp hp⟩
  | beat =>
    obtain ⟨p, hp, hsent⟩ := mem_sendAppend_of_mem_maybeHeartbeat self n h
    exact target_of_mem_sendAppend self n hp hsent
  | propose =>
    obtain ⟨p, hp, hsent⟩ := List.mem_flatMap.mp h
    exact target_of_mem_sendAppend self _ (mem_peers.mp hp) hsent
  | grant m | refuse m | outdated m | mismatch m | append m | install m =>
    cases List.mem_singleton.mp h
    exact ⟨rfl, hinp m rfl⟩

end RaftNode

/-! ### Runs -/

/-- The step deposes no leader by a vote message. -/
def Cluster.announced (s : Cluster N K V) (a : Action N K V) : Bool :=
  match s.input a with
  | some (n, .receive m) => !((s.nodes n).outvoted m && decide ((s.nodes n).role = .leader))
  | _ => true

/-- A node reports that it leads if and only if it does. -/
def Cluster.RolesAgree (s : Cluster N K V) : Prop :=
  ∀ n, (s.nodes n).publishedRole = .leader ↔ (s.nodes n).role = .leader

/-- The invariant: the roles agree, a leader follows itself, and nobody writes to itself. -/
structure RoleInv (s : Cluster N K V) : Prop where
  agree : s.RolesAgree
  own : ∀ n, (s.nodes n).role = .leader → (s.nodes n).raftLeader = some n
  addressed : ∀ m ∈ s.network, m.senderID ≠ m.targetID

section step

variable {s : Cluster N K V} {a : Action N K V} {n : Fin N} {inp : Input N K V}

/-- The roles of the acting node after a step that deposes no leader silently. -/
lemma RoleInv.react (hI : RoleInv s) (h : s.input a = some (n, inp)) (hann : s.announced a = true) :
    ((s.after n inp).publishedRole = .leader ↔ (s.after n inp).role = .leader) ∧
      ((s.after n inp).role = .leader →
        (s.after n inp).raftLeader = some n) := by
  have hagree := hI.agree n
  have hnot : (s.nodes n).role ≠ .leader → (s.nodes n).publishedRole ≠ .leader := fun hne hpub =>
    hne (hagree.mp hpub)
  cases (s.nodes n).react_roleMove n inp with
  | keep hrole hpub hlead =>
    rw [hrole, hpub, hlead]
    exact ⟨hagree, hI.own n⟩
  | stand hold hrole hpub =>
    rw [hrole, hpub]
    exact ⟨iff_of_false (hnot hold) (by simp), fun hl => absurd hl (by simp)⟩
  | lead hrole hpub hlead =>
    rw [hrole, hpub, hlead]
    exact ⟨iff_of_true rfl rfl, fun _ => rfl⟩
  | follow hrole hpub =>
    rw [hrole, hpub]
    exact ⟨iff_of_false (by simp) (by simp), fun hl => absurd hl (by simp)⟩
  | stay m hinp hlead hrole hpub =>
    -- a leader follows itself, and hears nothing from itself
    have hne : (s.nodes n).role ≠ .leader := by
      intro hl
      rw [hI.own n hl] at hlead
      obtain ⟨hmem, htarget⟩ := Cluster.mem_of_input_receive (hinp ▸ h)
      exact hI.addressed m hmem (htarget ▸ (Option.some.inj hlead).symm)
    rw [hrole, hpub]
    exact ⟨iff_of_false (hnot hne) (by simp), fun hl => absurd hl (by simp)⟩
  | depose m hinp hvote hrole hpub =>
    have hne : (s.nodes n).role ≠ .leader := by
      intro hl
      subst hinp
      simp [Cluster.announced, h, hvote, hl] at hann
    rw [hrole, hpub]
    exact ⟨iff_of_false (hnot hne) (by simp), fun hl => absurd hl (by simp)⟩

/-- A step that deposes no leader silently keeps the roles. -/
lemma roleInv_step (hI : RoleInv s) (hann : s.announced a = true) : RoleInv (s.step a) := by
  cases h : s.input a with
  | none =>
    rw [Cluster.step_of_input_none h]
    exact ⟨hI.agree, hI.own, fun m hm => hI.addressed m (Cluster.mem_of_mem_remaining hm)⟩
  | some r =>
    obtain ⟨n, inp⟩ := r
    obtain ⟨hagree, hown⟩ := hI.react h hann
    refine ⟨fun v => Cluster.forall_nodes_step h hagree (fun v _ => hI.agree v) v,
      fun v => Cluster.forall_nodes_step h hown (fun v _ => hI.own v) v, fun m hm => ?_⟩
    rcases Cluster.mem_network_step h hm with hm | hm
    · exact hI.addressed m hm
    · refine (s.nodes n).target_ne_of_mem_react n (fun m' hinp => ?_) hm
      obtain ⟨hmem, htarget⟩ := Cluster.mem_of_input_receive (hinp ▸ h)
      exact htarget ▸ hI.addressed m' hmem

/-- **The condition is exact**: a step that is not announced leaves a node that reports to lead and
does not. -/
theorem RoleInv.announced_iff (hI : RoleInv s) (a : Action N K V) :
    s.announced a = true ↔ (s.step a).RolesAgree := by
  refine ⟨fun hann => (roleInv_step hI hann).agree, fun hagree => ?_⟩
  by_contra hann
  unfold Cluster.announced at hann
  split at hann
  · rename_i n m h
    simp only [Bool.not_eq_true', Bool.not_eq_false, Bool.and_eq_true, decide_eq_true_eq] at hann
    obtain ⟨hvote, hl⟩ := hann
    obtain ⟨hrole, hpub⟩ := (s.nodes n).react_of_outvoted n hvote
    have hafter := hagree n
    rw [Cluster.step_of_input h] at hafter
    simp only [update_self, hrole, hpub] at hafter
    exact absurd (hafter.mp ((hI.agree n).mpr hl)) (by simp)
  · exact hann rfl

end step

lemma roleInv_init : RoleInv (Cluster.init : Cluster N K V) where
  agree _ := iff_of_false (by simp [Cluster.init, RaftNode.new])
    (by simp [Cluster.init, RaftNode.new])
  own _ h := absurd h (by simp [Cluster.init, RaftNode.new])
  addressed _ h := absurd h List.not_mem_nil

/-- **The reported role.** In every run whose steps depose no leader by a vote message of a later
term, and in no other, a node reports that it leads if and only if it does, in every state. -/
theorem published_role_iff (as : List (Action N K V)) :
    Along Cluster.step (fun s a => s.announced a = true) Cluster.init as ↔
      ∀ as', as' <+: as → (run Cluster.step Cluster.init as').RolesAgree :=
  along_iff_forall_prefix RoleInv Cluster.RolesAgree (fun _ hI => hI.agree)
    (fun _ a hI => hI.announced_iff a) (fun _ _ hann hI => roleInv_step hI hann) roleInv_init as

/-- Node `0` leads term `1`, and node `1` asks it for its vote in term `2`. -/
def outvotedRun : List (Action 3 ℕ ℕ) :=
  [.tick 0 (.elect true), .deliver 0, .deliver 1, .tick 1 (.elect true), .deliver 1]

/-- A deposed leader that still reports to lead. -/
theorem outvoted_leader_reported :
    Along Cluster.step (fun s a => s.fifo a = true) Cluster.init outvotedRun ∧
    ((run Cluster.step Cluster.init outvotedRun).nodes 0).role = .follower ∧
    ((run Cluster.step Cluster.init outvotedRun).nodes 0).publishedRole = .leader := by
  decide +kernel

end Replication.Raft
