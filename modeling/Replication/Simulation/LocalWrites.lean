import Replication.Leaderless.LocalWrites
import Replication.MultiLeader.LocalWrites

/-!
# Simulation · LocalWrites: accepted operations and what is stored

A node that accepts a client operation stamps it by its hybrid clock. Messages are merged into the
clock before they are applied, so that the stamp is above all that the node stores; an anti-entropy
pass, on its own or within `SafeAddNode`, sets versions behind the back of the clock.
-/

namespace Replication.Simulation

open Storage Library Conflict
open HashRing (Hashing)

/-- **A local operation beats what its node stores.** In every run of a leaderless cluster with any
settings and clock skews, with interleaved anti-entropy passes and reconfigurations, in which clocks
that stamp are in range and passes copy to a node no stamp above its clock, an accepted operation is
stamped above the version that its coordinator stores; and if no version that beats it is stored
there before it is applied, the coordinator stores it. In every such run of a multi-leader cluster
with any resolvers and with manual resolutions, it is stamped above the version that its node
stores, and stored. -/
theorem local_write_beats_stored {I K V σ : Type} [LinearOrder I] [DecidableEq K] [Inhabited V]
    [DecidableEq V] [LinearOrder σ] [Inhabited σ] :
    (∀ (H : Hashing I K) (set : I → Leaderless.Settings I) (sloppy : Bool)
        (as : List (SweepAction (Leaderless.Operation I K V) I K)),
      Along (Leaderless.sweptStep H) (fun s a => Leaderless.keepsUp s a = true)
          ⟨.configured H set sloppy, []⟩ as →
        Along (Leaderless.sweptStep H) Leaderless.Outstamps ⟨.configured H set sloppy, []⟩ as ∧
          (Along (Leaderless.sweptStep H) (fun s a => Leaderless.unraced s a = true)
              ⟨.configured H set sloppy, []⟩ as →
            Along (Leaderless.sweptStep H) (Leaderless.StoresOwn H)
              ⟨.configured H set sloppy, []⟩ as)) ∧
    ∀ (resolver : I → Resolver) (as : List (SweepAction (MultiLeader.ManualAction I K σ) I K)),
      Along MultiLeader.sweptStep (fun s a => MultiLeader.keepsUp s a = true)
          ⟨.init resolver, []⟩ as →
        Along MultiLeader.sweptStep MultiLeader.Outstamps ⟨.init resolver, []⟩ as := by
  refine ⟨fun H set sloppy as h => ⟨?_, fun h' => ?_⟩, fun resolver as h => ?_⟩
  · exact Leaderless.outstamps_run H set sloppy h
  · exact Leaderless.storesOwn_run H set sloppy (h.and h')
  · exact MultiLeader.outstamps_run resolver h

/-- A node whose clock is an hour ahead writes and sends its version to the other one, which writes
after it has received the version; a pass comes in between. -/
private def receivedAhead : List (SweepAction (Leaderless.Operation Bool Unit ℕ) Bool Unit) :=
  [.base (.base (.setClockSkew true 3600000)), .base (.base (.write true () 1 0)),
    .base (.base (.advance 0 (.go 0 []))), .base (.base (.advance 0 (.go 0 []))),
    .base (.base (.deliver 0 1000000)), .scan (), .meet 0 true, .meet 0 false, .repair 0 true,
    .repair 0 false, .base (.base (.write false () 2 2000000)),
    .base (.base (.advance 1 (.go 2000000 [])))]

/-- The same for two leaders, the second of which deletes the key. -/
private def heardAhead : List (SweepAction (MultiLeader.ManualAction Bool Unit ℕ) Bool Unit) :=
  [.base (.base (.setClockSkew true 3600000)), .base (.base (.write true () (.plain [1]) 0)),
    .base (.base (.receive false 0 1000000)), .scan (), .meet 0 true, .meet 0 false,
    .repair 0 false, .base (.base (.delete false () 2000000))]

/-- Both operations beat the version that was received. -/
theorem local_write_beats_received :
    (Along (Leaderless.sweptStep Leaderless.alternatingTokens) Leaderless.Outstamps
        ⟨.configured Leaderless.alternatingTokens (fun _ => Leaderless.twoReplicas 1) true, []⟩
        receivedAhead ∧
      Along (Leaderless.sweptStep Leaderless.alternatingTokens)
        (Leaderless.StoresOwn Leaderless.alternatingTokens)
        ⟨.configured Leaderless.alternatingTokens (fun _ => Leaderless.twoReplicas 1) true, []⟩
        receivedAhead) ∧
    Along MultiLeader.sweptStep MultiLeader.Outstamps ⟨.init fun _ => .lww, []⟩ heardAhead := by
  obtain ⟨hleaderless, hmulti⟩ := local_write_beats_stored (I := Bool) (K := Unit) (V := ℕ) (σ := ℕ)
  obtain ⟨hstamps, hstores⟩ := hleaderless Leaderless.alternatingTokens
    (fun _ => Leaderless.twoReplicas 1) true receivedAhead (by decide +kernel)
  exact ⟨⟨hstamps, hstores (by decide +kernel)⟩,
    hmulti (fun _ => .lww) heardAhead (by decide +kernel)⟩

/-- A cluster of one node whose clock is an hour ahead, which writes; `SafeAddNode` adds another. -/
private def addedBehind : List (SweepAction (Leaderless.Operation Bool Unit ℕ) Bool Unit) :=
  [.base (.base (.setClockSkew true 3600000)), .base (.base (.write true () 1 0)),
    .base (.base (.advance 0 (.go 0 []))), .base (.join false ⟨1, 1, 1⟩ [true, false]), .scan (),
    .meet 0 true, .meet 0 false, .repair 0 true, .repair 0 false,
    .base (.updateQuorum ⟨2, 2, 2⟩), .base (.setRegions fun _ => "")]

/-- Two leaders, one of them an hour ahead, whose version a pass copies. -/
private def copiedAhead : List (SweepAction (MultiLeader.ManualAction Bool Unit ℕ) Bool Unit) :=
  [.base (.base (.setClockSkew true 3600000)), .base (.base (.write true () (.plain [1]) 0)),
    .scan (), .meet 0 true, .meet 0 false, .repair 0 true, .repair 0 false]

/-- One replica, one ack, one response. -/
private def oneReplica : Leaderless.Settings Bool :=
  { Leaderless.twoReplicas 1 with qConfig := ⟨1, 1, 1⟩, members := [true] }

/-- **The copied stamp beats the write.** The node that was added accepts a write, stamps it below
the version that the pass of `SafeAddNode` copied, and drops it when it applies it; a leader that
got a copy from a pass stamps its write below the copy. -/
theorem copied_stamp_beats_write :
    (∃ p ∈ (run (Leaderless.sweptStep Leaderless.alternatingTokens)
          ⟨.configured Leaderless.alternatingTokens (fun _ => oneReplica) true, []⟩
          addedBehind).cluster.accepts (.write false () 2 1000000),
        ∃ x ∈ ((run (Leaderless.sweptStep Leaderless.alternatingTokens)
          ⟨.configured Leaderless.alternatingTokens (fun _ => oneReplica) true, []⟩
          addedBehind).cluster.nodes p.1).store.data p.2.key,
        p.1 = false ∧ p.2.timestamp < x.timestamp) ∧
      ((((run (Leaderless.sweptStep Leaderless.alternatingTokens)
          ⟨.configured Leaderless.alternatingTokens (fun _ => oneReplica) true, []⟩
          (addedBehind ++ [.base (.base (.write false () 2 1000000)),
            .base (.base (.advance 1 (.go 1000000 [])))])).cluster.nodes false).store.data ()).map
              KVEntry.value = some 1) ∧
    ∃ p ∈ (run MultiLeader.sweptStep ⟨.init fun _ => .lww, []⟩
          copiedAhead).cluster.cluster.accepts (.write false () (.plain [2]) 1000000),
        ∃ x ∈ (run MultiLeader.sweptStep ⟨.init fun _ => .lww, []⟩
          copiedAhead).cluster.cluster.stored p.1 p.2.key, p.2.timestamp < x.timestamp := by
  decide +kernel

end Replication.Simulation
