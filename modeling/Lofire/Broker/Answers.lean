import Lofire.Broker.Auth
import Lofire.Broker.OverlayCache
import Lofire.Broker.RemoteBroker
import Lofire.Net.MessageCodecs

/-!
# Answers to frames

A connection whose user has authenticated gets a frame. If the operations on the repo stores return,
the handler answers it, with the id of the message in the frame, unless the message is `Close` or an
event of an overlay, which have no id (`msg.id()` panics), or the request waits for itself in the
broker (`frame_answered_iff`).
-/

namespace Lofire

open Lib LmdbBrokerStore

/-! ## Operations of the broker that return -/

/-- No `unwrap` of the program panics. -/
def ServerProg.NoPanic {α : Type} (x : ServerProg α) : Prop := ∀ s, (runServer x s).1 ≠ none

namespace ServerProg.NoPanic

variable {α β : Type}

theorem pure (a : α) : NoPanic (Pure.pure a : ServerProg α) := fun _ h => nomatch h

theorem throw (e : ProtocolError) :
    NoPanic (MonadExcept.throw e : ServerProg α) := fun _ h => nomatch h

theorem ofStore (x : BrokerProgE α) : NoPanic (ServerProg.ofStore x) := fun s h => by
  rw [runServer_ofStore] at h
  cases h

theorem result (x : BrokerProgE α) : NoPanic (ServerProg.result x) := fun s h => by
  rw [runServer_result] at h
  cases h

theorem bind {x : ServerProg α} {f : α → ServerProg β} (hx : NoPanic x) (hf : ∀ a, NoPanic (f a)) :
    NoPanic (x >>= f) := by
  intro s h
  cases hrun : runServer x s with | mk res s' => ?_
  obtain _ | e | a := res
  · exact hx s (by rw [hrun])
  · rw [runServer_bind_error hrun] at h
    cases h
  · rw [runServer_bind_ok hrun] at h
    exact hf a s' h

end ServerProg.NoPanic

namespace BrokerServer

variable {P : Primitives} {W : Wire} {E : Env} {α β : Type} {sv : BrokerServer}

open ServerProg

theorem noPanic_createOverlay (E : Env) (mode : ConfigMode) (o : OverlayId) (repoId : Option PubKey)
    (secret : SymKey) : NoPanic (createOverlay E mode o repoId secret) := by
  unfold createOverlay
  by_cases hrepo : mode = .localMode ∧ repoId = none
  · rw [if_pos hrepo]
    exact .throw _
  · rw [if_neg hrepo]
    refine .bind (.ofStore _) fun _ => .bind ?_ fun _ => .ofStore _
    -- the repo id was required
    cases mode with
    | coreMode => exact .pure _
    | localMode =>
      cases repoId with
      | none => exact absurd ⟨rfl, rfl⟩ hrepo
      | some repo => exact .pure _

theorem noPanic_joinOverlayProg (E : Env) (mode : ConfigMode) (user : PubKey) (o : OverlayId)
    (repoId : Option PubKey) (secret : SymKey) (peers : List PeerAdvert) :
    NoPanic (joinOverlayProg E mode user o repoId secret peers) := by
  unfold joinOverlayProg
  refine .bind (.result _) fun res => ?_
  split
  · exact NoPanic.bind (noPanic_createOverlay E mode o repoId secret) fun _ => .ofStore _
  · exact NoPanic.bind (.throw _) fun _ => .ofStore _
  · exact NoPanic.ofStore _

theorem serve_records_ne_none {x : ServerProg α} (hx : NoPanic x) :
    sv.serve (records x) ≠ none := by
  rw [serve_records_eq]
  intro h
  split at h
  · cases h
  · rename_i hnone
    exact hx sv.store (by rw [hnone])

theorem serve_addUser_ne_none (adminUser userId : PubKey) (sig : Sig) :
    sv.serve (addUser W adminUser userId sig) ≠ none := by
  unfold addUser
  split
  · nofun
  · refine serve_records_ne_none (.bind (.result _) fun res => ?_)
    split
    · exact .throw _
    · exact .ofStore _

theorem serve_joinOverlay_ne_none (user : PubKey) (o : OverlayId) (repoId : Option PubKey)
    (secret : SymKey) (peers : List PeerAdvert) :
    sv.serve (joinOverlay E user o repoId secret peers) ≠ none := by
  rw [serve_joinOverlay]
  exact serve_records_ne_none (noPanic_joinOverlayProg E sv.mode user o repoId secret peers)

/-- `x` runs an operation on the repo store of an overlay, which succeeds or returns an error on
every repo store of the broker. -/
def OpReturns (E : Env) (sv : BrokerServer) (x : OverlayId → ServerM α) : Prop :=
  ∃ f : StoreM ClockedStore (RepoResult α),
  (∀ overlay, x overlay = getRepostoreFromOverlayId E overlay f) ∧
    ∀ id, ∃ res c, f ⟨sv.disk id, E.clock⟩ = .ok (some res) c

theorem OpReturns.serve_eq_none {x : OverlayId → ServerM α} (h : OpReturns E sv x)
    (hopens : ∀ id key, E.canOpen id key = true) (overlay : OverlayId) :
    sv.serve (x overlay) = none ↔ LockedOut E sv overlay := by
  obtain ⟨f, hx, hf⟩ := h
  rw [hx, getRepostoreFromOverlayId_eq, serve_bind_eq, ← serve_resolveRepostore_eq_none hopens]
  cases hresolve : sv.serve (resolveRepostore E overlay) with
  | none => exact iff_of_true rfl rfl
  | some out =>
    obtain ⟨e | id, sv₁⟩ := out
    · exact iff_of_false nofun nofun
    · have hdisk : sv₁.disk = sv.disk := by
        obtain rfl | ⟨repo, -, -, -, ⟨-, rfl⟩ | ⟨-, rfl⟩⟩ := resolveRepostore_cases hresolve <;> rfl
      obtain ⟨res, c, hrun⟩ := hf id
      rw [← hdisk] at hrun
      dsimp only
      rw [serve_onRepoStore_run hrun]
      exact iff_of_false nofun nofun

end BrokerServer

namespace BrokerOverlayRequestContent

/-- The request runs an operation on the repo store of the overlay. -/
def usesRepoStore : BrokerOverlayRequestContent → Bool
  | blockGet _ | blockPut _ | objectPin _ | objectUnpin _ | objectDel _ | branchSyncReq _ => true
  | _ => false

open BrokerServer in
/-- The operation of the request on a repo store succeeds or returns an error. -/
def OpReturns (P : Primitives) (E : Env) (sv : BrokerServer) : BrokerOverlayRequestContent → Prop
  | blockGet b => BrokerServer.OpReturns E sv fun o => getBlock P E o b.id b.includeChildren
  | blockPut b => BrokerServer.OpReturns E sv fun o => putBlock P E o b
  | objectPin id => BrokerServer.OpReturns E sv fun o => pinObject P E o id
  | objectUnpin id => BrokerServer.OpReturns E sv fun o => unpinObject P E o id
  | objectDel id => BrokerServer.OpReturns E sv fun o => delObject P E o id
  | branchSyncReq b =>
    BrokerServer.OpReturns E sv fun o => syncBranch P E o b.heads b.knownHeads b.knownCommits
  | _ => True

end BrokerOverlayRequestContent

/-! ## The ids of the replies -/

section

variable {P : Primitives} {W : Wire} {E : Env} {sv : BrokerServer}

open BrokerProtocolHandler

/-- The reply, and the frames sent after it, have the id. -/
structure HasId (W : Wire) (id : UInt64) (out : BrokerMessage × Option Later) : Prop where
  reply : out.1.id = some id
  later : ∀ later, out.2 = some later → ∀ frame ∈ later.frames,
    ∃ m, frame = W.brokerMessage.toVec m ∧ m.id = some id

theorem id_prepareReplyBrokerOverlayMessageStream (res : Except ProtocolError Block) (id : UInt64)
    (overlay : OverlayId) (paddingSize : Nat) :
    (prepareReplyBrokerOverlayMessageStream res id overlay paddingSize).id = some id := by
  cases res <;> rfl

theorem hasId_single {id : UInt64} {m : BrokerMessage}
    (h : m.id = some id) : HasId W id (m, none) :=
  ⟨h, nofun⟩

theorem hasId_stream (res : Except ProtocolError (List Block)) (id : UInt64) (overlay : OverlayId)
    (paddingSize : Nat) :
    HasId W id (sendBlockStreamResponseToClient W res id overlay paddingSize) := by
  have hid := fun res => id_prepareReplyBrokerOverlayMessageStream res id overlay paddingSize
  obtain e | ⟨_ | ⟨one, stream⟩⟩ := res
  · exact hasId_single (hid _)
  · exact hasId_single (hid _)
  · refine ⟨hid (.ok one), fun later hlater frame hframe => ?_⟩
    cases hlater
    obtain hframe | hframe := List.mem_append.mp hframe
    · obtain ⟨next, -, rfl⟩ := List.mem_map.mp hframe
      exact ⟨_, rfl, hid (.ok next)⟩
    · obtain rfl := List.mem_singleton.mp hframe
      exact ⟨_, rfl, hid (.error .endOfStream)⟩

/-! ## Answers -/

/-- The message has an id, and its request does not wait for itself. -/
def Answerable (E : Env) (sv : BrokerServer) : BrokerMessage → Prop
  | .close => False
  | .v0 (.brokerOverlayMessage ⟨_, .event _⟩) _ => False
  | .v0 (.brokerOverlayMessage ⟨overlay, .brokerOverlayRequest r⟩) _ =>
    r.content.usesRepoStore = true → ¬ BrokerServer.LockedOut E sv overlay
  | _ => True

/-- For a message the handler runs an operation of the broker, and replies to its result with the id
of the message. -/
inductive Handled (P : Primitives) (W : Wire) (E : Env) (user : PubKey) (sv : BrokerServer)
    (msg : BrokerMessage) : Prop
  | intro {α : Type} {x : ServerM α} {reply : Except ProtocolError α → BrokerMessage × Option Later}
    {id : UInt64} (id_eq : msg.id = some id)
    (run_eq : handleIncoming P W E ⟨user⟩ msg = HandlerM.serve x >>= fun res => pure (reply res))
    (hasId : ∀ res, HasId W id (reply res)) (returns : sv.serve x = none ↔ ¬ Answerable E sv msg)

/-- A message with one reply, of which the operation of the broker returns. -/
theorem Handled.of_single {user : PubKey} {msg : BrokerMessage} {id : UInt64} {x : ServerM Unit}
    (reply : Except ProtocolError Unit → BrokerMessage) (hid : msg.id = some id)
    (hrun : handleIncoming P W E ⟨user⟩ msg = HandlerM.serve x >>=
      fun res => pure (reply res, none))
    (hreply : ∀ res, (reply res).id = some id) (hreturns : sv.serve x ≠ none)
    (h : Answerable E sv msg) :
    Handled P W E user sv msg :=
  .intro hid hrun (fun res => hasId_single (hreply res)) (iff_of_false hreturns (not_not.mpr h))

section Request

variable {user : PubKey} {id : UInt64} {overlay : OverlayId} {padding : Bytes}
  {content : BrokerOverlayRequestContent}

theorem Handled.of_request {α : Type} {x : ServerM α}
    {reply : Except ProtocolError α → BrokerMessage × Option Later}
    (hrun : handleOverlayRequest P W E user id overlay 20 content =
      HandlerM.serve x >>= fun res => pure (reply res)) (hid : ∀ res, HasId W id (reply res))
    (hreturns : sv.serve x = none ↔ content.usesRepoStore = true ∧
      BrokerServer.LockedOut E sv overlay) :
    Handled P W E user sv
      (.v0 (.brokerOverlayMessage ⟨overlay, .brokerOverlayRequest ⟨id, content⟩⟩) padding) := by
  refine .intro rfl hrun hid (hreturns.trans ?_)
  unfold Answerable
  rw [Classical.not_imp, not_not]

/-- A request with one reply. -/
theorem Handled.of_call {x : ServerM Unit}
    (hrun : handleOverlayRequest P W E user id overlay 20 content =
      HandlerM.serve x >>= fun res => pure
      (prepareReplyBrokerOverlayMessage res id overlay none 20, none))
    (hreturns : sv.serve x = none ↔ content.usesRepoStore = true ∧
      BrokerServer.LockedOut E sv overlay) :
    Handled P W E user sv
      (.v0 (.brokerOverlayMessage ⟨overlay, .brokerOverlayRequest ⟨id, content⟩⟩) padding) :=
  .of_request hrun (fun _ => hasId_single rfl) hreturns

/-- A request with a stream as reply. -/
theorem Handled.of_stream {x : ServerM (List Block)}
    (hrun : handleOverlayRequest P W E user id overlay 20 content =
      HandlerM.serve x >>= fun res => pure (sendBlockStreamResponseToClient W res id overlay 20))
    (hreturns : sv.serve x = none ↔ content.usesRepoStore = true ∧
      BrokerServer.LockedOut E sv overlay) :
    Handled P W E user sv
      (.v0 (.brokerOverlayMessage ⟨overlay, .brokerOverlayRequest ⟨id, content⟩⟩) padding) :=
  .of_request hrun (fun res => hasId_stream res id overlay 20) hreturns

/-- What the handler does for a request to an overlay. -/
theorem handled_overlayRequest (hopens : ∀ id key, E.canOpen id key = true)
    (hop : content.OpReturns P E sv) :
    Handled P W E user sv
      (.v0 (.brokerOverlayMessage ⟨overlay, .brokerOverlayRequest ⟨id, content⟩⟩) padding) := by
  have hlocked {α : Type} {x : OverlayId → ServerM α} (h : BrokerServer.OpReturns E sv x) :
      sv.serve (x overlay) = none ↔ true = true ∧ BrokerServer.LockedOut E sv overlay := by
    rw [h.serve_eq_none hopens, and_iff_right rfl]
  have hfree {α : Type} {x : ServerM α} (h : sv.serve x ≠ none) :
      sv.serve x = none ↔ false = true ∧ BrokerServer.LockedOut E sv overlay :=
    iff_of_false h nofun
  cases content with
  | blockGet b => exact .of_stream rfl (hlocked hop)
  | branchSyncReq b => exact .of_stream rfl (hlocked hop)
  | blockPut b => exact .of_call rfl (hlocked hop)
  | objectPin oid => exact .of_call rfl (hlocked hop)
  | objectUnpin oid => exact .of_call rfl (hlocked hop)
  | objectDel oid => exact .of_call rfl (hlocked hop)
  | overlayJoin j =>
    exact .of_call rfl (hfree (BrokerServer.serve_joinOverlay_ne_none user overlay
      j.repoPubkey j.secret j.peers))
  | overlayConnect => exact .of_call (x := throw .overlayNotJoined) rfl (hfree nofun)
  | _ => exact .of_call (x := throw .invalidState) rfl (hfree nofun)

end Request

/-- The handler stops at a message without an id. -/
theorem handleIncoming_cases (hopens : ∀ id key, E.canOpen id key = true)
    (user : PubKey) (msg : BrokerMessage)
    (hop : ∀ overlay r padding,
      msg = .v0 (.brokerOverlayMessage ⟨overlay, .brokerOverlayRequest r⟩) padding →
      r.content.OpReturns P E sv) :
    (handleIncoming P W E ⟨user⟩ msg = throw .panic ∧ ¬ Answerable E sv msg) ∨
    Handled P W E user sv msg := by
  obtain ⟨⟨id, content⟩ | ⟨id, result⟩ | ⟨overlay, ⟨id, content⟩ | ⟨id, result, content⟩ | e⟩,
      padding⟩ | _ := msg
  · have hreturns : sv.serve (handleBrokerRequest W user content) ≠ none := by
      cases content with
      | addUser userId sig => exact BrokerServer.serve_addUser_ne_none user userId sig
      | delUser | addClient | delClient => nofun
    exact .inr (.of_single (fun res => prepareReplyBrokerMessage res id 20) rfl rfl
      (fun _ => rfl) hreturns trivial)
  · exact .inr (.of_single (x := throw .invalidState)
      (fun res => prepareReplyBrokerMessage res id 20) rfl rfl
      (fun _ => rfl) nofun trivial)
  · exact .inr (handled_overlayRequest hopens (hop overlay ⟨id, content⟩ padding rfl))
  · exact .inr (.of_single (x := throw .invalidState)
      (fun res => prepareReplyBrokerOverlayMessage res id overlay none 20) rfl rfl
      (fun _ => rfl) nofun trivial)
  · exact .inl ⟨rfl, id⟩
  · exact .inl ⟨rfl, id⟩

end

namespace ProtocolHandler

variable {P : Primitives} {W : Wire} {E : Env} {sv : BrokerServer}

section OneUser

open TwoUsers

/-- The messages of a broker that takes every signature. -/
def openWire : Wire := Reference.wire Reference.brokerMessage fun _ _ _ => .ok ()

/-- The two frames with which `alice` authenticates. -/
def hello : List Incoming :=
  let auth : ClientAuth := ⟨⟨alice, bob, env.randomBuf.toList⟩, ⟨.replicate 32 0, .replicate 32 0⟩⟩
  [⟨openWire.startProtocol.toVec .auth, env, broker⟩, ⟨openWire.clientAuth.toVec auth, env, broker⟩]

end OneUser

end ProtocolHandler

end Lofire
