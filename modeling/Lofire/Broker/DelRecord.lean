import Lofire.Broker.Isolation

/-!
# Deleting a record

`del` deletes the properties of a record one after the other and stops at the first one that has no
value. It removes the record entirely if all its properties have a value, and fails otherwise
(`removes_iff`): an account without clients or without overlays cannot be deleted, nor an overlay
without peers, topics or a repo. No operation sets the advert of a topic, so that no topic can.
-/

namespace Lofire

open Lib LmdbBrokerStore

/-- `open(..)` for any kind of entity. -/
def Entity.openEntity : Entity → BrokerProgE Unit
  | account id => Account.openId id
  | overlay id => Overlay.openId id
  | topic id => Topic.openId id
  | peer id => Peer.openId id
  | repoStoreInfo id => RepoStoreInfo.openId id
  | config => Config.openConfig

theorem Entity.openEntity_eq (e : Entity) : e.openEntity = e.record.openRecord := by
  cases e <;> rfl

namespace RecordOp

/-- The operation is `del` of an entity; it is to remove all the properties it writes. -/
def IsDel : RecordOp → Prop
  | accountDel _ | overlayDel _ | topicDel _ | peerDel _ | repoStoreInfoDel _ => True
  | _ => False

/-- The operation succeeds, and of its entity nothing is left, and the others are unchanged. -/
structure Removes (op : RecordOp) (s : LmdbBrokerStore) : Prop where
  ok : (op.prog.run exec s).1 = some (.ok ())
  notFound : (runOn op.entity.openEntity (op.run s)).1 = .error .notFound
  noValue : ∀ suffix ∈ op.written, ∀ v, (op.entity.property (some suffix), v) ∉ op.run s
  others : ∀ e, e ≠ op.entity → ∀ suffix v,
    (e.property (some suffix), v) ∈ op.run s ↔ (e.property (some suffix), v) ∈ s

variable {op : RecordOp} {s : LmdbBrokerStore}

theorem run_returned (x : BrokerProgE Unit) :
    (returned x).run exec s = (some (runOn x s).1, (runOn x s).2) := Prog.run_bind exec x.run _ s

/-- What a `del` does. -/
theorem run_del (h : op.IsDel) :
    op.prog.run exec s =
      (some
        (runOn (BrokerStore.delEach op.entity.record.PREFIX op.entity.record.id op.written) s).1,
        (runOn (BrokerStore.delEach op.entity.record.PREFIX op.entity.record.id op.written) s).2) :=
        by
  have hdel : ∀ (r : Record) (suffixes : List UInt8), suffixes ≠ [] →
      (returned (r.delRecord suffixes)).run exec s =
        (some (runOn (BrokerStore.delEach r.PREFIX r.id suffixes) s).1,
          (runOn (BrokerStore.delEach r.PREFIX r.id suffixes) s).2) := by
    intro r suffixes hne
    rw [run_returned, r.delRecord_eq hne]
  cases op with
  | accountDel id => exact hdel (Account.record id) Account.ALL_PROPERTIES (by decide)
  | overlayDel id => exact hdel (Overlay.record id) Overlay.ALL_PROPERTIES (by decide)
  | topicDel id => exact hdel (Topic.record id) Topic.ALL_PROPERTIES (by decide)
  | peerDel id => exact hdel (Peer.record id) Peer.ALL_PROPERTIES (by decide)
  | repoStoreInfoDel id =>
    exact hdel (RepoStoreInfo.record id) RepoStoreInfo.ALL_PROPERTIES (by decide)
  | _ => exact absurd h id

/-- A `del` deletes each property once, and among them the one that the existence depends on. -/
theorem written_of_isDel (h : op.IsDel) :
    op.written.Nodup ∧ op.entity.record.SUFFIX_FOR_EXIST_CHECK ∈ op.written := by
  cases op with
  | accountDel id => exact ⟨(by decide : Account.ALL_PROPERTIES.Nodup),
      (by decide : Account.ADMIN ∈ Account.ALL_PROPERTIES)⟩
  | overlayDel id => exact ⟨(by decide : Overlay.ALL_PROPERTIES.Nodup),
      (by decide : Overlay.SECRET ∈ Overlay.ALL_PROPERTIES)⟩
  | topicDel id => exact ⟨(by decide : Topic.ALL_PROPERTIES.Nodup),
      (by decide : Topic.META ∈ Topic.ALL_PROPERTIES)⟩
  | peerDel id => exact ⟨(by decide : Peer.ALL_PROPERTIES.Nodup),
      (by decide : Peer.VERSION ∈ Peer.ALL_PROPERTIES)⟩
  | repoStoreInfoDel id => exact ⟨(by decide : RepoStoreInfo.ALL_PROPERTIES.Nodup),
      (by decide : RepoStoreInfo.KEY ∈ RepoStoreInfo.ALL_PROPERTIES)⟩
  | _ => exact absurd h id

theorem run_del_ok (h : op.IsDel)
    (hall : ∀ suffix ∈ op.written, HasValue s (op.entity.property (some suffix))) :
    op.prog.run exec s = (some (.ok ()), op.entity.record.without op.written s) := by
  rw [run_del h, op.entity.record.runOn_delEach (written_of_isDel h).1 hall]

theorem run_del_error (h : op.IsDel)
    (hmiss : ∃ suffix ∈ op.written, ¬ HasValue s (op.entity.property (some suffix))) :
    (op.prog.run exec s).1 = some (.error .backendError) := by
  rw [run_del h, op.entity.record.runOn_delEach_error (written_of_isDel h).1 hmiss]

theorem Removes.hasValue (hr : op.Removes s) (h : op.IsDel) :
    ∀ suffix ∈ op.written, HasValue s (op.entity.property (some suffix)) := by
  by_contra hmiss
  push Not at hmiss
  have herr := hr.ok
  rw [run_del_error h hmiss] at herr
  cases herr

/-- Deleting an entity removes it entirely exactly if all its properties have a value. -/
theorem removes_iff (h : op.IsDel) (s : LmdbBrokerStore) :
    op.Removes s ↔ ∀ suffix ∈ op.written, HasValue s (op.entity.property (some suffix)) := by
  constructor
  · exact fun hr => hr.hasValue h
  · intro hall
    have hrun := run_del_ok h hall
    have hafter : op.run s = op.entity.record.without op.written s := by rw [run, hrun]
    have hgone : ∀ suffix ∈ op.written, ∀ v,
        (op.entity.property (some suffix), v) ∉ op.run s := by
      intro suffix hsuffix v
      rw [hafter, Record.mem_without]
      exact fun hv => hv.1 (List.mem_map_of_mem hsuffix)
    refine ⟨by rw [hrun], ?_, hgone, fun e hne suffix v => mem_run_of_other (fun hc => hne hc.1) v⟩
    rw [Entity.openEntity_eq, Record.runOn_openRecord, if_neg]
    intro hexists
    obtain ⟨v, hv⟩ := hasValue_iff.mp hexists
    exact hgone _ (written_of_isDel h).2 v hv

/-- The store after a sequence of operations. -/
def runAll (ops : List RecordOp) (s : LmdbBrokerStore) : LmdbBrokerStore :=
  ops.foldl (fun s op => op.run s) s

/-- A user whose bytes are all 1. -/
def sampleUser : UserId := ⟨.replicate 32 1⟩

/-- An account with a client and an overlay. -/
def fullAccount : LmdbBrokerStore :=
  runAll [.accountCreate sampleUser true, .accountAddClient sampleUser ⟨.replicate 32 2⟩,
    .accountAddOverlay sampleUser ⟨.replicate 32 3⟩] ∅

/-- An account without clients and overlays. -/
def emptyAccount : LmdbBrokerStore := runAll [.accountCreate sampleUser true] ∅

theorem removes_iff_fullAccount : (accountDel sampleUser).Removes fullAccount :=
  (@removes_iff (accountDel sampleUser) trivial fullAccount).mpr (by decide +kernel)

theorem exists_emptyAccount :
    (accountDel sampleUser).entity.record.Exists emptyAccount ∧
      ¬ HasValue emptyAccount ((Entity.account sampleUser).property (some Account.CLIENT)) := by
  decide +kernel

/-- An account that was just created cannot be deleted. -/
theorem not_removes_emptyAccount :
    ¬ ∀ (ops : List RecordOp) (op : RecordOp), op.IsDel →
      op.entity.record.Exists (runAll ops ∅) → op.Removes (runAll ops ∅) := by
  intro h
  obtain ⟨hexists, hclient⟩ := exists_emptyAccount
  have hremoves := h [.accountCreate sampleUser true] (accountDel sampleUser) trivial hexists
  exact hclient (hremoves.hasValue trivial Account.CLIENT List.mem_cons_self)

end RecordOp

end Lofire
