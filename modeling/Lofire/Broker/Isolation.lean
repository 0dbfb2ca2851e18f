import Lofire.Broker.Effects

/-!
# The records are isolated from each other

All kinds of records share one table, whose keys are a prefix, the serialized id of the record and
the byte of the property, one after the other. The prefixes are different and no serialized id is
the beginning of another one of its kind, so that the key determines the entity and the property
(`Entity.property_inj`). An operation on an entity thus changes the values of the properties it
writes and no others (`reads_of_other`).
-/

namespace Lofire

open Lib LmdbBrokerStore

/-! ## Entities -/

/-- What the broker keeps a record of. -/
inductive Entity
  | account (id : UserId)
  | overlay (id : OverlayId)
  | topic (id : PubKey)
  | peer (id : PeerId)
  | repoStoreInfo (id : RepoStoreId)
  | config
  deriving DecidableEq

namespace Entity

def record : Entity → Record
  | account id => Account.record id
  | overlay id => Overlay.record id
  | topic id => Topic.record id
  | peer id => Peer.record id
  | repoStoreInfo id => RepoStoreInfo.record id
  | config => Config.record

/-- The key of a property in the store. -/
def property (e : Entity) (suffix : Option UInt8) : Bytes :=
  computeProperty e.record.PREFIX e.record.id suffix

theorem suffix_inj {suffix suffix' : Option UInt8} (h : suffix.toList = suffix'.toList) :
    suffix = suffix' := by
  cases suffix <;> cases suffix' <;> simp_all

theorem encode_suffix_inj {α : Type} (c : Codec α) {a b : α} {suffix suffix' : Option UInt8}
    (h : c.encode a ++ suffix.toList = c.encode b ++ suffix'.toList) :
    a = b ∧ suffix = suffix' := by
  obtain ⟨hab, hsuffix⟩ := c.encode_append_inj h
  exact ⟨hab, suffix_inj hsuffix⟩

/-- The key determines the entity and the property. -/
theorem property_inj {e e' : Entity} {suffix suffix' : Option UInt8}
    (h : e.property suffix = e'.property suffix') : e = e' ∧ suffix = suffix' := by
  obtain ⟨hpre, hrest⟩ := List.cons.inj h
  -- entities of different kinds have different prefixes
  cases e <;> cases e' <;>
    simp only [record, Account.record, Overlay.record, Topic.record, Peer.record,
      RepoStoreInfo.record, Config.record] at hpre hrest <;>
    try exact absurd hpre (by decide)
  case account.account id id' =>
    obtain ⟨rfl, hsuffix⟩ := encode_suffix_inj _ hrest
    exact ⟨rfl, hsuffix⟩
  case overlay.overlay id id' =>
    obtain ⟨rfl, hsuffix⟩ := encode_suffix_inj _ hrest
    exact ⟨rfl, hsuffix⟩
  case topic.topic id id' =>
    obtain ⟨rfl, hsuffix⟩ := encode_suffix_inj _ hrest
    exact ⟨rfl, hsuffix⟩
  case peer.peer id id' =>
    obtain ⟨rfl, hsuffix⟩ := encode_suffix_inj _ hrest
    exact ⟨rfl, hsuffix⟩
  case repoStoreInfo.repoStoreInfo id id' =>
    obtain ⟨rfl, hsuffix⟩ := encode_suffix_inj _ hrest
    exact ⟨rfl, hsuffix⟩
  case config.config => exact ⟨rfl, (encode_suffix_inj _ hrest).2⟩

end Entity

/-! ## Operations -/

/-- An operation that can write to the store. -/
inductive RecordOp
  | accountCreate (id : UserId) (admin : Bool)
  | accountAddClient (id : UserId) (client : PubKey)
  | accountRemoveClient (id : UserId) (client : PubKey)
  | accountAddOverlay (id : UserId) (overlay : OverlayId)
  | accountRemoveOverlay (id : UserId) (overlay : OverlayId)
  | accountDel (id : UserId)
  | overlayCreate (id : OverlayId) (secret : SymKey) (repo : Option PubKey) (now : Timestamp)
  | overlayAddPeer (id : OverlayId) (peer : PeerId)
  | overlayRemovePeer (id : OverlayId) (peer : PeerId)
  | overlayAddTopic (id : OverlayId) (topic : PubKey)
  | overlayRemoveTopic (id : OverlayId) (topic : PubKey)
  | overlaySetMetadata (id : OverlayId) (m : OverlayMeta)
  | overlayDel (id : OverlayId)
  | topicCreate (id : PubKey)
  | topicAddHead (id : PubKey) (head : ObjectId)
  | topicRemoveHead (id : PubKey) (head : ObjectId)
  | topicSetMetadata (id : PubKey) (m : TopicMeta)
  | topicDel (id : PubKey)
  | peerCreate (advert : PeerAdvert)
  | peerUpdateOrCreate (advert : PeerAdvert)
  | peerUpdateAdvert (id : PeerId) (advert : PeerAdvert)
  | peerSetVersion (id : PeerId) (version : UInt32)
  | peerSetAdvert (id : PeerId) (advert : PeerAdvert)
  | peerDel (id : PeerId)
  | repoStoreInfoCreate (id : RepoStoreId) (key : SymKey)
  | repoStoreInfoDel (id : RepoStoreId)
  | configCreate (mode : ConfigMode)
  | configGetOrCreate (mode : ConfigMode)

namespace RecordOp

/-- The result of an operation, or a panic. -/
abbrev Result := Option (Except StorageError Unit)

def returned (x : BrokerProgE Unit) : BrokerProg Result := do return some (← x.run)

def prog : RecordOp → BrokerProg Result
  | accountCreate id admin => returned (Account.create id admin)
  | accountAddClient id client => returned (Account.addClient id client)
  | accountRemoveClient id client => returned (Account.removeClient id client)
  | accountAddOverlay id overlay => returned (Account.addOverlay id overlay)
  | accountRemoveOverlay id overlay => returned (Account.removeOverlay id overlay)
  | accountDel id => returned (Account.del id)
  | overlayCreate id secret repo now => returned (Overlay.create id secret repo now)
  | overlayAddPeer id peer => returned (Overlay.addPeer id peer)
  | overlayRemovePeer id peer => returned (Overlay.removePeer id peer)
  | overlayAddTopic id topic => returned (Overlay.addTopic id topic)
  | overlayRemoveTopic id topic => returned (Overlay.removeTopic id topic)
  | overlaySetMetadata id m => returned (Overlay.setMetadata id m)
  | overlayDel id => returned (Overlay.del id)
  | topicCreate id => returned (Topic.create id)
  | topicAddHead id head => returned (Topic.addHead id head)
  | topicRemoveHead id head => returned (Topic.removeHead id head)
  | topicSetMetadata id m => returned (Topic.setMetadata id m)
  | topicDel id => returned (Topic.del id)
  | peerCreate advert => returned (Peer.create advert)
  | peerUpdateOrCreate advert => returned (Peer.updateOrCreate advert)
  | peerUpdateAdvert id advert => returned (Peer.updateAdvert id advert)
  | peerSetVersion id version => returned (Peer.setVersion id version)
  | peerSetAdvert id advert => returned (Peer.setAdvert id advert)
  | peerDel id => returned (Peer.del id)
  | repoStoreInfoCreate id key => returned (RepoStoreInfo.create id key)
  | repoStoreInfoDel id => returned (RepoStoreInfo.del id)
  | configCreate mode => returned (Config.create mode)
  | configGetOrCreate mode => (Config.getOrCreate mode).run

/-- The entity an operation is on. -/
def entity : RecordOp → Entity
  | accountCreate id _ | accountAddClient id _ | accountRemoveClient id _ | accountAddOverlay id _
  | accountRemoveOverlay id _ | accountDel id => .account id
  | overlayCreate id .. | overlayAddPeer id _ | overlayRemovePeer id _ | overlayAddTopic id _
  | overlayRemoveTopic id _ | overlaySetMetadata id _ | overlayDel id => .overlay id
  | topicCreate id | topicAddHead id _ | topicRemoveHead id _ | topicSetMetadata id _
  | topicDel id => .topic id
  | peerCreate advert | peerUpdateOrCreate advert => .peer advert.peer
  | peerUpdateAdvert id _ | peerSetVersion id _ | peerSetAdvert id _ | peerDel id => .peer id
  | repoStoreInfoCreate id _ | repoStoreInfoDel id => .repoStoreInfo id
  | configCreate _ | configGetOrCreate _ => .config

/-- The properties an operation can write. -/
def written : RecordOp → List UInt8
  | accountCreate .. => [Account.ADMIN]
  | accountAddClient .. | accountRemoveClient .. => [Account.CLIENT]
  | accountAddOverlay .. | accountRemoveOverlay .. => [Account.OVERLAY]
  | accountDel _ => Account.ALL_PROPERTIES
  | overlayCreate .. => [Overlay.SECRET, Overlay.REPO, Overlay.META]
  | overlayAddPeer .. | overlayRemovePeer .. => [Overlay.PEER]
  | overlayAddTopic .. | overlayRemoveTopic .. => [Overlay.TOPIC]
  | overlaySetMetadata .. => [Overlay.META]
  | overlayDel _ => Overlay.ALL_PROPERTIES
  | topicCreate _ | topicSetMetadata .. => [Topic.META]
  | topicAddHead .. | topicRemoveHead .. => [Topic.HEAD]
  | topicDel _ => Topic.ALL_PROPERTIES
  | peerCreate _ | peerUpdateOrCreate _ => [Peer.VERSION, Peer.ADVERT]
  | peerSetVersion .. => [Peer.VERSION]
  | peerUpdateAdvert .. | peerSetAdvert .. => [Peer.ADVERT]
  | peerDel _ => Peer.ALL_PROPERTIES
  | repoStoreInfoCreate .. => [RepoStoreInfo.KEY]
  | repoStoreInfoDel _ => RepoStoreInfo.ALL_PROPERTIES
  | configCreate _ | configGetOrCreate _ => [Config.MODE]

end RecordOp

/-! ## The calls of an operation -/

namespace RecordOp

/-- The calls that read, or that are about one of the properties `suffixes` of `r`. -/
def Touches (r : Record) (suffixes : List UInt8) (c : BrokerCall) : Prop :=
  c.IsRead ∨ ∃ suffix ∈ suffixes, c.property = r.prop suffix

section Calls

variable {p : BrokerCall → Prop}

theorem every_returned {x : BrokerProgE Unit} (h : Every p x.run) : Every p (returned x) :=
  .bind h fun _ => .pure _

variable (hread : ∀ c : BrokerCall, c.IsRead → p c)

include hread

theorem every_peerUpdateAdvert {id : PeerId} {advert : PeerAdvert}
    (h : p (.replace (Peer.record id).PREFIX (Peer.record id).id (some Peer.ADVERT)
      (Peer.peerAdvert.encode advert))) : Every p (Peer.updateAdvert id advert).run := by
  unfold Peer.updateAdvert
  split
  · exact .pure _
  · refine .bindE (.bind (.property hread) fun _ => .pure _) fun current => ?_
    split
    · exact .pure _
    · exact .replace h

theorem every_configGetOrCreate {mode : ConfigMode} (h : Every p (Config.create mode).run) :
    Every p (Config.getOrCreate mode).run := by
  refine .bind (.openRecord hread) fun res => ?_
  split
  · exact .bind h fun _ => .pure _
  · exact .pure _
  · refine .bind (.property hread) fun res => ?_
    split <;> exact .pure _

end Calls

section Touches

variable {r : Record} {suffixes : List UInt8}

theorem touches_read (c : BrokerCall) (h : c.IsRead) : Touches r suffixes c := .inl h

theorem touches_write {suffix : UInt8} (h : suffix ∈ suffixes) {c : BrokerCall}
    (hc : c.property = r.prop suffix) : Touches r suffixes c := .inr ⟨suffix, h, hc⟩

theorem touches_overlayCreate (id : OverlayId) (secret : SymKey) (repo : Option PubKey)
    (now : Timestamp) :
    Every (Touches (Overlay.record id) [Overlay.SECRET, Overlay.REPO, Overlay.META])
      (Overlay.create id secret repo now).run := by
  refine .bindE (.checkNew touches_read) fun _ =>
    .bindE (.put (touches_write (by simp) rfl)) fun _ => ?_
  cases repo with
  | none => exact .put (touches_write (by simp) rfl)
  | some repo =>
    exact .bindE (.put (touches_write (by simp) rfl)) fun _ => .put (touches_write (by simp) rfl)

theorem touches_peerCreate (advert : PeerAdvert) :
    Every (Touches (Peer.record advert.peer) [Peer.VERSION, Peer.ADVERT])
    (Peer.create advert).run :=
  .bindE (.checkNew touches_read) fun _ => .bindE (.put (touches_write (by simp) rfl)) fun _ =>
    .put (touches_write (by simp) rfl)

theorem touches_peerUpdateOrCreate (advert : PeerAdvert) :
    Every (Touches (Peer.record advert.peer) [Peer.VERSION, Peer.ADVERT])
      (Peer.updateOrCreate advert).run := by
  refine .bind (.openRecord touches_read) fun res => ?_
  split
  · exact touches_peerCreate advert
  · exact .pure _
  · exact every_peerUpdateAdvert touches_read (touches_write (by simp) rfl)

theorem touches_configCreate (mode : ConfigMode) :
    Every (Touches Config.record [Config.MODE]) (Config.create mode).run :=
  .bindE (.checkNew touches_read) fun _ => .put (touches_write (by simp) rfl)

end Touches

/-- An operation makes calls on its entity only, and writes its properties only. -/
theorem touches_prog (op : RecordOp) : Every (Touches op.entity.record op.written) op.prog := by
  cases op with
  | accountCreate | topicCreate | repoStoreInfoCreate =>
    exact every_returned (.bindE (.checkNew touches_read) fun _ =>
      .put (touches_write (by simp [written]) rfl))
  | accountAddClient | accountAddOverlay | overlayAddPeer | overlayAddTopic | topicAddHead =>
    exact every_returned (.add touches_read (touches_write (by simp [written]) rfl))
  | accountRemoveClient | accountRemoveOverlay | overlayRemovePeer | overlayRemoveTopic
  | topicRemoveHead =>
    exact every_returned (.remove (touches_write (by simp [written]) rfl))
  | overlaySetMetadata | topicSetMetadata | peerSetVersion | peerSetAdvert =>
    exact every_returned (.set touches_read (touches_write (by simp [written]) rfl))
  | accountDel | overlayDel | topicDel | peerDel | repoStoreInfoDel =>
    exact every_returned (.delRecord (fun suffix h => touches_write h rfl)
      (by simp [Account.ALL_PROPERTIES, Overlay.ALL_PROPERTIES, Topic.ALL_PROPERTIES,
        Peer.ALL_PROPERTIES, RepoStoreInfo.ALL_PROPERTIES]))
  | overlayCreate id secret repo now =>
    exact every_returned (touches_overlayCreate id secret repo now)
  | peerCreate advert => exact every_returned (touches_peerCreate advert)
  | peerUpdateOrCreate advert => exact every_returned (touches_peerUpdateOrCreate advert)
  | peerUpdateAdvert =>
    exact every_returned (every_peerUpdateAdvert touches_read
      (touches_write (by simp [written]) rfl))
  | configCreate mode => exact every_returned (touches_configCreate mode)
  | configGetOrCreate mode => exact every_configGetOrCreate touches_read (touches_configCreate mode)

/-- The store after an operation. -/
def run (op : RecordOp) (s : LmdbBrokerStore) : LmdbBrokerStore := (op.prog.run exec s).2

/-- An operation keeps the values of all properties but those it writes. -/
theorem mem_run_of_other {op : RecordOp} {s : LmdbBrokerStore} {e : Entity} {suffix : UInt8}
    (h : ¬ (e = op.entity ∧ suffix ∈ op.written)) (v : Bytes) :
    (e.property (some suffix), v) ∈ op.run s ↔ (e.property (some suffix), v) ∈ s := by
  refine (op.touches_prog.along s).invariant
    (I := fun s' => (e.property (some suffix), v) ∈ s' ↔
      (e.property (some suffix), v) ∈ s) Iff.rfl ?_
  rintro s' c (hread | ⟨x, hx, hprop⟩) hs'
  · rw [BrokerCall.exec_of_isRead hread]
    exact hs'
  · refine (BrokerCall.mem_exec_of_ne fun he => h ?_).trans hs'
    obtain ⟨rfl, hsuffix⟩ := Entity.property_inj (he.symm.trans hprop)
    cases hsuffix
    exact ⟨rfl, hx⟩

end RecordOp

/-! ## Reads -/

/-- A read of a property depends on its values only. -/
theorem BrokerCall.exec_read_congr {c : BrokerCall} {s s' : LmdbBrokerStore} (hread : c.IsRead)
    (h : ∀ v, (c.property, v) ∈ s' ↔ (c.property, v) ∈ s) : (exec c s').1 = (exec c s).1 := by
  have hvalues : s'.values c.property = s.values c.property := by
    ext v
    rw [MultiMap.mem_values, MultiMap.mem_values, h v]
  cases c with
  | get pre key suffix =>
    have hfirst : s'.first (computeProperty pre key suffix) =
      s.first (computeProperty pre key suffix) :=
      MultiMap.first_congr hvalues
    unfold exec
    dsimp only
    rw [hfirst]
  | getAll pre key suffix =>
    show Except.ok ((s'.values (computeProperty pre key suffix)).sort _) = _
    rw [show s'.values (computeProperty pre key suffix) = _ from hvalues]
    rfl
  | hasPropertyValue pre key suffix value => exact if_congr (h value) rfl rfl
  | put | replace | del | delPropertyValue => cases hread

/-- No two properties of entities have the same key, and an operation leaves what is read of the
properties of other entities, and of the properties it does not write, as it was. -/
theorem records_isolated :
    (∀ (e e' : Entity) (suffix suffix' : Option UInt8),
      computeProperty e.record.PREFIX e.record.id suffix =
        computeProperty e'.record.PREFIX e'.record.id suffix' → e = e' ∧ suffix = suffix') ∧
    ∀ (op : RecordOp) (s : LmdbBrokerStore) (e : Entity) (suffix : UInt8),
      ¬ (e = op.entity ∧ suffix ∈ op.written) → ∀ c : BrokerCall, c.IsRead →
        c.property = e.property (some suffix) → (exec c (op.run s)).1 = (exec c s).1 := by
  refine ⟨fun e e' suffix suffix' h => Entity.property_inj h, fun op s e suffix h c hread hc => ?_⟩
  refine BrokerCall.exec_read_congr hread fun v => ?_
  rw [hc]
  exact RecordOp.mem_run_of_other h v

end Lofire
