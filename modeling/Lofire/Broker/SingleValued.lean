import Lofire.Broker.DelRecord

/-!
# Properties with a single value

Some properties of the records are to hold one value, the last one written. A `Ledger` is the store
with a note of the value that was written last to each property. The store holds exactly the noted
values (`Exact`) as long as no overlay is created where a partial deletion has left a repo or a
metadata: `Overlay::create` only checks the secret, and `put` adds a value next to the others.
-/

namespace Lofire

open Lib LmdbBrokerStore

/-! ## The value written last -/

structure Ledger where
  store : LmdbBrokerStore
  /-- The value last written to a property, if it was not deleted since. -/
  last : Bytes → Option Bytes

namespace Ledger

/-- The note after a call, which is taken if the call has succeeded. -/
def note : (c : BrokerCall) → c.Reply → (Bytes → Option Bytes) → Bytes → Option Bytes
  | .put pre key suffix v, .ok _, last =>
    Function.update last (computeProperty pre key suffix) (some v)
  | .replace pre key suffix v, .ok _, last =>
    Function.update last (computeProperty pre key suffix) (some v)
  | .del pre key suffix, .ok _, last => Function.update last (computeProperty pre key suffix) none
  | _, _, last => last

def exec (c : BrokerCall) (l : Ledger) : c.Reply × Ledger :=
  ((LmdbBrokerStore.exec c l.store).1,
    ⟨(LmdbBrokerStore.exec c l.store).2, note c (LmdbBrokerStore.exec c l.store).1 l.last⟩)

/-- The ledger after an operation. -/
def after (op : RecordOp) (l : Ledger) : Ledger := (op.prog.run exec l).2

theorem after_store (op : RecordOp) (l : Ledger) : (l.after op).store = op.run l.store :=
  (Prog.run_map Ledger.store (fun _ _ => rfl) (fun _ _ => rfl) op.prog l).2

end Ledger

/-- The properties that are to hold one value. -/
def Entity.singleValued : Entity → List UInt8
  | account _ => [Account.ADMIN]
  | overlay _ => [Overlay.SECRET, Overlay.REPO, Overlay.META]
  | topic _ => [Topic.META]
  | peer _ => [Peer.VERSION, Peer.ADVERT]
  | repoStoreInfo _ => [RepoStoreInfo.KEY]
  | config => [Config.MODE]

/-- The key of a property that is to hold one value. -/
def IsSingle (p : Bytes) : Prop :=
  ∃ e : Entity, ∃ suffix ∈ e.singleValued, p = e.property (some suffix)

theorem not_isSingle {e : Entity} {suffix : UInt8} (h : suffix ∉ e.singleValued) :
    ¬ IsSingle (e.property (some suffix)) := by
  rintro ⟨e', suffix', hmem, heq⟩
  obtain ⟨rfl, hsuffix⟩ := Entity.property_inj heq
  cases hsuffix
  exact h hmem

/-- The store holds the value last written to a property, and no other. -/
def Ledger.Exact (l : Ledger) : Prop :=
  ∀ p, IsSingle p → ∀ v, (p, v) ∈ l.store ↔ l.last p = some v

/-! ## One call -/

/-- The call adds no second value to a property that is to hold one, and removes no single value. -/
def Harmless (s : LmdbBrokerStore) : BrokerCall → Prop
  | .put pre key suffix v =>
    IsSingle (computeProperty pre key suffix) →
      ∀ v', (computeProperty pre key suffix, v') ∈ s → v' = v
  | .delPropertyValue pre key suffix _ => ¬ IsSingle (computeProperty pre key suffix)
  | _ => True

namespace Ledger

variable {l : Ledger} {c : BrokerCall} {p v : Bytes}

theorem note_of_ne (h : c.property ≠ p) (reply : c.Reply) (last : Bytes → Option Bytes) :
    note c reply last p = last p := by
  have hne : p ≠ c.property := fun h' => h h'.symm
  cases c with
  | get | getAll | hasPropertyValue | delPropertyValue => rfl
  | put | replace | del =>
    cases reply
    · rfl
    · exact Function.update_of_ne hne ..

/-- A property with the single value `v`. -/
theorem mem_insert_iff {s : LmdbBrokerStore} (h : ∀ v', (p, v') ∈ s → v' = v) (v' : Bytes) :
    (p, v') ∈ (insert (p, v) s : LmdbBrokerStore) ↔ some v = some v' := by
  rw [Finset.mem_insert, Prod.mk.injEq, Option.some.injEq]
  constructor
  · rintro (⟨-, rfl⟩ | hv')
    · rfl
    · exact (h v' hv').symm
  · rintro rfl
    exact .inl ⟨rfl, rfl⟩

/-- A call that is about the property `p`, which is to hold one value. -/
theorem exec_same (h : Harmless l.store c) (hp : IsSingle c.property)
    (hl : ∀ v, (c.property, v) ∈ l.store ↔ l.last c.property = some v) (v : Bytes) :
    (c.property, v) ∈ (exec c l).2.store ↔ (exec c l).2.last c.property = some v := by
  cases c with
  | get | getAll | hasPropertyValue => exact hl v
  | put pre key suffix value =>
    show _ ↔ Function.update l.last (computeProperty pre key suffix) (some value)
      (computeProperty pre key suffix) = some v
    rw [Function.update_self]
    exact mem_insert_iff (h hp) v
  | replace pre key suffix value =>
    unfold exec
    rw [exec_replace]
    split
    · show _ ↔ Function.update l.last (computeProperty pre key suffix) (some value)
        (computeProperty pre key suffix) = some v
      rw [Function.update_self]
      exact mem_insert_iff (fun v' hv' => absurd rfl (mem_deleteAll.mp hv').1) v
    · exact hl v
  | del pre key suffix =>
    unfold exec
    rw [exec_del]
    split
    · show _ ↔ Function.update l.last (computeProperty pre key suffix) none
        (computeProperty pre key suffix) = some v
      rw [Function.update_self]
      exact iff_of_false (fun hv => (mem_deleteAll.mp hv).1 rfl) (by simp)
    · exact hl v
  | delPropertyValue pre key suffix value => exact absurd hp h

theorem Exact.exec (h : Exact l) (hc : Harmless l.store c) : Exact (exec c l).2 := by
  intro p hp v
  by_cases heq : c.property = p
  · subst heq
    exact exec_same hc hp (h _ hp) v
  · refine (BrokerCall.mem_exec_of_ne heq).trans ((h p hp v).trans (Eq.congr_left ?_))
    exact (note_of_ne heq _ l.last).symm

/-- An operation that makes harmless calls only. -/
theorem Exact.after {op : RecordOp} (h : Exact l)
    (hop : op.prog.Along LmdbBrokerStore.exec Harmless l.store) : Exact (l.after op) :=
  (hop.map (f := Ledger.store) (fun _ _ => rfl) fun _ _ => rfl).invariant h
    fun _ _ hc hl => hl.exec hc

end Ledger

/-! ## Operations that only add to other properties -/

/-- The call is harmless in every state. -/
def Quiet (c : BrokerCall) : Prop := ∀ s, Harmless s c

theorem quiet_read (c : BrokerCall) (h : c.IsRead) : Quiet c := by
  intro s
  cases c with
  | get | getAll | hasPropertyValue => trivial
  | put | replace | del | delPropertyValue => cases h

theorem quiet_put (e : Entity) {suffix : UInt8} (h : suffix ∉ e.singleValued) (v : Bytes) :
    Quiet (.put e.record.PREFIX e.record.id (some suffix) v) :=
  fun _ hsingle => absurd hsingle (not_isSingle h)

theorem quiet_delPropertyValue (e : Entity) {suffix : UInt8} (h : suffix ∉ e.singleValued)
    (v : Bytes) : Quiet (.delPropertyValue e.record.PREFIX e.record.id (some suffix) v) :=
  fun _ => not_isSingle h

theorem quiet_replace {pre : UInt8} {key : Bytes} {suffix : Option UInt8} {v : Bytes} :
    Quiet (.replace pre key suffix v) := fun _ => trivial

theorem quiet_del {pre : UInt8} {key : Bytes} {suffix : Option UInt8} :
    Quiet (.del pre key suffix) := fun _ => trivial

/-- The operation creates an entity, if it does not exist. -/
def RecordOp.IsCreate : RecordOp → Prop
  | accountCreate .. | overlayCreate .. | topicCreate _ | peerCreate _ | peerUpdateOrCreate _
  | repoStoreInfoCreate .. | configCreate _ | configGetOrCreate _ => True
  | _ => False

theorem RecordOp.every_quiet {op : RecordOp} (h : ¬ op.IsCreate) : Every Quiet op.prog := by
  cases op with
  | accountAddClient id =>
    exact every_returned (.add quiet_read (quiet_put (.account id)
      (show Account.CLIENT ∉ [Account.ADMIN] by decide) _))
  | accountAddOverlay id =>
    exact every_returned (.add quiet_read (quiet_put (.account id)
      (show Account.OVERLAY ∉ [Account.ADMIN] by decide) _))
  | overlayAddPeer id =>
    exact every_returned (.add quiet_read (quiet_put (.overlay id)
      (show Overlay.PEER ∉ [Overlay.SECRET, Overlay.REPO, Overlay.META] by decide) _))
  | overlayAddTopic id =>
    exact every_returned (.add quiet_read (quiet_put (.overlay id)
      (show Overlay.TOPIC ∉ [Overlay.SECRET, Overlay.REPO, Overlay.META] by decide) _))
  | topicAddHead id =>
    exact every_returned (.add quiet_read (quiet_put (.topic id)
      (show Topic.HEAD ∉ [Topic.META] by decide) _))
  | accountRemoveClient id =>
    exact every_returned (.remove (quiet_delPropertyValue (.account id)
      (show Account.CLIENT ∉ [Account.ADMIN] by decide) _))
  | accountRemoveOverlay id =>
    exact every_returned (.remove (quiet_delPropertyValue (.account id)
      (show Account.OVERLAY ∉ [Account.ADMIN] by decide) _))
  | overlayRemovePeer id =>
    exact every_returned (.remove (quiet_delPropertyValue (.overlay id)
      (show Overlay.PEER ∉ [Overlay.SECRET, Overlay.REPO, Overlay.META] by decide) _))
  | overlayRemoveTopic id =>
    exact every_returned (.remove (quiet_delPropertyValue (.overlay id)
      (show Overlay.TOPIC ∉ [Overlay.SECRET, Overlay.REPO, Overlay.META] by decide) _))
  | topicRemoveHead id =>
    exact every_returned (.remove (quiet_delPropertyValue (.topic id)
      (show Topic.HEAD ∉ [Topic.META] by decide) _))
  | overlaySetMetadata | topicSetMetadata | peerSetVersion | peerSetAdvert =>
    exact every_returned (.set quiet_read quiet_replace)
  | peerUpdateAdvert => exact every_returned (every_peerUpdateAdvert quiet_read quiet_replace)
  | accountDel | overlayDel | topicDel | peerDel | repoStoreInfoDel =>
    exact every_returned (.delRecord (fun _ _ => quiet_del)
      (by simp [Account.ALL_PROPERTIES, Overlay.ALL_PROPERTIES, Topic.ALL_PROPERTIES,
        Peer.ALL_PROPERTIES, RepoStoreInfo.ALL_PROPERTIES]))
  | accountCreate | overlayCreate | topicCreate | peerCreate | peerUpdateOrCreate
  | repoStoreInfoCreate | configCreate | configGetOrCreate => exact absurd trivial h

/-! ## Operations that create an entity -/

section Create

variable {s : LmdbBrokerStore} {r : Record} {suffix : UInt8} {v : Bytes}

theorem Every.harmless {α : Type} {x : BrokerProg α} (h : Every Quiet x) (s : LmdbBrokerStore) :
    x.Along exec Harmless s := (h.along s).mono fun _ _ hc => hc _

/-- A value for a property that has no other one. -/
theorem harmless_put (h : ∀ v', (r.prop suffix, v') ∈ s → v' = v) :
    (r.put suffix v).run.Along exec Harmless s := ⟨fun _ => h, trivial⟩

theorem eq_of_not_hasValue (h : ¬ HasValue s (r.prop suffix)) (v' : Bytes)
    (hv' : (r.prop suffix, v') ∈ s) : v' = v :=
  absurd (hasValue_iff.mpr ⟨v', hv'⟩) h

/-- What follows the check of `create` runs on a store where the entity does not exist. -/
theorem harmless_checkNew {f : Unit → BrokerProgE Unit}
    (h : ¬ r.Exists s → (f ()).run.Along exec Harmless s) :
    (r.checkNew >>= f).run.Along exec Harmless s := by
  refine along_bindE ((Every.checkNew quiet_read).harmless s) fun a s' hrun => ?_
  rw [r.runOn_checkNew] at hrun
  by_cases hexists : r.Exists s
  · rw [if_pos hexists] at hrun
    cases hrun
  · rw [if_neg hexists] at hrun
    cases hrun
    exact h hexists

/-- A record with a single property. -/
theorem harmless_new :
    (r.checkNew >>= fun _ => r.put r.SUFFIX_FOR_EXIST_CHECK v).run.Along exec Harmless s :=
  harmless_checkNew fun hexists => harmless_put (eq_of_not_hasValue hexists)

/-- What is put after other properties were put. -/
theorem harmless_put_bind {f : Unit → BrokerProgE Unit}
    (h : ∀ v', (r.prop suffix, v') ∈ s → v' = v)
    (hf : (f ()).run.Along exec Harmless (insert (r.prop suffix, v) s : LmdbBrokerStore)) :
    (r.put suffix v >>= f).run.Along exec Harmless s := by
  refine along_bindE (harmless_put h) fun a s' hrun => ?_
  rw [r.runOn_put] at hrun
  cases hrun
  exact hf

theorem mem_insert_prop {suffix' : UInt8} (hne : suffix' ≠ suffix) (v' : Bytes) :
    (r.prop suffix', v') ∈ (insert (r.prop suffix, v) s : LmdbBrokerStore) ↔
      (r.prop suffix', v') ∈ s := by
  refine Finset.mem_insert.trans ⟨fun h => h.resolve_left fun he => ?_, .inr⟩
  exact hne (r.prop_inj (congrArg Prod.fst he))

/-- What a partial deletion has left of an overlay that is created is what is written again. -/
def Overlay.CleanCreate (s : LmdbBrokerStore) (id : OverlayId) (repo : Option PubKey)
    (now : Timestamp) : Prop :=
  ¬ (Overlay.record id).Exists s →
    (∀ v, ((Overlay.record id).prop Overlay.META, v) ∈ s → v = OverlayMeta.codec.encode ⟨1, now⟩) ∧
    ∀ r ∈ repo, ∀ v, ((Overlay.record id).prop Overlay.REPO, v) ∈ s → v = Reference.pubKey.encode r

theorem harmless_overlayCreate {id : OverlayId} {repo : Option PubKey} {now : Timestamp}
    (h : Overlay.CleanCreate s id repo now) (secret : SymKey) :
    (Overlay.create id secret repo now).run.Along exec Harmless s := by
  refine harmless_checkNew fun hexists => ?_
  obtain ⟨hmeta, hrepo⟩ := h hexists
  refine harmless_put_bind (eq_of_not_hasValue hexists) ?_
  cases repo with
  | none => exact harmless_put fun v' hv' => hmeta v' ((mem_insert_prop (by decide) v').mp hv')
  | some repo =>
    refine harmless_put_bind (fun v' hv' => hrepo repo rfl v' ?_)
      (harmless_put fun v' hv' => hmeta v' ?_)
    · exact (mem_insert_prop (by decide) v').mp hv'
    · exact (mem_insert_prop (by decide) v').mp ((mem_insert_prop (by decide) v').mp hv')

/-- A peer that does not exist has no advert. -/
def Peer.Paired (s : LmdbBrokerStore) : Prop :=
  ∀ id, HasValue s ((Peer.record id).prop Peer.ADVERT) → (Peer.record id).Exists s

theorem harmless_peerCreate (h : Peer.Paired s) (advert : PeerAdvert) :
    (Peer.create advert).run.Along exec Harmless s := by
  refine harmless_checkNew fun hexists => ?_
  refine harmless_put_bind (eq_of_not_hasValue hexists) (harmless_put fun v' hv' => ?_)
  exact eq_of_not_hasValue (fun hadvert => hexists (h advert.peer hadvert)) v'
    ((mem_insert_prop (by decide) v').mp hv')

theorem harmless_peerUpdateOrCreate (h : Peer.Paired s) (advert : PeerAdvert) :
    (Peer.updateOrCreate advert).run.Along exec Harmless s := by
  refine Prog.along_bind.mpr ⟨(Every.openRecord quiet_read).harmless s, ?_⟩
  have hopen := (Peer.record advert.peer).runOn_openRecord (s := s)
  unfold runOn at hopen
  rw [show Peer.openId advert.peer = (Peer.record advert.peer).openRecord from rfl, hopen]
  split
  · exact harmless_peerCreate h advert
  · trivial
  · exact (RecordOp.every_peerUpdateAdvert quiet_read quiet_replace).harmless s

theorem harmless_configGetOrCreate (mode : ConfigMode) :
    (Config.getOrCreate mode).run.Along exec Harmless s := by
  refine Prog.along_bind.mpr ⟨(Every.openRecord quiet_read).harmless s, ?_⟩
  have hopen := Config.record.runOn_openRecord (s := s)
  unfold runOn at hopen
  rw [show Config.openConfig = Config.record.openRecord from rfl, hopen]
  split
  · exact Prog.along_bind.mpr ⟨harmless_new, trivial⟩
  · trivial
  · refine (Every.bind (.property quiet_read) fun res => ?_).harmless s
    split <;> exact .pure _

end Create

/-! ## Runs of operations -/

namespace RecordOp

variable {op : RecordOp} {s : LmdbBrokerStore}

/-- The operation does not create an overlay where a repo or a metadata with another value is
left. -/
def KeepsSingle (s : LmdbBrokerStore) : RecordOp → Prop
  | overlayCreate id _ repo now => Overlay.CleanCreate s id repo now
  | _ => True

theorem harmless_prog (hpaired : Peer.Paired s) (h : op.KeepsSingle s) :
    op.prog.Along exec Harmless s := by
  by_cases hcreate : op.IsCreate
  · have hreturned : ∀ {x : BrokerProgE Unit}, x.run.Along exec Harmless s →
        (returned x).Along exec Harmless s := fun hx => Prog.along_bind.mpr ⟨hx, trivial⟩
    cases op with
    | accountCreate id admin => exact hreturned harmless_new
    | topicCreate id => exact hreturned harmless_new
    | repoStoreInfoCreate id key => exact hreturned harmless_new
    | configCreate mode => exact hreturned harmless_new
    | overlayCreate id secret repo now => exact hreturned (harmless_overlayCreate h secret)
    | peerCreate advert => exact hreturned (harmless_peerCreate hpaired advert)
    | peerUpdateOrCreate advert => exact hreturned (harmless_peerUpdateOrCreate hpaired advert)
    | configGetOrCreate mode => exact harmless_configGetOrCreate mode
    | _ => exact absurd hcreate id
  · exact (every_quiet hcreate).harmless s

/-! ### The two properties of a peer -/

theorem hasValue_replace {pre : UInt8} {key : Bytes} {suffix : Option UInt8} {v p : Bytes} :
    HasValue (exec (.replace pre key suffix v) s).2 p ↔ HasValue s p := by
  rw [exec_replace]
  split
  · rename_i hval
    rw [hasValue_iff, hasValue_iff]
    by_cases hp : p = computeProperty pre key suffix
    · subst hp
      exact iff_of_true ⟨v, Finset.mem_insert_self ..⟩ (hasValue_iff.mp hval)
    · refine exists_congr fun v' => Finset.mem_insert.trans
        ⟨?_, fun hv' => .inr (mem_deleteAll.mpr ⟨hp, hv'⟩)⟩
      rintro (he | hv')
      · exact absurd (congrArg Prod.fst he) hp
      · exact (mem_deleteAll.mp hv').2
  · rfl

/-- The call reads or replaces. -/
def Replaces (c : BrokerCall) : Prop := c.IsRead ∨ ∃ pre key suffix v, c = .replace pre key suffix v

/-- A program that only replaces keeps which properties have a value. -/
theorem hasValue_of_replaces {α : Type} {x : BrokerProg α} (h : Every Replaces x) (p : Bytes) :
    HasValue (x.run exec s).2 p ↔ HasValue s p := by
  refine (h.along s).invariant (I := fun s' => HasValue s' p ↔ HasValue s p) Iff.rfl ?_
  rintro s' c (hread | ⟨pre, key, suffix, v, rfl⟩) hs'
  · rw [BrokerCall.exec_of_isRead hread]
    exact hs'
  · exact hasValue_replace.trans hs'

/-- The call reads or deletes. -/
def Deletes (c : BrokerCall) : Prop := c.IsRead ∨ ∃ pre key suffix, c = .del pre key suffix

theorem mem_of_deletes {α : Type} {x : BrokerProg α} (h : Every Deletes x) {p v : Bytes}
    (hv : (p, v) ∈ (x.run exec s).2) : (p, v) ∈ s := by
  revert hv
  refine (h.along s).invariant (I := fun s' => (p, v) ∈ s' → (p, v) ∈ s) id ?_
  rintro s' c (hread | ⟨pre, key, suffix, rfl⟩) hs' hv
  · rw [BrokerCall.exec_of_isRead hread] at hv
    exact hs' hv
  · rw [exec_del] at hv
    split at hv
    · exact hs' (mem_deleteAll.mp hv).2
    · exact hs' hv

theorem replaces_read (c : BrokerCall) (h : c.IsRead) : Replaces c := .inl h

theorem replaces_replace {pre : UInt8} {key : Bytes} {suffix : Option UInt8} {v : Bytes} :
    Replaces (.replace pre key suffix v) := .inr ⟨pre, key, suffix, v, rfl⟩

/-- Peers keep both properties or none, if the operation keeps it for its own entity. -/
theorem paired_of_entity (h : Peer.Paired s) (hself : ∀ id, op.entity = .peer id →
      HasValue (op.run s) ((Peer.record id).prop Peer.ADVERT) →
      (Peer.record id).Exists (op.run s)) :
    Peer.Paired (op.run s) := by
  intro id hadvert
  by_cases hid : Entity.peer id = op.entity
  · exact hself id hid.symm hadvert
  · have hsame : ∀ suffix v, ((Entity.peer id).property (some suffix), v) ∈ op.run s ↔
        ((Entity.peer id).property (some suffix), v) ∈ s :=
      fun suffix v => mem_run_of_other (fun hc => hid hc.1) v
    obtain ⟨v, hv⟩ := hasValue_iff.mp hadvert
    obtain ⟨v', hv'⟩ := hasValue_iff.mp (h id (hasValue_iff.mpr ⟨v, (hsame Peer.ADVERT v).mp hv⟩))
    exact hasValue_iff.mpr ⟨v', (hsame Peer.VERSION v').mpr hv'⟩

theorem paired_of_replaces (h : Peer.Paired s) (hop : Every Replaces op.prog) :
    Peer.Paired (op.run s) := fun id hadvert =>
  (hasValue_of_replaces hop _).mpr (h id ((hasValue_of_replaces hop _).mp hadvert))

/-- After `create`, the peer exists or nothing has changed. -/
theorem runOn_peerCreate (advert : PeerAdvert) :
    (Peer.record advert.peer).Exists (runOn (Peer.create advert) s).2 ∨
      (runOn (Peer.create advert) s).2 = s := by
  unfold Peer.create
  rw [runOn_bind, Record.runOn_checkNew]
  by_cases hexists : (Peer.record advert.peer).Exists s
  · rw [if_pos hexists]
    exact .inr rfl
  · rw [if_neg hexists]
    refine .inl (hasValue_iff.mpr ⟨Codec.u32.encode advert.version, ?_⟩)
    exact Finset.mem_insert_of_mem (Finset.mem_insert_self ..)

theorem paired_peerCreate (h : Peer.Paired s) (advert : PeerAdvert) :
    Peer.Paired ((peerCreate advert).run s) := by
  refine paired_of_entity h fun id hid hadvert => ?_
  cases hid
  have hrun : (peerCreate advert).run s = (runOn (Peer.create advert) s).2 :=
    congrArg Prod.snd (run_returned _)
  rw [hrun] at hadvert ⊢
  obtain hexists | hsame := @runOn_peerCreate s advert
  · exact hexists
  · rw [hsame] at hadvert ⊢
    exact h _ hadvert

theorem paired_peerDel (h : Peer.Paired s) (id : PeerId) : Peer.Paired ((peerDel id).run s) := by
  have hdeletes : Every Deletes (peerDel id).prog :=
    every_returned (.delRecord (fun suffix _ => .inr ⟨_, _, _, rfl⟩)
      (by simp [Peer.ALL_PROPERTIES]))
  refine paired_of_entity h fun _ hid hadvert => ?_
  cases hid
  -- the advert was there before, and so both properties are deleted
  obtain ⟨v, hv⟩ := hasValue_iff.mp hadvert
  have hbefore := hasValue_iff.mpr ⟨v, mem_of_deletes hdeletes hv⟩
  have hall : ∀ suffix ∈ (peerDel id).written,
      HasValue s ((Entity.peer id).property (some suffix)) := by
    intro suffix hsuffix
    simp only [written, Peer.ALL_PROPERTIES, List.mem_cons, List.not_mem_nil, or_false] at hsuffix
    obtain rfl | rfl := hsuffix
    · exact h id hbefore
    · exact hbefore
  have hrun := @run_del_ok (peerDel id) s trivial hall
  have hgone : (peerDel id).run s = (Peer.record id).without Peer.ALL_PROPERTIES s := by
    rw [run, hrun]
    rfl
  rw [hgone, Record.mem_without] at hv
  exact absurd (List.mem_map_of_mem (by decide : Peer.ADVERT ∈ Peer.ALL_PROPERTIES)) hv.1

/-- `update_or_create` updates the advert of a peer that exists, and creates the others. -/
theorem runOn_peerUpdateOrCreate (advert : PeerAdvert) :
    runOn (Peer.updateOrCreate advert) s = if (Peer.record advert.peer).Exists s then
      runOn (Peer.updateAdvert advert.peer advert) s else runOn (Peer.create advert) s := by
  have hopen := (Peer.record advert.peer).runOn_openRecord (s := s)
  unfold runOn at hopen
  show Prog.run exec ((Peer.record advert.peer).openRecord.run >>= _) s = _
  rw [Prog.run_bind, hopen]
  by_cases hexists : (Peer.record advert.peer).Exists s
  · rw [if_pos hexists, if_pos hexists]
    rfl
  · rw [if_neg hexists, if_neg hexists]
    rfl

theorem paired_peerUpdateOrCreate (h : Peer.Paired s) (advert : PeerAdvert) :
    Peer.Paired ((peerUpdateOrCreate advert).run s) := by
  have hrun : (peerUpdateOrCreate advert).run s = (runOn (Peer.updateOrCreate advert) s).2 :=
    congrArg Prod.snd (run_returned _)
  rw [hrun, runOn_peerUpdateOrCreate]
  split
  · have hupdate : Peer.Paired ((peerUpdateAdvert advert.peer advert).run s) := paired_of_replaces h
      (every_returned (every_peerUpdateAdvert replaces_read replaces_replace))
    rwa [run, prog, run_returned] at hupdate
  · have hcreate := paired_peerCreate h advert
    rwa [run, prog, run_returned] at hcreate

theorem paired_run (h : Peer.Paired s) (op : RecordOp) : Peer.Paired (op.run s) := by
  cases op with
  | peerCreate advert => exact paired_peerCreate h advert
  | peerDel id => exact paired_peerDel h id
  | peerUpdateOrCreate advert => exact paired_peerUpdateOrCreate h advert
  | peerUpdateAdvert =>
    exact paired_of_replaces h (every_returned
      (every_peerUpdateAdvert replaces_read replaces_replace))
  | peerSetVersion | peerSetAdvert =>
    exact paired_of_replaces h (every_returned (.set replaces_read replaces_replace))
  | _ => exact paired_of_entity h fun id hid => nomatch hid

end RecordOp

/-- The ledgers that are reached by operations that keep single values. -/
inductive Ledger.Reachable : Ledger → Prop
  | empty : Reachable ⟨∅, fun _ => none⟩
  | step {l : Ledger} (h : Reachable l) (op : RecordOp) (hop : op.KeepsSingle l.store) :
      Reachable (l.after op)

theorem Ledger.Reachable.invariant {l : Ledger} (h : l.Reachable) :
    l.Exact ∧ Peer.Paired l.store := by
  induction h with
  | empty =>
    refine ⟨fun p _ v => iff_of_false (Finset.notMem_empty _) (by simp), fun id hadvert => ?_⟩
    obtain ⟨v, hv⟩ := hasValue_iff.mp hadvert
    exact absurd hv (Finset.notMem_empty _)
  | step _ op hop ih =>
    refine ⟨ih.1.after (op.harmless_prog ih.2 hop), ?_⟩
    rw [Ledger.after_store]
    exact RecordOp.paired_run ih.2 op

/-- After any sequence of operations none of which creates an overlay on the remains of another one,
the properties that are to hold one value hold at most one, and the value written last is read. -/
theorem single_valued {l : Ledger} (h : l.Reachable) {e : Entity} {suffix : UInt8}
    (hsingle : suffix ∈ e.singleValued) :
    (∀ v v', (e.property (some suffix), v) ∈ l.store → (e.property (some suffix), v') ∈ l.store →
      v = v') ∧
    (exec (.get e.record.PREFIX e.record.id (some suffix)) l.store).1 =
      match l.last (e.property (some suffix)) with
      | some v => .ok v
      | none => .error .notFound := by
  have hexact := h.invariant.1 _ ⟨e, suffix, hsingle, rfl⟩
  refine ⟨fun v v' hv hv' => ?_, ?_⟩
  · rw [hexact] at hv hv'
    rw [hv, Option.some.injEq] at hv'
    exact hv'
  · show (match l.store.first (e.property (some suffix)) with
      | some value => Except.ok value
      | none => Except.error StorageError.notFound) = _
    cases hlast : l.last (e.property (some suffix)) with
    | none =>
      rw [MultiMap.first_eq_none.mpr fun v hv => ?_]
      rw [hexact, hlast] at hv
      cases hv
    | some v =>
      rw [MultiMap.first_of_unique ((hexact v).mpr hlast) fun v' hv' => ?_]
      rw [hexact, hlast, Option.some.injEq] at hv'
      exact hv'.symm

/-! ## An overlay that is created on the remains of another one -/

def sampleOverlay : OverlayId := ⟨.replicate 32 7⟩

/-- The metadata of an overlay that is created and then changed. -/
theorem single_valued_setMetadata :
    let l := (Ledger.after (.overlaySetMetadata sampleOverlay ⟨2, 9⟩)
      (Ledger.after (.overlayCreate sampleOverlay ⟨.replicate 32 1⟩ none 5) ⟨∅, fun _ => none⟩))
    (∀ v v', ((Entity.overlay sampleOverlay).property (some Overlay.META), v) ∈ l.store →
      ((Entity.overlay sampleOverlay).property (some Overlay.META), v') ∈ l.store → v = v') ∧
    (exec (.get (Overlay.record sampleOverlay).PREFIX (Overlay.record sampleOverlay).id
        (some Overlay.META)) l.store).1 =
      match l.last ((Entity.overlay sampleOverlay).property (some Overlay.META)) with
      | some v => .ok v
      | none => .error .notFound :=
  @single_valued _ (.step (.step .empty (.overlayCreate sampleOverlay ⟨.replicate 32 1⟩ none 5)
      fun _ => ⟨fun _ hv => absurd hv (Finset.notMem_empty _), fun _ _ _ hv =>
        absurd hv (Finset.notMem_empty _)⟩) (.overlaySetMetadata sampleOverlay ⟨2, 9⟩) trivial)
    (.overlay sampleOverlay) Overlay.META (by decide)

/-- An overlay with a repo is deleted in part, as it has no peers, and created with another repo. -/
def twoRepos : List RecordOp :=
  [.overlayCreate sampleOverlay ⟨.replicate 32 1⟩ (some ⟨.replicate 32 2⟩) 5,
    .overlayDel sampleOverlay,
    .overlayCreate sampleOverlay ⟨.replicate 32 1⟩ (some ⟨.replicate 32 3⟩) 5]

theorem twoRepos_card : (MultiMap.values (RecordOp.runAll twoRepos ∅)
    ((Entity.overlay sampleOverlay).property (some Overlay.REPO))).card = 2 := by
  decide +kernel

theorem not_single_valued :
    ¬ ∀ (ops : List RecordOp) (e : Entity), ∀ suffix ∈ e.singleValued,
      (MultiMap.values (RecordOp.runAll ops ∅) (e.property (some suffix))).card ≤ 1 := by
  intro h
  have hcard := h twoRepos (.overlay sampleOverlay) Overlay.REPO (by simp [Entity.singleValued])
  rw [twoRepos_card] at hcard
  omega

end Lofire
