import Lofire.Broker.PlainBroker
import Lofire.Lib.Since

/-!
# What becomes of a block

After any run a local broker serves a block of a repo if and only if it has been put in the repo and
no object with it has been deleted since (`served_iff_since`), whoever puts, deletes and asks,
through whatever overlays of the repo, and whatever happens in between.
-/

namespace Lofire

open Lib LmdbBrokerStore

/-- A request for the block `x`, without its children. -/
def BrokerMessage.getOne (o : OverlayId) (id : UInt64) (x : BlockId) (topic : Option PubKey)
    (padding : Bytes) : BrokerMessage :=
  .v0 (.brokerOverlayMessage ⟨o, .brokerOverlayRequest ⟨id, .blockGet ⟨x, false, topic⟩⟩⟩) padding

namespace BrokerEvent

/-- The block `blk` is put in the repo under the id `x`. -/
def Puts (P : Primitives) (r : PubKey) (x : BlockId) (blk : Block) (sv : BrokerServer) :
    BrokerEvent → Prop
  | request _ _ msg => ∃ o id b, msg.repoStoreRequest = some (o, id, .blockPut b) ∧
    sv.RepoOf o r ∧ b.id P = x ∧ b.stored = blk
  | restart => False

/-- An object of the repo is deleted that has the block `x`. -/
def Deletes (P : Primitives) (r : PubKey) (x : BlockId) (sv : BrokerServer) : BrokerEvent → Prop
  | request E _ msg => ∃ o id oid obj, msg.repoStoreRequest = some (o, id, .objectDel oid) ∧
    sv.RepoOf o r ∧
    Object.loadView P (ClockedStore.view P (sv.disk (.repo r)).mainStore) oid none E.fuel =
      some (.ok obj) ∧ x ∈ obj.blocks.map (Block.id P)
  | restart => False

end BrokerEvent

namespace BlockMap

variable {P : Primitives} {E : Env} {m m' : BlockMap} {content : BrokerOverlayRequestContent}
  {reply : RepoReply} {x : BlockId} {blk : Block}

/-- The blocks after a request: the one that is put, and those that are not deleted. -/
theorem answer_blocks (h : m.answer P E content = some (reply, m'))
    (hsame : ∀ b, content = .blockPut b → m (b.id P) = some blk → b.stored = blk) :
    m' x = some blk ↔ (∃ b, content = .blockPut b ∧ b.id P = x ∧ b.stored = blk) ∨
      m x = some blk ∧ ¬ ∃ oid obj, content = .objectDel oid ∧
        Object.loadView P m.view oid none E.fuel = some (.ok obj) ∧
        x ∈ obj.blocks.map (Block.id P) := by
  have hunchanged : m' = m → (∀ b, content ≠ .blockPut b) → (∀ oid, content ≠ .objectDel oid) →
      (m' x = some blk ↔ (∃ b, content = .blockPut b ∧ b.id P = x ∧ b.stored = blk) ∨
        m x = some blk ∧ ¬ ∃ oid obj, content = .objectDel oid ∧
          Object.loadView P m.view oid none E.fuel = some (.ok obj) ∧
          x ∈ obj.blocks.map (Block.id P)) := by
    rintro rfl hput hdel
    constructor
    · exact fun hx => .inr ⟨hx, fun ⟨oid, _, hoid, _⟩ => hdel oid hoid⟩
    · intro hx
      rcases hx with ⟨b, hb, -⟩ | ⟨hx, -⟩
      · exact absurd hb (hput b)
      · exact hx
  cases content with
  | blockGet b =>
    obtain ⟨res, -, hout⟩ := Option.map_eq_some_iff.mp h
    cases hout
    exact hunchanged rfl (fun _ h => by cases h) (fun _ h => by cases h)
  | branchSyncReq b =>
    obtain ⟨res, -, hout⟩ := Option.map_eq_some_iff.mp h
    cases hout
    exact hunchanged rfl (fun _ h => by cases h) (fun _ h => by cases h)
  | objectPin oid =>
    obtain ⟨res, -, hout⟩ := Option.map_eq_some_iff.mp h
    cases hout
    exact hunchanged rfl (fun _ h => by cases h) (fun _ h => by cases h)
  | objectUnpin oid =>
    obtain ⟨res, -, hout⟩ := Option.map_eq_some_iff.mp h
    cases hout
    exact hunchanged rfl (fun _ h => by cases h) (fun _ h => by cases h)
  | blockPut b =>
    cases h
    unfold put
    by_cases hx : x = b.id P
    · subst hx
      rw [Function.update_self, Option.some.injEq]
      constructor
      · exact fun hb => .inl ⟨b, rfl, rfl, hb⟩
      · intro hx
        rcases hx with ⟨b', hb', -, hblk⟩ | ⟨hx, -⟩
        · cases hb'
          exact hblk
        · exact hsame b rfl hx
    · rw [Function.update_of_ne hx]
      constructor
      · exact fun hm => .inr ⟨hm, fun ⟨_, _, hoid, _⟩ => by cases hoid⟩
      · intro hm
        rcases hm with ⟨b', hb', hid, -⟩ | ⟨hm, -⟩
        · cases hb'
          exact absurd hid.symm hx
        · exact hm
  | objectDel oid =>
    obtain ⟨res, hload, hout⟩ := Option.map_eq_some_iff.mp h
    cases hout
    obtain ⟨res, hview, rfl⟩ := Option.map_eq_some_iff.mp hload
    have hdeleted : (∃ oid' obj, BrokerOverlayRequestContent.objectDel oid = .objectDel oid' ∧
        Object.loadView P m.view oid' none E.fuel = some (.ok obj) ∧
        x ∈ obj.blocks.map (Block.id P)) ↔
          ∃ obj, res = .ok obj ∧ x ∈ obj.blocks.map (Block.id P) := by
      constructor
      · rintro ⟨oid', obj, hoid, hobj, hx⟩
        cases hoid
        rw [hview, Option.some.injEq] at hobj
        exact ⟨obj, hobj, hx⟩
      · rintro ⟨obj, rfl, hx⟩
        exact ⟨oid, obj, rfl, hview, hx⟩
    rw [hdeleted]
    cases res with
    | error e => simp [onObject, Except.mapError]
    | ok obj => simp [onObject, Except.mapError, without, and_comm]
  | _ => cases h

end BlockMap

/-- What a request can do to the blocks of a repo. -/
theorem PlainBroker.event_blocks {P : Primitives} {W : Wire} {E : Env} {user : PubKey}
    {msg : BrokerMessage} {b b' : PlainBroker} {out : Option (BrokerMessage × Option Later)}
    (h : b.event P W (.request E user msg) = some (out, b')) (r : PubKey) :
    b'.blocks r = b.blocks r ∧
      (∀ o id content, msg.repoStoreRequest = some (o, id, content) → b.repo o ≠ .ok r) ∨
    ∃ o id content reply, msg.repoStoreRequest = some (o, id, content) ∧ b.repo o = .ok r ∧
      (b.blocks r).answer P E content = some (reply, b'.blocks r) := by
  unfold PlainBroker.event at h
  dsimp only at h
  cases hmsg : msg.repoStoreRequest with
  | none =>
    rw [hmsg] at h
    obtain ⟨seen, -, hseen⟩ := Option.map_eq_some_iff.mp h
    cases hseen
    exact .inl ⟨rfl, nofun⟩
  | some request =>
    obtain ⟨o, id, content⟩ := request
    rw [hmsg] at h
    dsimp only at h
    cases hrepo : b.repo o with
    | error e =>
      rw [hrepo] at h
      cases h
      refine .inl ⟨rfl, fun o' id' content' hmsg' hr => ?_⟩
      cases hmsg'
      rw [hrepo] at hr
      cases hr
    | ok r' =>
      rw [hrepo] at h
      obtain ⟨⟨reply, m⟩, hanswer, hseen⟩ := Option.map_eq_some_iff.mp h
      cases hseen
      by_cases hr : r = r'
      · subst hr
        refine .inr ⟨o, id, content, reply, rfl, hrepo, ?_⟩
        dsimp only
        rw [hanswer, Function.update_self]
      · refine .inl ⟨Function.update_of_ne hr .., fun o' id' content' hmsg' hr' => ?_⟩
        cases hmsg'
        rw [hrepo, Except.ok.injEq] at hr'
        exact hr hr'.symm

namespace BrokerServer

variable {P : Primitives} {W : Wire} {B : Set Block} {E : Env} {sv sv' : BrokerServer}
  {o : OverlayId} {r : PubKey} {x : BlockId} {blk : Block}

/-- The broker after an event. -/
def afterEvent (P : Primitives) (W : Wire) (sv : BrokerServer) (e : BrokerEvent) :
    Option BrokerServer :=
  (event P W sv e).map Prod.snd

namespace Plain

/-- A block that is put is the one that is stored under its id, if there is one. -/
theorem stored_eq (h : sv.Plain P B) (hP : P.SerdeLaws)
    (hdistinct : LmdbRepoStore.IdsDistinct P B) {b : Block} (hb : b ∈ B)
    (hblk : (sv.forget P).blocks r (b.id P) = some blk) : b.stored = blk := by
  obtain ⟨ser, hser, hdecoded⟩ := Option.bind_eq_some_iff.mp hblk
  obtain ⟨b', hb', hid, hdecoded'⟩ := (h.unsynced r).stored hP hser
  rw [hdecoded, Option.some.injEq] at hdecoded'
  rw [hdecoded', Block.stored, Block.stored, hdistinct b hb b' hb' hid.symm]

/-- What an event does to a block of a repo. -/
theorem blocks_after (hP : P.SerdeLaws) (hdistinct : LmdbRepoStore.IdsDistinct P B)
    (hB : ∀ b ∈ B, b.Valid P) {e : BrokerEvent} (he : e.Opens ∧ e.PutsFrom B) (h : sv.Plain P B)
    (hafter : afterEvent P W sv e = some sv') :
    (sv'.forget P).blocks r x = some blk ↔ e.Puts P r x blk sv ∨
      (sv.forget P).blocks r x = some blk ∧ ¬ e.Deletes P r x sv := by
  obtain ⟨⟨out, sv₁⟩, hevent, rfl⟩ := Option.map_eq_some_iff.mp hafter
  have hplain : (sv.forget P).event P W e = some (out, sv₁.forget P) := by
    rw [← h.event_eq hP hdistinct hB he, hevent]
    rfl
  cases e with
  | restart =>
    obtain ⟨-, hforget⟩ := Prod.mk.inj (Option.some.inj hplain)
    rw [← hforget]
    exact ⟨fun hx => .inr ⟨hx, fun h => h⟩, fun hx => (hx.resolve_left fun h => h).1⟩
  | request E user msg =>
    rcases PlainBroker.event_blocks hplain r with ⟨hblocks, hnot⟩ |
      ⟨o, id, content, reply, hmsg, hrepo, hanswer⟩
    · rw [hblocks]
      constructor
      · refine fun hx => .inr ⟨hx, ?_⟩
        rintro ⟨o, id, oid, obj, hmsg, hrepo, -⟩
        exact hnot o id _ hmsg (forget_repo_eq_ok.mpr hrepo)
      · rintro (⟨o, id, b, hmsg, hrepo, -⟩ | ⟨hx, -⟩)
        · exact absurd (forget_repo_eq_ok.mpr hrepo) (hnot o id _ hmsg)
        · exact hx
    · have hrepo : sv.RepoOf o r := forget_repo_eq_ok.mp hrepo
      have hview := (h.unsynced r).view_eq hP
      rw [BlockMap.answer_blocks hanswer fun b hb hblk =>
        h.stored_eq hP hdistinct (he.2 o id b (hb ▸ hmsg)) hblk]
      refine or_congr ?_ (and_congr_right fun _ => not_congr ?_)
      · constructor
        · rintro ⟨b, rfl, hid, hblk⟩
          exact ⟨o, id, b, hmsg, hrepo, hid, hblk⟩
        · rintro ⟨o', id', b, hput, -, hid, hblk⟩
          rw [hmsg] at hput
          cases hput
          exact ⟨b, rfl, hid, hblk⟩
      · constructor
        · rintro ⟨oid, obj, rfl, hobj, hx⟩
          exact ⟨o, id, oid, obj, hmsg, hrepo, hview ▸ hobj, hx⟩
        · rintro ⟨o', id', oid, obj, hdel, -, hobj, hx⟩
          rw [hmsg] at hdel
          cases hdel
          exact ⟨oid, obj, rfl, hview ▸ hobj, hx⟩

/-- What a request for a block is answered. -/
theorem get_answer (hP : P.SerdeLaws) (hdistinct : LmdbRepoStore.IdsDistinct P B)
    (hB : ∀ b ∈ B, b.Valid P) (h : sv.Plain P B) (hE : E.Opens) (hrepo : sv.RepoOf o r)
    (user : PubKey) (id : UInt64) (topic : Option PubKey) (padding : Bytes) : ∃ sv',
    BrokerServer.event P W sv (.request E user (.getOne o id x topic padding)) =
      some (some (BrokerProtocolHandler.sendBlockStreamResponseToClient W
        (((sv.forget P).blocks r x).elim (.error .notFound) fun blk => .ok [blk]) id o 20),
        sv') := by
  have hrequest : (BrokerMessage.getOne o id x topic padding).repoStoreRequest =
      some (o, id, .blockGet ⟨x, false, topic⟩) := rfl
  have he : (BrokerEvent.request E user (.getOne o id x topic padding)).Opens ∧
      (BrokerEvent.request E user (.getOne o id x topic padding)).PutsFrom B :=
    ⟨hE, fun o id b hput => by cases hput⟩
  have hevent := h.event_eq (W := W) hP hdistinct hB he
  have hplain : (sv.forget P).event P W (.request E user (.getOne o id x topic padding)) =
      some (some (BrokerProtocolHandler.sendBlockStreamResponseToClient W
        (((sv.forget P).blocks r x).elim (.error .notFound) fun blk => .ok [blk]) id o 20),
        sv.forget P) := by
    unfold PlainBroker.event
    dsimp only
    rw [hrequest]
    dsimp only
    rw [forget_repo_eq_ok.mpr hrepo]
    simp only [BlockMap.answer, BlockMap.getBlock, Bool.false_eq_true, if_false, Option.map_some,
      BlockMap.view, Function.update_eq_self]
    cases (sv.forget P).blocks r x <;> rfl
  rw [hplain] at hevent
  obtain ⟨⟨out, sv'⟩, hout, hsame⟩ := Option.map_eq_some_iff.mp hevent
  obtain ⟨rfl, -⟩ := Prod.mk.inj hsame
  exact ⟨sv', hout⟩

end Plain

end BrokerServer

open BrokerServer in
/-- At the end of any run a request for a block is answered with the block if it has been put in the
repo and no object with it has been deleted since, and otherwise that it is not found. -/
theorem served_iff_since {P : Primitives} (hP : P.SerdeLaws) {W : Wire} {B : Set Block}
    (hdistinct : LmdbRepoStore.IdsDistinct P B) (hB : ∀ b ∈ B, b.Valid P) {sv : BrokerServer}
    (hnew : BrokerServer.new ∅ .localMode (fun _ => .empty) = some (.ok sv))
    {events : List BrokerEvent} (hevents : ∀ e ∈ events, e.Opens ∧ e.PutsFrom B)
    {sv' : BrokerServer} (hrun : Steps.run (afterEvent P W) sv events = some sv') {E : Env}
    (hE : E.Opens) {o : OverlayId} {r : PubKey} (hrepo : sv'.RepoOf o r) (user : PubKey)
    (id : UInt64) (x : BlockId) (topic : Option PubKey) (padding : Bytes) :
    ∃ res sv'', event P W sv' (.request E user (.getOne o id x topic padding)) =
      some (some (BrokerProtocolHandler.sendBlockStreamResponseToClient W res id o 20), sv'') ∧
      (res = .error .notFound ∨ ∃ blk, res = .ok [blk]) ∧
      ∀ blk, res = .ok [blk] ↔
        Steps.Since (afterEvent P W) (BrokerEvent.Puts P r x blk) (BrokerEvent.Deletes P r x) sv
          events := by
  obtain ⟨h, hforget⟩ := Plain.new (P := P) (B := B) hnew
  have hkeeps : ∀ {sv e sv'}, e.Opens ∧ e.PutsFrom B → Plain P B sv →
      afterEvent P W sv e = some sv' → Plain P B sv' := by
    intro sv e sv' he h hafter
    obtain ⟨⟨out, sv₁⟩, hevent, rfl⟩ := Option.map_eq_some_iff.mp hafter
    exact h.event hP hdistinct hB he hevent
  have h' : sv'.Plain P B := Steps.run_invariant_along (fun h he hafter => hkeeps he h hafter) h
    (Steps.along_of_forall hevents sv) hrun
  have hsince : ∀ blk, (sv'.forget P).blocks r x = some blk ↔ Steps.Since (afterEvent P W)
      (BrokerEvent.Puts P r x blk) (BrokerEvent.Deletes P r x) sv events := by
    intro blk
    refine Steps.holds_iff_since (Q := fun sv => (sv.forget P).blocks r x = some blk) hkeeps
      (fun he h hafter => h.blocks_after hP hdistinct hB he hafter) hevents h ?_ hrun
    rw [hforget]
    exact fun h => by cases h
  obtain ⟨sv'', hget⟩ := h'.get_answer hP hdistinct hB hE hrepo user id topic padding (x := x)
  refine ⟨_, sv'', hget, ?_, fun blk => ?_⟩
  · cases (sv'.forget P).blocks r x with
    | none => exact .inl rfl
    | some blk => exact .inr ⟨blk, rfl⟩
  · rw [← hsince blk]
    cases (sv'.forget P).blocks r x <;> simp

namespace PlainLife

open TwoUsers TwoOverlays OverlayAccess RestartedTwice BrokerServer

theorem served_iff_since_events : ∃ sv', Steps.run (afterEvent P wire) newBroker events = some sv' ∧
    sv'.RepoOf overlay TwoOverlays.repo ∧ ∃ res sv'',
      event P wire sv' (.request env alice (.getOne overlay 6 (block.id P) none [])) =
        some (some (BrokerProtocolHandler.sendBlockStreamResponseToClient wire res 6 overlay 20),
          sv'') ∧
      (res = .error .notFound ∨ ∃ blk, res = .ok [blk]) ∧
      ∀ blk, res = .ok [blk] ↔ Steps.Since (afterEvent P wire)
        (BrokerEvent.Puts P TwoOverlays.repo (block.id P) blk)
        (BrokerEvent.Deletes P TwoOverlays.repo (block.id P)) newBroker events := by
  have hrepo : ((Steps.run (afterEvent P wire) newBroker events).bind fun sv => sv.repo overlay) =
      some TwoOverlays.repo := by decide +kernel
  obtain ⟨sv', hrun, hrepo⟩ := Option.bind_eq_some_iff.mp hrepo
  have hrepo : sv'.RepoOf overlay TwoOverlays.repo := repo_eq_some.mp hrepo
  exact ⟨sv', hrun, hrepo, served_iff_since Reference.serdeLaws idsDistinct block_valid
    new_newBroker events_ok hrun opens_env hrepo alice 6 (block.id P) none []⟩

end PlainLife

end Lofire
