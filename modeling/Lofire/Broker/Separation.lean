import Lofire.Broker.Restart

/-!
# The repos of a broker are separate

A local broker keeps the repo stores of all its repos behind one set of records. What it replies
about one repo, and what it keeps of it, does not depend on the requests about the repo stores of
the other repos (`repos_separate`): they could as well be left out.
-/

namespace Lofire

open Lib LmdbBrokerStore

namespace BrokerServer

/-- The repo of an overlay, by the records. -/
def repo (sv : BrokerServer) (o : OverlayId) : Option PubKey :=
  (runOn (do
    Overlay.openId o
    Overlay.repo o) sv.store).1.toOption

/-- The event is about the repo store of another repo, or a restart. -/
def elsewhere (r : PubKey) (sv : BrokerServer) : BrokerEvent → Bool
  | .request _ _ msg => (msg.repoStoreOverlay.bind sv.repo).any (· ≠ r)
  | .restart => true

variable {P : Primitives} {W : Wire} {sv : BrokerServer} {o : OverlayId} {r : PubKey}

theorem repo_eq_some : sv.repo o = some r ↔ sv.RepoOf o r := by
  unfold repo RepoOf
  by_cases hexists : (Overlay.record o).Exists sv.store
  · have hopen : runOn (Overlay.openId o) sv.store = (.ok (), sv.store) := by
      rw [Overlay.openId, Record.runOn_openRecord, if_pos hexists]
    have hstate : (runOn (Overlay.repo o) sv.store).2 = sv.store :=
      Record.runOn_property_state _
    rw [runOn_bind_ok hopen, and_iff_right hexists]
    generalize runOn (Overlay.repo o) sv.store = out at hstate ⊢
    obtain ⟨_ | r', s⟩ := out
    · constructor <;> exact fun h => by cases h
    · obtain rfl : s = sv.store := hstate
      simp [Except.toOption]
  · have hopen : runOn (Overlay.openId o) sv.store = (.error .notFound, sv.store) := by
      rw [Overlay.openId, Record.runOn_openRecord, if_neg hexists]
    rw [runOn_bind_error hopen]
    exact iff_of_false (fun h => by cases h) fun h => hexists h.1

theorem elsewhere_request {E : Env} {user : PubKey} {msg : BrokerMessage} :
    elsewhere r sv (.request E user msg) = true ↔
      ∃ o r', msg.repoStoreOverlay = some o ∧ sv.RepoOf o r' ∧ r' ≠ r := by
  unfold elsewhere
  simp only [Option.any_eq_true, Option.bind_eq_some_iff, repo_eq_some, decide_eq_true_eq]
  constructor
  · rintro ⟨r', ⟨o, ho, hr'⟩, hne⟩
    exact ⟨o, r', ho, hr', hne⟩
  · rintro ⟨o, r', ho, hr', hne⟩
    exact ⟨r', ⟨o, ho, hr'⟩, hne⟩

/-- What is about other repos is hidden from a repo. -/
theorem unwinding_elsewhere (r : PubKey) : Unwinding (event P W) (elsewhere r) BrokerEvent.Opens
    (SameOn fun id => id = .repo r) where
  hides {_ _ e _ _} hE h hhidden hevent := by
    cases e with
    | restart => exact h.event_restart hevent
    | request E user msg =>
      obtain ⟨o, r', ho, hr', hne⟩ := elsewhere_request.mp hhidden
      exact h.event_hidden hE ho hr' (fun heq => hne (RepoStoreId.repo.inj heq)) hevent
  same {_ _ e _ _} hE h hseen hevent := by
    cases e with
    | restart => cases hseen
    | request E user msg =>
      refine h.event_request hE (fun o ho r' hr' => ?_) hevent
      by_contra hne
      rw [elsewhere_request.mpr ⟨o, r', ho, hr', fun heq => hne (heq ▸ rfl)⟩] at hseen
      cases hseen

end BrokerServer

open BrokerServer in
/-- In a run of a local broker, with any requests of any users and any restarts, the requests about
the repo stores of the other repos can be left out: the other requests have the same replies, and
the records and the repo store of the repo are the same in the end. -/
theorem repos_separate {P : Primitives} {W : Wire} {disk : RepoStoreId → LmdbRepoStore}
    {sv : BrokerServer} (hnew : BrokerServer.new ∅ .localMode disk = some (.ok sv))
    {events : List BrokerEvent} (hopens : ∀ e ∈ events, e.Opens) (r : PubKey)
    {replies : List (Option (BrokerMessage × Option Later))} {sv' : BrokerServer}
    (hrun : observe (event P W) (elsewhere r) sv events = some (replies, sv')) :
    ∃ sv'', observe (event P W) nothing sv (purge (event P W) (elsewhere r) sv events) =
      some (replies, sv'') ∧ sv''.store = sv'.store ∧ sv''.disk (.repo r) = sv'.disk (.repo r) := by
  have hR : SameOn (fun id => id = .repo r) sv sv := ⟨.new hnew, .new hnew, rfl, fun _ _ => rfl⟩
  obtain ⟨sv'', hrun', h⟩ := (unwinding_elsewhere r).run hopens hR hrun
  exact ⟨sv'', hrun', h.store_eq.symm, (h.disk_eq _ rfl).symm⟩

namespace TwoRepos

open TwoUsers TwoOverlays OverlayAccess RestartedTwice BrokerServer

def otherRepo : PubKey := ⟨.replicate 32 9⟩

/-- A request of `alice` to an overlay. -/
def request (overlay : OverlayId) (id : UInt64) (content : BrokerOverlayRequestContent) :
    BrokerEvent :=
  .request env alice
    (.v0 (.brokerOverlayMessage ⟨overlay, .brokerOverlayRequest ⟨id, content⟩⟩) [])

/-- The user joins an overlay of each repo, and asks both of them for a block. -/
def events : List BrokerEvent :=
  let id : BlockId := ⟨.replicate 32 8⟩
  life ++ [request otherOverlay 3 (.overlayJoin ⟨secret, some otherRepo, []⟩),
    request overlay 4 (.blockGet ⟨id, false, none⟩),
    request otherOverlay 5 (.blockGet ⟨id, false, none⟩)]

theorem events_open : ∀ e ∈ events, e.Opens := by
  intro e he
  rcases List.mem_append.mp he with he | he
  · exact life_opens e he
  · simp only [request, List.mem_cons, List.not_mem_nil, or_false] at he
    rcases he with rfl | rfl | rfl <;> exact opens_env

/-- The second request for a block is left out. -/
theorem repos_separate_events : ∃ replies sv' sv'',
    observe (event P wire) (elsewhere repo) newBroker events = some (replies, sv') ∧
    observe (event P wire) nothing newBroker
      (purge (event P wire) (elsewhere repo) newBroker events) = some (replies, sv'') ∧
    sv''.store = sv'.store ∧ sv''.disk (.repo repo) = sv'.disk (.repo repo) ∧
    (purge (event P wire) (elsewhere repo) newBroker events).length = 4 := by
  have hreturns : (observe (event P wire) (elsewhere repo) newBroker events).isSome = true := by
    decide +kernel
  obtain ⟨⟨replies, sv'⟩, hrun⟩ := Option.isSome_iff_exists.mp hreturns
  obtain ⟨sv'', hrun', hstore, hdisk⟩ := repos_separate new_newBroker events_open repo hrun
  exact ⟨replies, sv', sv'', hrun, hrun', hstore, hdisk, by decide +kernel⟩

end TwoRepos

end Lofire
