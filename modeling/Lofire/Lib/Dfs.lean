import Mathlib.Data.Finset.Card
import Mathlib.Data.Finset.SDiff
import Mathlib.Logic.Relation

/-!
# Depth-first exploration

`explore` visits the vertices of a graph that are reached from a vertex without passing or entering
a vertex at which `stop` holds. The vertices that are visited are those of `Reach`
(`explore_spec`), and the number of vertices not yet visited bounds the depth of the recursion.
-/

namespace Lofire.Lib.Dfs

variable {α : Type} (succ : α → List α) (stop : α → Bool)

/-- The vertices visited before, and those visited from `a`. -/
def explore [DecidableEq α] : Nat → α → Finset α → Option (Finset α)
  | 0, _, _ => none
  | fuel + 1, a, visited =>
    if stop a then some visited
    else (succ a).foldlM
      (fun visited b => if b ∈ visited then some visited else explore fuel b visited)
      (insert a visited)

/-- There is a path from `a` to `b` on which `stop` holds nowhere. -/
def Reach (a b : α) : Prop :=
  stop a = false ∧ Relation.ReflTransGen (fun x y => y ∈ succ x ∧ stop y = false) a b

/-- What an exploration adds to the visited vertices, for the start vertices `l`. -/
structure Explored (l : List α) (visited v : Finset α) : Prop where
  subset : visited ⊆ v
  reach : ∀ b ∈ v, b ∈ visited ∨ ∃ a ∈ l, Reach succ stop a b
  start : ∀ a ∈ l, stop a = false → a ∈ v
  closed : ∀ b ∈ v, b ∉ visited → ∀ c ∈ succ b, stop c = false → c ∈ v

variable {succ stop} {V : Finset α}

theorem Reach.cons {a b c : α} (ha : stop a = false) (hb : b ∈ succ a)
    (h : Reach succ stop b c) : Reach succ stop a c :=
  ⟨ha, .head ⟨hb, h.1⟩ h.2⟩

theorem Reach.path {a b : α} (h : Reach succ stop a b) :
    Relation.ReflTransGen (fun x y => y ∈ succ x) a b := by
  obtain ⟨-, hpath⟩ := h
  induction hpath with
  | refl => exact .refl
  | tail _ hstep ih => exact ih.tail hstep.1

theorem Reach.stop_eq_false {a b : α} (h : Reach succ stop a b) : stop b = false := by
  obtain ⟨ha, hpath⟩ := h
  cases hpath with
  | refl => exact ha
  | tail _ hstep => exact hstep.2

/-- Only the vertices of a closed set matter. -/
theorem reach_congr {succ' : α → List α} (heq : ∀ a ∈ V, succ' a = succ a)
    (hV : ∀ a ∈ V, ∀ b ∈ succ a, b ∈ V) {a b : α} (ha : a ∈ V) :
    Reach succ' stop a b ↔ Reach succ stop a b := by
  refine and_congr_right fun hstop => ?_
  clear hstop
  constructor
  · intro hpath
    induction hpath using Relation.ReflTransGen.head_induction_on with
    | refl => exact .refl
    | head hstep _ ih =>
      rw [heq _ ha] at hstep
      exact .head hstep (ih (hV _ ha _ hstep.1))
  · intro hpath
    induction hpath using Relation.ReflTransGen.head_induction_on with
    | refl => exact .refl
    | head hstep _ ih =>
      have hrest := ih (hV _ ha _ hstep.1)
      rw [← heq _ ha] at hstep
      exact .head hstep hrest

theorem Explored.cons {a : α} {l : List α} {visited v w : Finset α}
    (ha : Explored succ stop [a] visited v) (hl : Explored succ stop l v w) :
    Explored succ stop (a :: l) visited w where
  subset := ha.subset.trans hl.subset
  reach := by
    intro b hb
    obtain hb | ⟨c, hc, hreach⟩ := hl.reach b hb
    · obtain hb | ⟨c, hc, hreach⟩ := ha.reach b hb
      · exact .inl hb
      · rw [List.mem_singleton] at hc
        exact .inr ⟨c, hc ▸ List.mem_cons_self, hreach⟩
    · exact .inr ⟨c, List.mem_cons_of_mem a hc, hreach⟩
  start := by
    intro b hb hstop
    obtain rfl | hb := List.mem_cons.mp hb
    · exact hl.subset (ha.start b (List.mem_singleton_self b) hstop)
    · exact hl.start b hb hstop
  closed := by
    intro b hb hnew c hc hstop
    by_cases hbv : b ∈ v
    · exact hl.subset (ha.closed b hbv hnew c hc hstop)
    · exact hl.closed b hb hbv c hc hstop

/-- An exploration from nothing visits what is reached. -/
theorem Explored.mem_iff {a : α} {v : Finset α} (h : Explored succ stop [a] ∅ v) {b : α} :
    b ∈ v ↔ Reach succ stop a b := by
  constructor
  · intro hb
    obtain hb | ⟨c, hc, hreach⟩ := h.reach b hb
    · exact absurd hb (Finset.notMem_empty b)
    · rwa [← List.mem_singleton.mp hc]
  · rintro ⟨ha, hpath⟩
    induction hpath with
    | refl => exact h.start a (List.mem_singleton_self a) ha
    | tail _ hstep ih => exact h.closed _ ih (Finset.notMem_empty _) _ hstep.1 hstep.2

variable [DecidableEq α]

/-- The successors of `a` are explored after `a` is marked. -/
theorem Explored.of_succ {a : α} {visited v : Finset α} (ha : stop a = false)
    (h : Explored succ stop (succ a) (insert a visited) v) :
    Explored succ stop [a] visited v where
  subset := (Finset.subset_insert a visited).trans h.subset
  reach := by
    intro b hb
    obtain hb | ⟨c, hc, hreach⟩ := h.reach b hb
    · obtain rfl | hb := Finset.mem_insert.mp hb
      · exact .inr ⟨b, List.mem_singleton_self b, ha, .refl⟩
      · exact .inl hb
    · exact .inr ⟨a, List.mem_singleton_self a, hreach.cons ha hc⟩
  start := by
    intro b hb _
    rw [List.mem_singleton.mp hb]
    exact h.subset (Finset.mem_insert_self a visited)
  closed := by
    intro b hb hnew c hc hstop
    by_cases hba : b = a
    · rw [hba] at hc
      exact h.start c hc hstop
    · refine h.closed b hb ?_ c hc hstop
      rw [Finset.mem_insert]
      exact fun hmem => hmem.elim hba hnew

/-- Every exploration with enough fuel for the vertices not yet visited succeeds. -/
theorem explore_explored (hV : ∀ a ∈ V, ∀ b ∈ succ a, b ∈ V) (fuel : Nat) :
    ∀ (a : α) (visited : Finset α), a ∈ V → a ∉ visited → (V \ visited).card ≤ fuel →
      ∃ v, explore succ stop fuel a visited = some v ∧ Explored succ stop [a] visited v := by
  induction fuel with
  | zero =>
    intro a visited ha hnew hcard
    have hempty := Finset.card_eq_zero.mp (Nat.le_zero.mp hcard)
    exact absurd (Finset.mem_sdiff.mpr ⟨ha, hnew⟩) (by simp [hempty])
  | succ fuel ih =>
    intro a visited ha hnew hcard
    rw [explore]
    by_cases hstop : stop a = true
    · rw [if_pos hstop]
      refine ⟨visited, rfl, fun _ h => h, fun b hb => .inl hb, ?_, fun b hb h => absurd hb h⟩
      intro b hb hb'
      rw [List.mem_singleton.mp hb, hstop] at hb'
      cases hb'
    · rw [if_neg hstop]
      have hfold : ∀ (l : List α) (visited : Finset α), (∀ b ∈ l, b ∈ V) →
          (V \ visited).card ≤ fuel → ∃ v,
          l.foldlM (fun visited b => if b ∈ visited then some visited
            else explore succ stop fuel b visited) visited = some v ∧
            Explored succ stop l visited v := by
        intro l
        induction l with
        | nil =>
          intro visited _ _
          exact ⟨visited, rfl, fun _ h => h, fun b hb => .inl hb, fun _ h => absurd h (by simp),
            fun b hb h => absurd hb h⟩
        | cons b l ihl =>
          intro visited hl hcard
          have hstep : ∃ v, (if b ∈ visited then some visited
              else explore succ stop fuel b visited) = some v ∧
              Explored succ stop [b] visited v := by
            by_cases hb : b ∈ visited
            · refine ⟨visited, if_pos hb, fun _ h => h, fun c hc => .inl hc, ?_,
                fun c hc h => absurd hc h⟩
              intro c hc _
              rwa [List.mem_singleton.mp hc]
            · rw [if_neg hb]
              exact ih b visited (hl b List.mem_cons_self) hb hcard
          obtain ⟨v, hv, hexp⟩ := hstep
          obtain ⟨w, hw, hexpl⟩ := ihl v (fun c hc => hl c (List.mem_cons_of_mem b hc))
            ((Finset.card_le_card (Finset.sdiff_subset_sdiff (subset_refl V) hexp.subset)).trans
              hcard)
          refine ⟨w, ?_, hexp.cons hexpl⟩
          rw [List.foldlM_cons, hv]
          exact hw
      have hless : (V \ insert a visited).card ≤ fuel := by
        have hlt : (V \ insert a visited).card < (V \ visited).card := by
          apply Finset.card_lt_card
          rw [Finset.ssubset_iff_of_subset
            (Finset.sdiff_subset_sdiff (subset_refl V) (Finset.subset_insert a visited))]
          exact ⟨a, Finset.mem_sdiff.mpr ⟨ha, hnew⟩, by simp⟩
        omega
      obtain ⟨v, hv, hexp⟩ := hfold (succ a) (insert a visited) (hV a ha) hless
      exact ⟨v, hv, hexp.of_succ (Bool.eq_false_iff.mpr hstop)⟩

/-- The exploration succeeds and visits what is reached. -/
theorem explore_spec (hV : ∀ a ∈ V, ∀ b ∈ succ a, b ∈ V) {a : α} (ha : a ∈ V) {fuel : Nat}
    (hfuel : V.card ≤ fuel) :
    ∃ v, explore succ stop fuel a ∅ = some v ∧ ∀ b, b ∈ v ↔ Reach succ stop a b := by
  obtain ⟨v, hv, hexp⟩ : ∃ v, explore succ stop fuel a ∅ = some v ∧ Explored succ stop [a] ∅ v :=
    explore_explored hV fuel a ∅ ha (Finset.notMem_empty a) (by simpa using hfuel)
  exact ⟨v, hv, fun b => hexp.mem_iff⟩

end Lofire.Lib.Dfs
