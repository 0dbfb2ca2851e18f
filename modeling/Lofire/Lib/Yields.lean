import Mathlib.Logic.Basic

/-!
# Programs and their results

A program that only reads its state computes what the same program computes in the identity monad.
`Yields` is a relation between programs and results that is kept by sequencing; a function that is
written for any monad is related to its value in the identity monad by all of them.

`tryBind` sequences programs that may fail or not return at all.
-/

namespace Lofire.Lib

/-- A relation between programs and results that is kept by sequencing. -/
structure Yields (m : Type → Type) [Monad m] where
  rel : {α : Type} → m α → α → Prop
  pure : ∀ {α : Type} (a : α), rel (Pure.pure a) a
  bind : ∀ {α β : Type} {x : m α} {a : α} {f : α → m β} {b : β},
    rel x a → rel (f a) b → rel (x >>= f) b

/-- In the identity monad a program is its result. -/
def Yields.id : Yields Id where
  rel x a := x = a
  pure _ := rfl
  bind hx hf := by
    subst hx
    exact hf

/-- A step of a program without effects. -/
theorem id_bind {α β : Type} (x : Id α) (f : α → Id β) : x >>= f = f x := rfl

section TryBind

variable {m : Type → Type} [Monad m] {ε α β : Type}

/-- Go on with `f` if `x` returns a value. -/
def tryBind (x : m (Option (Except ε α))) (f : α → m (Option (Except ε β))) :
    m (Option (Except ε β)) := do
  match ← x with
  | none => Pure.pure none
  | some (.error e) => Pure.pure (some (.error e))
  | some (.ok a) => f a

theorem tryBind_ok {x : Option (Except ε α)} {a : α} (h : x = some (.ok a))
    (f : α → Id (Option (Except ε β))) : tryBind (m := Id) x f = f a := by
  subst h
  rfl

theorem tryBind_error {x : Option (Except ε α)} {e : ε} (h : x = some (.error e))
    (f : α → Id (Option (Except ε β))) : tryBind (m := Id) x f = some (.error e) := by
  subst h
  rfl

theorem Yields.tryBind (Y : Yields m) {x : m (Option (Except ε α))} {a : Option (Except ε α)}
    {f : α → m (Option (Except ε β))} {g : α → Option (Except ε β)} (hx : Y.rel x a)
    (hf : ∀ r, a = some (.ok r) → Y.rel (f r) (g r)) :
    Y.rel (tryBind x f) (Lib.tryBind (m := Id) a g) := by
  refine Y.bind hx ?_
  rcases a with _ | _ | r
  · exact Y.pure _
  · exact Y.pure _
  · exact hf r rfl

end TryBind

end Lofire.Lib
