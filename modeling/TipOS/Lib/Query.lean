import Mathlib.Data.Nat.Notation

/-!
# Programs that read a store

A `Query K V α` computes an `α` and asks for the values of keys on the way.  It can be run against a
store with a state, such as a cache (`Query.run`), or read against a plain function from keys to
values (`Query.eval`).  A store that answers with its view, and does not change the view by
answering (`Faithful`), gives the same result as the view (`Faithful.run`).
-/

namespace TipOS.Lib

inductive Query (K V α : Type) : Type
  | pure (a : α)
  | ask (k : K) (f : V → Query K V α)

namespace Query

variable {K V α β σ : Type}

def bind : Query K V α → (α → Query K V β) → Query K V β
  | .pure a, f => f a
  | .ask k g, f => .ask k fun x => (g x).bind f

instance : Monad (Query K V) where
  pure := .pure
  bind := bind

/-- The value of a key. -/
def get (k : K) : Query K V V := .ask k .pure

def eval (view : K → V) : Query K V α → α
  | .pure a => a
  | .ask k f => (f (view k)).eval view

def run (get : K → σ → V × σ) : Query K V α → σ → α × σ
  | .pure a, s => (a, s)
  | .ask k f, s => (f (get k s).1).run get (get k s).2

variable {view : K → V}

@[simp] theorem eval_pure (a : α) : (Pure.pure a : Query K V α).eval view = a := rfl

@[simp] theorem eval_get (k : K) : (get k).eval view = view k := rfl

@[simp] theorem eval_bind (q : Query K V α) (f : α → Query K V β) :
    (q >>= f).eval view = (f (q.eval view)).eval view := by
  induction q with
  | pure a => rfl
  | ask k g ih => exact ih (view k)

end Query

/-- The store answers with what `view` says, and keeps that. -/
structure Faithful {K V σ : Type} (get : K → σ → V × σ) (ok : σ → Prop) (view : σ → K → V) :
    Prop where
  answer : ∀ k s, ok s → (get k s).1 = view s k
  keeps : ∀ k s, ok s → ok (get k s).2
  same : ∀ k s, ok s → view (get k s).2 = view s

variable {K V α σ : Type} {get : K → σ → V × σ} {ok : σ → Prop} {view : σ → K → V}

/-- **A program run against a faithful store** computes what it computes from the view. -/
theorem Faithful.run (h : Faithful get ok view) (q : Query K V α) {s : σ} (hs : ok s) :
    (q.run get s).1 = q.eval (view s) ∧ ok (q.run get s).2 ∧ view (q.run get s).2 = view s := by
  induction q generalizing s with
  | pure a => exact ⟨rfl, hs, rfl⟩
  | ask k f ih =>
    obtain ⟨h1, h2, h3⟩ := ih (get k s).1 (h.keeps k s hs)
    rw [h.same k s hs] at h1 h3
    exact ⟨h1.trans (congrArg (fun x => (f x).eval (view s)) (h.answer k s hs)), h2, h3⟩

end TipOS.Lib
