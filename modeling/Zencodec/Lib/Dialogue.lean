/-
Dialogues.

A `Dialogue q a β` asks questions and, after finitely many answers, ends with a value. It is
the other side of a callback: nothing is known of it but that it ends. A handler answers on a
state of its own, and `play` runs the two. What every answer keeps, every dialogue keeps
(`play_keeps`).
-/
import Mathlib.Order.Basic

/-- A party that asks `q`s, is answered `a`s and ends with a `β`. -/
inductive Dialogue (q a β : Type)
  | done (b : β)
  | ask (x : q) (next : a → Dialogue q a β)

namespace Dialogue

variable {q a β σ : Type}

def play (handler : q → σ → a × σ) : Dialogue q a β → σ → β × σ
  | done b, s => (b, s)
  | ask x next, s => play handler (next (handler x s).1) (handler x s).2

variable {handler : q → σ → a × σ}

theorem play_keeps {I : σ → Prop} (hanswer : ∀ x s, I s → I (handler x s).2) (d : Dialogue q a β) :
    ∀ {s}, I s → I (play handler d s).2 := by
  induction d with
  | done b => exact fun h => h
  | ask x next ih => exact fun h => ih _ (hanswer x _ h)

end Dialogue
