/-
The machine that a program runs on, and the world around its state.

The allocator is a foreign object: whether it grows a vector is a function of the world `Ω`.
-/
import Zencodec.Lib.Act

namespace Zencodec

variable {Ω σ ε α : Type}

/-- The range of `usize`, and whether the allocator grows a vector. -/
structure Host (Ω : Type) where
  usizeMax : ℕ
  tryReserve : Ω → Bool × Ω

/-- `try_reserve`, whose failure is `e`. -/
def Host.reserve (host : Host Ω) (e : ε) : Act Ω ε Unit := fun w =>
  (if (host.tryReserve w).1 then .ok () else .error e, (host.tryReserve w).2)

/-- `x` on the world, beside a state that it does not see. -/
def onWorld (x : Act Ω ε α) : Act (σ × Ω) ε α := Act.focus Prod.snd (fun w t => (t.1, w)) x

@[simp] theorem spec_onWorld (x : Act Ω ε α) {Q : α → σ × Ω → Prop} {E : ε → σ × Ω → Prop}
    {t : σ × Ω} : Act.Spec (onWorld x) Q E t ↔
      Act.Spec x (fun a w => Q a (t.1, w)) (fun e w => E e (t.1, w)) t.2 :=
  Act.spec_focus _ _ _

theorem Host.spec_reserve {host : Host Ω} {e : ε} {w : Ω} {Q : Unit → Ω → Prop}
    {E : ε → Ω → Prop} (hQ : Q () (host.tryReserve w).2) (hE : E e (host.tryReserve w).2) :
    Act.Spec (host.reserve e) Q E w := by
  refine Act.spec_of_run (fun _ _ => hQ) (fun e' he => ?_)
  have : e' = e := by
    unfold Host.reserve at he
    split at he
    · cases he
    · exact (Except.error.inj he).symm
  exact this ▸ hE

end Zencodec
