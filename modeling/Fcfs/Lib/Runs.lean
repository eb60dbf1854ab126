import Mathlib.Logic.Relation

/-! # Runs and logged effects

A system is a step relation; what every step preserves, every run preserves (`inv_of_run`).

Some steps preserve an invariant only as long as their effects stay inside certain bounds, and the
effects of a step are not visible in its arguments but only in a log it leaves behind. `Keeps` says
of two states that the log grew from one to the other, and that the invariant survives provided all
new entries are within bounds. It is reflexive and transitive, so a long operation keeps an
invariant when its parts do, with no premise to carry along. -/

namespace Fcfs.Lib.Runs

variable {σ ε : Type*}

theorem inv_of_run {R : σ → σ → Prop} {Inv : σ → Prop} (hstep : ∀ s s', R s s' → Inv s → Inv s')
    {s s' : σ} (hrun : Relation.ReflTransGen R s s') (hs : Inv s) : Inv s' := by
  induction hrun with
  | refl => exact hs
  | tail _ h ih => exact hstep _ _ h ih

/-- **The log grew from `s` to `s'`, and entries within bounds leave the invariant alone.** -/
def Keeps (log : σ → List ε) (P : ε → Prop) (Inv : σ → Prop) (s s' : σ) : Prop :=
  ∃ new, log s' = new ++ log s ∧ ((∀ e ∈ new, P e) → Inv s → Inv s')

variable {log : σ → List ε} {P Q : ε → Prop} {Inv : σ → Prop} {s t u : σ}

theorem Keeps.refl (s : σ) : Keeps log P Inv s s := ⟨[], rfl, fun _ h => h⟩

theorem Keeps.trans (h : Keeps log P Inv s t) (h' : Keeps log P Inv t u) : Keeps log P Inv s u := by
  obtain ⟨new, hlog, hinv⟩ := h
  obtain ⟨new', hlog', hinv'⟩ := h'
  refine ⟨new' ++ new, by rw [hlog', hlog, List.append_assoc], fun hP hs => ?_⟩
  exact hinv' (fun e he => hP e (List.mem_append_left _ he))
    (hinv (fun e he => hP e (List.mem_append_right _ he)) hs)

theorem Keeps.silent (hlog : log t = log s) (hinv : Inv s → Inv t) : Keeps log P Inv s t :=
  ⟨[], hlog, fun _ => hinv⟩

theorem Keeps.entry {e : ε} (hlog : log t = e :: log s) (hinv : P e → Inv s → Inv t) :
    Keeps log P Inv s t :=
  ⟨[e], hlog, fun hP => hinv (hP e (List.mem_singleton_self e))⟩

/-- The invariant after a step whose new entries are all within bounds. -/
theorem Keeps.inv (h : Keeps log P Inv s t) {new : List ε} (hlog : log t = new ++ log s)
    (hP : ∀ e ∈ new, P e) (hs : Inv s) : Inv t := by
  obtain ⟨new', hlog', hinv⟩ := h
  obtain rfl : new' = new := List.append_cancel_right (hlog'.symm.trans hlog)
  exact hinv hP hs

theorem Keeps.of_run {R : σ → σ → Prop} (hstep : ∀ s s', R s s' → Keeps log P Inv s s')
    (hrun : Relation.ReflTransGen R s t) : Keeps log P Inv s t := by
  induction hrun with
  | refl => exact Keeps.refl s
  | tail _ h ih => exact ih.trans (hstep _ _ h)

end Fcfs.Lib.Runs
