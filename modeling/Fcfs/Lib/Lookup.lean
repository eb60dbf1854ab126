import Mathlib.Logic.Function.Basic
import Mathlib.Logic.Relation

/-! # Resolving through parents

Every key but the roots has a parent, and resolves to what is looked up for it in what its parent
resolves to. That depends on the lookups for the key and for those above it, and on no other
(`Resolves.congr`). So a cache of results stays accurate when only such lookups change as no cached key
depends on (`Accurate.congr`). -/

namespace Fcfs.Lib.Lookup

variable {K F : Type*} (up : K → Option K) (g₀ : F) (look : F → K → F)

/-- **What a key resolves to**: a root to `g₀`, and any other key to what is looked up for it in what
its parent resolves to. -/
inductive Resolves : K → F → Prop
  | root {k : K} (h : up k = none) : Resolves k g₀
  | step {k k' : K} {g : F} (h : up k = some k') (hpar : Resolves k' g) : Resolves k (look g k)

/-- **The lookups behind a key**: for `r`, the key itself or one above it, in `g`. -/
def Asks (k : K) (g : F) (r : K) : Prop :=
  Relation.ReflTransGen (fun x y => up x = some y) k r ∧ ∃ r', up r = some r' ∧ Resolves up g₀ look r' g

/-- **The cache is accurate.** -/
def Accurate (c : K → Option F) : Prop := ∀ k f, c k = some f → Resolves up g₀ look k f

variable {up g₀ look} {look' : F → K → F} {c : K → Option F} {k : K} {f f' : F}

theorem Resolves.unique (h : Resolves up g₀ look k f) (h' : Resolves up g₀ look k f') : f = f' := by
  induction h generalizing f' with
  | root hr =>
    cases h' with
    | root _ => rfl
    | step hs _ => exact absurd (hr.symm.trans hs) (by simp)
  | step hs _ ih =>
    cases h' with
    | root hr => exact absurd (hr.symm.trans hs) (by simp)
    | step hs' hpar' =>
      obtain rfl := Option.some.inj (hs.symm.trans hs')
      rw [ih hpar']

theorem Resolves.inv {P : F → Prop} (h0 : P g₀) (hlook : ∀ g k, P g → P (look g k))
    (h : Resolves up g₀ look k f) : P f := by
  induction h with
  | root _ => exact h0
  | step _ _ ih => exact hlook _ _ ih

/-- **Other lookups do not matter.** -/
theorem Resolves.congr (h : Resolves up g₀ look k f)
    (hsame : ∀ g r, Asks up g₀ look k g r → look' g r = look g r) : Resolves up g₀ look' k f := by
  induction h with
  | root hr => exact Resolves.root hr
  | step hs hpar ih =>
    rw [← hsame _ _ ⟨Relation.ReflTransGen.refl, _, hs, hpar⟩]
    refine Resolves.step hs (ih fun g r hask => hsame g r ⟨?_, hask.2⟩)
    exact Relation.ReflTransGen.head hs hask.1

/-- **A cache stays accurate** when nothing changes that a cached key asks for. -/
theorem Accurate.congr (h : Accurate up g₀ look c)
    (hsame : ∀ k f, c k = some f → ∀ g r, Asks up g₀ look k g r → look' g r = look g r) :
    Accurate up g₀ look' c :=
  fun k f hk => (h k f hk).congr (hsame k f hk)

theorem Accurate.add [DecidableEq K] (h : Accurate up g₀ look c) (hk : Resolves up g₀ look k f) :
    Accurate up g₀ look (Function.update c k (some f)) := by
  intro x y hx
  by_cases hxk : x = k
  · subst hxk
    rw [Function.update_self] at hx
    obtain rfl := Option.some.inj hx
    exact hk
  · rw [Function.update_of_ne hxk] at hx
    exact h x y hx

end Fcfs.Lib.Lookup
