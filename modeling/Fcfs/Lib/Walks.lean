import Mathlib.Data.List.Induction
import Mathlib.Data.List.Nodup

/-! # Walks in a directory tree

Directories are nodes with lists of named entries, each of which leads to a node and may be marked a
directory. `Walk` follows a list of names from a node, one entry after the other, and never leaves an
unmarked one; `Through` also asks that the last is marked. A walk along a longer list is a walk
through the front of it and one step more (`walk_snoc`), which is how a path is resolved from its
parent. -/

namespace Fcfs.Lib.Walks

/-- Directories over the nodes `F`, with names in `N` and entries in `E`. -/
structure Dirs (F N E : Type) where
  list : F → List E
  name : E → N
  node : E → F
  isDir : E → Prop

variable {F N E : Type} (D : Dirs F N E)

/-- The names lead from one node to the other, through directories. -/
inductive Walk : F → List N → F → Prop
  | nil (g : F) : Walk g [] g
  | cons {g f : F} {e : E} {ns : List N} (he : e ∈ D.list g) (hdir : ns ≠ [] → D.isDir e)
      (hrest : Walk (D.node e) ns f) : Walk g (D.name e :: ns) f

/-- The names lead from one node to the other, a directory. -/
inductive Through : F → List N → F → Prop
  | nil (g : F) : Through g [] g
  | cons {g f : F} {e : E} {ns : List N} (he : e ∈ D.list g) (hdir : D.isDir e)
      (hrest : Through (D.node e) ns f) : Through g (D.name e :: ns) f

variable {D}

theorem Through.walk {g f : F} {ns : List N} (h : Through D g ns f) : Walk D g ns f := by
  induction h with
  | nil g => exact Walk.nil g
  | cons he hdir _ ih => exact Walk.cons he (fun _ => hdir) ih

theorem Through.snoc {g f : F} {ns : List N} (h : Through D g ns f) {e : E} (he : e ∈ D.list f) :
    Walk D g (ns ++ [D.name e]) (D.node e) := by
  induction h with
  | nil g => exact Walk.cons he (fun hne => absurd rfl hne) (Walk.nil _)
  | cons he' hdir _ ih => exact Walk.cons he' (fun _ => hdir) (ih he)

/-- **The last step of a walk.** -/
theorem walk_snoc {g f : F} {ns : List N} {n : N} : Walk D g (ns ++ [n]) f ↔
    ∃ h, Through D g ns h ∧ ∃ e ∈ D.list h, D.name e = n ∧ D.node e = f := by
  constructor
  · intro h
    induction ns generalizing g with
    | nil =>
      cases h with
      | cons he _ hrest =>
        cases hrest
        exact ⟨g, Through.nil g, _, he, rfl, rfl⟩
    | cons m ns ih =>
      cases h with
      | cons he hdir hrest =>
        obtain ⟨k, hthrough, hlast⟩ := ih hrest
        exact ⟨k, Through.cons he (hdir (by simp)) hthrough, hlast⟩
  · rintro ⟨k, hthrough, e, he, rfl, rfl⟩
    exact hthrough.snoc he

theorem through_snoc {g f : F} {ns : List N} {n : N} (h : Through D g (ns ++ [n]) f) :
    ∃ k, Through D g ns k ∧ ∃ e ∈ D.list k, D.isDir e ∧ D.name e = n ∧ D.node e = f := by
  induction ns generalizing g with
  | nil =>
    cases h with
    | cons he hdir hrest =>
      cases hrest
      exact ⟨g, Through.nil g, _, he, hdir, rfl, rfl⟩
  | cons m ns ih =>
    cases h with
    | cons he hdir hrest =>
      obtain ⟨k, hthrough, hlast⟩ := ih hrest
      exact ⟨k, Through.cons he hdir hthrough, hlast⟩

theorem Through.extend {g f : F} {ns : List N} (h : Through D g ns f) {e : E} (he : e ∈ D.list f)
    (hdir : D.isDir e) : Through D g (ns ++ [D.name e]) (D.node e) := by
  induction h with
  | nil g => exact Through.cons he hdir (Through.nil _)
  | cons he' hdir' _ ih => exact Through.cons he' hdir' (ih he)

theorem Walk.exists_first {g f : F} {n : N} {ns : List N} (h : Walk D g (n :: ns) f) :
    ∃ e ∈ D.list g, D.name e = n := by
  cases h with
  | cons he _ _ => exact ⟨_, he, rfl⟩

/-- Two walks along the same names end at the same node, if no directory has two entries of one
name. The induction is on the names, from the last. -/
theorem Walk.unique {g f f' : F} {ns : List N}
    (hnd : ∀ ns h, Through D g ns h → ((D.list h).map D.name).Nodup) (hw : Walk D g ns f)
    (hw' : Walk D g ns f') : f = f' := by
  induction ns using List.reverseRecOn generalizing f f' with
  | nil =>
    cases hw
    cases hw'
    rfl
  | append_singleton ns n ih =>
    obtain ⟨h, hthrough, e, he, hname, rfl⟩ := walk_snoc.mp hw
    obtain ⟨h', hthrough', e', he', hname', rfl⟩ := walk_snoc.mp hw'
    obtain rfl := ih hthrough.walk hthrough'.walk
    rw [List.inj_on_of_nodup_map (hnd _ _ hthrough) he he' (hname.trans hname'.symm)]

section Mono
variable {L : F → List E} {g f : F} {ns : List N}

/-- **A walk goes on to exist** when the directories it can pass only gain entries. -/
theorem Through.mono (hsub : ∀ ns h, Through D g ns h → ∀ e ∈ D.list h, e ∈ L h)
    (h : Through D g ns f) : Through { D with list := L } g ns f := by
  induction h with
  | nil g => exact Through.nil g
  | cons he hdir hrest ih =>
    exact Through.cons (D := { D with list := L }) (hsub _ _ (Through.nil _) _ he) hdir
      (ih fun _ _ hk => hsub _ _ (Through.cons he hdir hk))

theorem Walk.mono (hsub : ∀ ns h, Through D g ns h → ∀ e ∈ D.list h, e ∈ L h)
    (h : Walk D g ns f) : Walk { D with list := L } g ns f := by
  rcases List.eq_nil_or_concat ns with rfl | ⟨ns', n, rfl⟩
  · cases h
    exact Walk.nil g
  · rw [List.concat_eq_append] at h ⊢
    obtain ⟨k, hthrough, e, he, rfl, rfl⟩ := walk_snoc.mp h
    exact (hthrough.mono hsub).snoc (hsub _ _ hthrough e he)

end Mono

end Fcfs.Lib.Walks
