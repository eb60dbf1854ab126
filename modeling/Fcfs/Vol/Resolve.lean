import Fcfs.Vol.Fresh

/-! # Path resolution

`_ops_getattr` resolves a path from its parent: the entry of the last component is looked up in the
directory `fcfs_get_pfid` returns. A path that leads through directories to an entry resolves to it
(`getattrAux_of_walk`). For every other path `fcfs_get_fid` drops the error and returns the root's
identifier, so the rest of a path behind a missing component is looked up in the root
(`resolvesRight_iff`). -/

namespace Fcfs.Vol

open Lib.Bytes Lib.Walks

/-! ### Paths -/

section Split
variable {as bs : List UInt8} (hbs : (47 : UInt8) ∉ bs)
include hbs

theorem parrentFrom_eq (n : ℕ) : as.length ≤ n → n ≤ (as ++ 47 :: bs).length →
    parrentFrom (as ++ 47 :: bs) n = some as.length := by
  have hat : (as ++ 47 :: bs).getD as.length 0 = 47 := by simp
  induction n with
  | zero =>
    intro hle _
    have h0 : as.length = 0 := by omega
    unfold parrentFrom
    rw [h0] at hat ⊢
    exact if_pos hat
  | succ n ih =>
    intro hle hn
    unfold parrentFrom
    by_cases heq : n + 1 = as.length
    · rw [heq]
      exact if_pos hat
    · -- behind the slash stands the last component
      obtain ⟨j, rfl⟩ := Nat.exists_eq_add_of_le (show as.length ≤ n by omega)
      have hget : (as ++ 47 :: bs).getD (as.length + j + 1) 0 = bs.getD j 0 := by
        rw [List.getD_append_right _ _ _ _ (by omega), show as.length + j + 1 - as.length = j + 1 by omega,
          List.getD_cons_succ]
      have hne : bs.getD j 0 ≠ 47 := by
        intro h47
        by_cases hj : j < bs.length
        · rw [List.getD_eq_getElem _ _ hj] at h47
          exact hbs (h47 ▸ List.getElem_mem hj)
        · rw [List.getD_eq_default _ _ (by omega)] at h47
          cases h47
      rw [hget, if_neg hne]
      exact ih (by omega) (by omega)

/-- **The parent of a path** is what stands before the last `/`, or the root. -/
theorem parentPath_eq : parentPath (as ++ 47 :: bs) = some (if as = [] then rootPath else as) := by
  unfold parentPath getParrentPath
  rw [parrentFrom_eq hbs _ (by simp) (le_refl _)]
  by_cases h : as = []
  · subst h
    rfl
  · simp [h]

theorem baseName_eq : baseName (as ++ 47 :: bs) = some bs := by
  unfold baseName getParrentPath
  rw [parrentFrom_eq hbs _ (by simp) (le_refl _)]
  simp

theorem splitOn_snoc : (as ++ 47 :: bs).splitOn (47 : UInt8) = as.splitOn 47 ++ [bs] := by
  rw [List.splitOn_append_cons_self, List.splitOn_eq_singleton hbs]

end Split

theorem exists_last {path : Path} (h : (47 : UInt8) ∈ path) :
    ∃ as bs, path = as ++ 47 :: bs ∧ (47 : UInt8) ∉ bs := by
  obtain ⟨bs, as, heq, hbs⟩ := List.eq_append_cons_of_mem (List.mem_reverse.mpr h)
  refine ⟨as.reverse, bs.reverse, ?_, by simpa using hbs⟩
  rw [← List.reverse_reverse path, heq]
  simp

/-- The components of a path: what stands between the slashes behind the first. -/
def components (path : Path) : List (List UInt8) :=
  if path = rootPath then [] else path.tail.splitOn 47

/-- Behind a parent that is not empty stands one component more. -/
theorem components_snoc {as bs : List UInt8} (hbs : (47 : UInt8) ∉ bs) (hhead : as.head? = some 47)
    (hne : as ≠ rootPath) : components (as ++ 47 :: bs) = components as ++ [bs] := by
  obtain ⟨as', rfl⟩ : ∃ as', as = 47 :: as' := by
    cases as with
    | nil => cases hhead
    | cons x as' =>
      obtain rfl := Option.some.inj hhead
      exact ⟨as', rfl⟩
  unfold components
  rw [if_neg (by simp [rootPath]), if_neg hne]
  exact splitOn_snoc hbs

theorem components_single {bs : List UInt8} (hbs : (47 : UInt8) ∉ bs) (hne : bs ≠ []) :
    components (47 :: bs) = [bs] := by
  unfold components
  rw [if_neg (by simp [rootPath, hne])]
  exact List.splitOn_eq_singleton hbs

/-! ### A name in a directory -/

/-- The path of a name in a directory. -/
def joinPath (D : Path) (name : List UInt8) : Path := (if D = rootPath then [] else D) ++ 47 :: name

section Join
variable {D : Path} {name : List UInt8}

theorem ne_nil_of_head (h : D.head? = some 47) : D ≠ [] := by
  rintro rfl
  cases h

theorem parentPath_join (hhead : D.head? = some 47) (hslash : (47 : UInt8) ∉ name) :
    parentPath (joinPath D name) = some D := by
  unfold joinPath
  rw [parentPath_eq hslash]
  by_cases hD : D = rootPath
  · rw [if_pos hD, if_pos rfl, hD]
  · rw [if_neg hD, if_neg (ne_nil_of_head hhead)]

theorem baseName_join (D : Path) (hslash : (47 : UInt8) ∉ name) : baseName (joinPath D name) = some name :=
  baseName_eq hslash

theorem components_join (hhead : D.head? = some 47) (hslash : (47 : UInt8) ∉ name) (hne : name ≠ []) :
    components (joinPath D name) = components D ++ [name] := by
  unfold joinPath
  by_cases hD : D = rootPath
  · rw [if_pos hD, hD]
    exact components_single hslash hne
  · rw [if_neg hD]
    exact components_snoc hslash hhead hD

theorem head_join (hhead : D.head? = some 47) : (joinPath D name).head? = some 47 := by
  unfold joinPath
  by_cases hD : D = rootPath
  · rw [if_pos hD]
    rfl
  · rw [if_neg hD, List.head?_append_of_ne_nil _ (ne_nil_of_head hhead)]
    exact hhead

theorem join_ne_root (hne : name ≠ []) : joinPath D name ≠ rootPath := by
  intro h
  have hlen := congrArg List.length h
  have hpos := List.length_pos_iff.mpr hne
  unfold joinPath at hlen
  rw [List.length_append, List.length_cons] at hlen
  have hroot : rootPath.length = 1 := rfl
  omega

theorem length_join (hne : name ≠ []) : D.length < (joinPath D name).length := by
  have hpos := List.length_pos_iff.mpr hne
  unfold joinPath
  rw [List.length_append, List.length_cons]
  by_cases hD : D = rootPath
  · rw [if_pos hD, hD]
    have hroot : rootPath.length = 1 := rfl
    omega
  · rw [if_neg hD]
    omega

end Join

/-! ### Resolving -/

/-- **The path leads to the file**, through directories from the root. -/
def Leads (a : Args) (s : St) (path : Path) (f : ℤ) : Prop :=
  Walk (dirs a s.dev) 0 (components path) f

/-- **Path resolution is right** for a path: `_ops_getattr` has an outcome, it finds what the path
leads to and reports every other path as missing, and `fcfs_get_fid` returns no identifier for a
path that leads nowhere. -/
structure ResolvesRight (a : Args) (s : St) (path : Path) : Prop where
  total : ∀ now flag, (opsGetattr' a now s path flag).isSome
  found : ∀ now flag f, (∃ st t, opsGetattr' a now s path flag = some (0, st, t) ∧ st.stDev = f) ↔
    Leads a s path f
  missing : ∀ now flag, (¬ ∃ f, Leads a s path f) →
    ∃ st t, opsGetattr' a now s path flag = some (-enoent, st, t)
  fid : ∀ f, (∃ t, fcfsGetFid a s path = some (f, t)) → Leads a s path f

section Step
variable {a : Args} {s t : St} {np path : Path} {bs : List UInt8} {flag : Bool} {r : ℤ} {pst : Stat}

theorem statSize_eq (hs : Sound a t) (st : Stat) {f : ℤ} (hf : f = 0 ∨ Live t.fsTable f)
    (flag : Bool) : ∃ st' u, statSize a t st f flag = some (st', u) ∧ st'.stDev = st.stDev ∧
      Looked a t u ∧ u.mapFid = t.mapFid ∧
      (flag = true → st'.stSize = cint (fileSz a t.dev (nodesAt a (tab a t.dev) f))) := by
  unfold statSize
  cases flag with
  | false =>
    refine ⟨st, t, rfl, rfl, Looked.refl a t, rfl, fun h => ?_⟩
    cases h
  | true =>
    obtain ⟨u, hop, hlook, hids⟩ := hs.devFileSize hf
    generalize cint (fileSz a t.dev (nodesAt a (tab a t.dev) f)) = sz at hop ⊢
    exact ⟨_, u, Option.bind_eq_some_iff.mpr ⟨_, hop, rfl⟩, rfl, hlook, hids, fun _ => rfl⟩

theorem getattrAux_rootPath (hs : Sound a s) (now : UInt64) (n : ℕ)
    (hmiss : (if flag then none else s.mapFid rootPath) = none) :
    ∃ st u, opsGetattrAux a now (n + 1) rootPath flag s = some (0, st, u) ∧ st.stDev = 0 ∧
      Looked a s u ∧ u.mapFid = s.mapFid := by
  obtain ⟨st, u, hop, hdev, hlook, hids, -⟩ := statSize_eq hs
    { (if flag then ⟨0, 0, 0, 0, a.uid, a.gid, now, now, 0⟩ else Stat.zero) with
      stDev := 0, stMode := 0o40777, stNlink := 2 } (Or.inl rfl) flag
  refine ⟨st, u, ?_, hdev, hlook, hids⟩
  unfold opsGetattrAux
  rw [hmiss]
  dsimp only
  rw [if_pos rfl]
  exact Option.bind_eq_some_iff.mpr ⟨_, hop, rfl⟩

/-- What a parent resolved to. -/
structure ParentAt (a : Args) (now : UInt64) (n : ℕ) (path : Path) (flag : Bool) (bs : List UInt8)
    (g : ℤ) (s t : St) : Prop where
  miss : (if flag then none else s.mapFid path) = none
  notRoot : path ≠ rootPath
  base : baseName path = some bs
  parent : ∃ np r pst, parentPath path = some np ∧ opsGetattrAux a now n np false s = some (r, pst, t) ∧
    pst.stDev = g
  sound : Sound a t
  live : g = 0 ∨ Live t.fsTable g

variable {now : UInt64} {n : ℕ} {g : ℤ}

/-- **One step of the resolution**: the component is found in the parent. -/
theorem ParentAt.found (h : ParentAt a now n path flag bs g s t) {e : DirEntry}
    (hfind : (dirOf a t.dev g).find? (fun x => x.nameStr == bs) = some e)
    (hfile : Live t.fsTable (fidOf e)) :
    ∃ st u, opsGetattrAux a now (n + 1) path flag s = some (0, st, cacheStatAdd u path st) ∧
      st.stDev = fidOf e ∧ Looked a t u ∧ u.mapFid = t.mapFid ∧
      (flag = true → st.stSize = cint (fileSz a t.dev (nodesAt a (tab a t.dev) (fidOf e)))) := by
  obtain ⟨np, r, pst, hnp, hpar, rfl⟩ := h.parent
  obtain ⟨d, v, hdir, hd, hlook, hidsv, -⟩ := devReadDir_eq h.sound h.live
  obtain ⟨st, u, hsize, -, hlooku, hidsu, hsz⟩ := statSize_eq (hlook.sound h.sound)
    { (if flag then ⟨0, 0, 0, 0, a.uid, a.gid, now, now, 0⟩ else Stat.zero) with
      stAtime := e.atime, stMtime := e.mtime, stCtime := e.ctime
      stNlink := (v.fsTable.entrs (fidOf e)).lnkCnt.toNat, stMode := e.mode }
    (Or.inr (by rw [hlook.table]; exact hfile)) flag
  rw [hlook.dev] at hsz
  refine ⟨{ st with stDev := fidOf e }, u, ?_, rfl, hlook.trans hlooku, hidsu.trans hidsv, hsz⟩
  unfold opsGetattrAux
  rw [h.miss]
  dsimp only
  rw [if_neg h.notRoot]
  refine Option.bind_eq_some_iff.mpr ⟨_, hnp, ?_⟩
  refine Option.bind_eq_some_iff.mpr ⟨_, hpar, ?_⟩
  refine Option.bind_eq_some_iff.mpr ⟨_, hdir, ?_⟩
  refine Option.bind_eq_some_iff.mpr ⟨_, h.base, ?_⟩
  dsimp only
  rw [hd, hfind]
  exact Option.bind_eq_some_iff.mpr ⟨_, hsize, rfl⟩

theorem ParentAt.missing (h : ParentAt a now n path flag bs g s t)
    (hfind : (dirOf a t.dev g).find? (fun x => x.nameStr == bs) = none) :
    ∃ st u, opsGetattrAux a now (n + 1) path flag s = some (-enoent, st, u) ∧ st.stDev = 0 ∧
      Looked a t u ∧ u.mapFid = t.mapFid := by
  obtain ⟨np, r, pst, hnp, hpar, rfl⟩ := h.parent
  obtain ⟨d, v, hdir, hd, hlook, hidsv, -⟩ := devReadDir_eq h.sound h.live
  refine ⟨if flag then ⟨0, 0, 0, 0, a.uid, a.gid, now, now, 0⟩ else Stat.zero, v, ?_, ?_, hlook, hidsv⟩
  · unfold opsGetattrAux
    rw [h.miss]
    dsimp only
    rw [if_neg h.notRoot]
    refine Option.bind_eq_some_iff.mpr ⟨_, hnp, ?_⟩
    refine Option.bind_eq_some_iff.mpr ⟨_, hpar, ?_⟩
    refine Option.bind_eq_some_iff.mpr ⟨_, hdir, ?_⟩
    refine Option.bind_eq_some_iff.mpr ⟨_, h.base, ?_⟩
    dsimp only
    rw [hd, hfind]
  · cases flag <;> rfl

end Step

section Resolve
variable {a : Args} {s : St} (ht : DirTree a s) (hids : ∀ p, s.mapFid p = none) (now : UInt64)
include ht hids

omit hids in
/-- The directory and the name of a path that leads somewhere. -/
theorem exists_join {path : Path} {f : ℤ} (hhead : path.head? = some 47) (hroot : path ≠ rootPath)
    (hleads : Leads a s path f) : ∃ D name, path = joinPath D name ∧ D.head? = some 47 ∧
      (47 : UInt8) ∉ name ∧ name ≠ [] := by
  obtain ⟨as, bs, rfl, hbs⟩ := exists_last (List.mem_of_mem_head? hhead)
  by_cases hnil : as = []
  · subst hnil
    have hne : bs ≠ [] := fun h => hroot (by rw [h]; rfl)
    exact ⟨rootPath, bs, rfl, rfl, hbs, hne⟩
  · have hhead' : as.head? = some 47 := by
      rwa [List.head?_append_of_ne_nil _ hnil] at hhead
    -- an empty component is in no directory
    have hasroot : as ≠ rootPath := by
      rintro rfl
      have hsplit : components (rootPath ++ 47 :: bs) = [[], bs] := by
        unfold components
        rw [if_neg (by simp [rootPath])]
        exact splitOn_snoc hbs
      unfold Leads at hleads
      rw [hsplit] at hleads
      obtain ⟨e, he, hname⟩ := hleads.exists_first
      exact ht.named [] 0 (Through.nil 0) e he hname
    refine ⟨as, bs, ?_, hhead', hbs, ?_⟩
    · unfold joinPath
      rw [if_neg hasroot]
    · rintro rfl
      unfold Leads at hleads
      rw [components_snoc hbs hhead' hasroot] at hleads
      obtain ⟨g, hthrough, e, he, hname, -⟩ := walk_snoc.mp hleads
      exact ht.named _ _ hthrough e he hname

/-- **What a path leads to is what it resolves to.** The induction is on the length of the path, from
its parent. -/
theorem getattrAux_of_walk (n : ℕ) : ∀ {path : Path} {flag : Bool} {f : ℤ}, path.length ≤ n →
    path.head? = some 47 → Leads a s path f →
      ∃ st t, opsGetattrAux a now n path flag s = some (0, st, t) ∧ st.stDev = f ∧ Looked a s t := by
  induction n with
  | zero =>
    intro path flag f hlen hhead
    have hnil : path = [] := List.length_eq_zero_iff.mp (by omega)
    rw [hnil] at hhead
    cases hhead
  | succ n ih =>
    intro path flag f hlen hhead hleads
    have hmiss : (if flag then none else s.mapFid path) = none := by
      rw [hids]
      exact ite_self _
    by_cases hroot : path = rootPath
    · subst hroot
      obtain rfl : f = 0 := by
        unfold Leads components at hleads
        rw [if_pos rfl] at hleads
        cases hleads
        rfl
      obtain ⟨st, t, hop, hdev, hlook, -⟩ := getattrAux_rootPath ht.sound now n hmiss
      exact ⟨st, t, hop, hdev, hlook⟩
    · obtain ⟨D, name, rfl, hhead', hslash, hne⟩ := exists_join ht hhead hroot hleads
      have hlenD : D.length < (joinPath D name).length := length_join hne
      unfold Leads at hleads
      rw [components_join hhead' hslash hne] at hleads
      obtain ⟨g, hthrough, e, he, hname, rfl⟩ := walk_snoc.mp hleads
      obtain ⟨pst, t, hpar, hdev, hlook⟩ : ∃ pst t, opsGetattrAux a now n D false s = some (0, pst, t) ∧
          pst.stDev = g ∧ Looked a s t := ih (by omega) hhead' hthrough.walk
      have hat : ParentAt a now n (joinPath D name) flag name g s t :=
        ⟨hmiss, hroot, baseName_join D hslash, ⟨D, 0, pst, parentPath_join hhead' hslash, hpar, hdev⟩,
          hlook.sound ht.sound, by rw [hlook.table]; exact ht.live hthrough⟩
      have hfind : (dirOf a t.dev g).find? (fun x => x.nameStr == name) = some e := by
        rw [hlook.dev, ← hname]
        exact ht.find hthrough he
      obtain ⟨st, u, hop, hst, hlooku, -⟩ := hat.found hfind
        (by rw [hlook.table]; exact ht.files _ _ hthrough e he)
      exact ⟨st, _, hop, hst, (hlook.trans hlooku).trans (Looked.ids a u _)⟩

omit ht hids in
/-- A path resolved right leads somewhere: `fcfs_get_fid` never fails. -/
theorem ResolvesRight.leads {path : Path} (h : ResolvesRight a s path) : ∃ f, Leads a s path f := by
  obtain ⟨⟨r, st, t⟩, hop⟩ := Option.isSome_iff_exists.mp (h.total 0 false)
  exact ⟨st.stDev, h.fid _ ⟨t, Option.bind_eq_some_iff.mpr ⟨_, hop, rfl⟩⟩⟩

/-- **Path resolution is right for exactly the paths that lead somewhere.** -/
theorem resolvesRight_iff {path : Path} (hhead : path.head? = some 47) :
    ResolvesRight a s path ↔ ∃ f, Leads a s path f := by
  refine ⟨ResolvesRight.leads, ?_⟩
  rintro ⟨f, hleads⟩
  have hop : ∀ now flag, ∃ st t, opsGetattr' a now s path flag = some (0, st, t) ∧ st.stDev = f := by
    intro now flag
    obtain ⟨st, t, hop, hdev, -⟩ := getattrAux_of_walk ht hids now _ (le_refl _) hhead hleads
    exact ⟨st, t, hop, hdev⟩
  refine ⟨fun now flag => ?_, fun now flag g => ⟨?_, ?_⟩, fun _ _ hno => absurd ⟨f, hleads⟩ hno, ?_⟩
  · obtain ⟨st, t, hop, -⟩ := hop now flag
    rw [hop]
    rfl
  · rintro ⟨st, t, hop', rfl⟩
    obtain ⟨st', t', hf, rfl⟩ := hop now flag
    rw [hop'] at hf
    obtain ⟨-, hst⟩ := Prod.mk.inj (Option.some.inj hf)
    rw [(Prod.mk.inj hst).1]
    exact hleads
  · -- two walks along one path end at what the path resolves to
    intro hleads'
    obtain ⟨st, t, hop', hdev, -⟩ := getattrAux_of_walk ht hids now _ (le_refl _) hhead hleads'
    exact ⟨st, t, hop', hdev⟩
  · rintro g ⟨t, hget⟩
    obtain ⟨⟨r, st, u⟩, hres, hget⟩ := Option.bind_eq_some_iff.mp hget
    obtain ⟨st', t', hf, rfl⟩ := hop 0 false
    rw [hres] at hf
    obtain ⟨-, hst⟩ := Prod.mk.inj (Option.some.inj hf)
    obtain ⟨rfl, -⟩ := Prod.mk.inj (Option.some.inj hget)
    rw [(Prod.mk.inj hst).1]
    exact hleads

end Resolve

/-! ### A freshly formatted volume -/

theorem Formatted.dirTree {a : Args} {s : St} (h : Formatted a s) : DirTree a s := by
  have hnone : ∀ ns g, Through (dirs a s.dev) 0 ns g → dirOf a s.dev g = [] := by
    intro ns g hthrough
    cases hthrough with
    | nil => exact h.dirOf_root
    | cons he =>
      change _ ∈ dirOf a s.dev 0 at he
      rw [h.dirOf_root] at he
      cases he
  refine ⟨h.volOk.sound, fun ns g hg => ?_, fun ns g hg e he => ?_, fun ns g hg e he => ?_⟩
  · rw [hnone ns g hg]
    exact List.nodup_nil
  · rw [hnone ns g hg] at he
    cases he
  · rw [hnone ns g hg] at he
    cases he

theorem dirOf_sevenFresh : dirOf sevenArgs sevenFresh.dev 0 = [] := formatted_sevenFresh.dirOf_root

theorem dirTree_sevenFresh : DirTree sevenArgs sevenFresh := formatted_sevenFresh.dirTree

/-- In an empty root `fcfs_get_fid` finds a file "x", the root. -/
theorem not_resolvesRight_missing : ¬ ∀ (a : Args) (s : St), DirTree a s → (∀ f, s.mapSeq f = none) →
    (∀ p, s.mapFid p = none) → ∀ path : Path, path.head? = some 47 → ResolvesRight a s path := by
  intro h
  obtain ⟨f, hleads⟩ := (h sevenArgs sevenFresh dirTree_sevenFresh (fun _ => rfl) (fun _ => rfl)
    [47, 120] rfl).leads
  have hcomp : components [47, 120] = [[120]] := by decide
  unfold Leads at hleads
  rw [hcomp] at hleads
  obtain ⟨e, he, -⟩ := hleads.exists_first
  change e ∈ dirOf sevenArgs sevenFresh.dev 0 at he
  rw [dirOf_sevenFresh] at he
  cases he

end Fcfs.Vol
