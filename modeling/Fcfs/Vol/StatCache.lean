import Fcfs.Vol.Resolve

/-! # The stat cache

`map_fid` is asked before the directories are, at every step of the resolution of a path. What has been
found is in it from then on, and a lookup takes nothing out of it. As long as it is accurate
(`StatOk`) a path resolves to what it leads to, and the cache stays accurate (`getattrAux_of_leads`). For
that it may be wrong of paths that lead nowhere (`StatOn`). -/

namespace Fcfs.Vol

open Lib.Bytes Lib.Walks

/-! ### What is put in and what is kept -/

section Keep
variable {a : Args} {s t u : St} {f p : ℤ} {path q : Path} {st : Stat}

theorem fcfsGetFid_cached (h : s.mapFid path = some st) (hne : path ≠ []) :
    fcfsGetFid a s path = some (st.stDev, s) := by
  obtain ⟨n, hn⟩ : ∃ n, path.length = n + 1 := ⟨path.length - 1, by
    have := List.length_pos_iff.mpr hne
    omega⟩
  have hop : opsGetattr' a 0 s path false = some (0, st, s) := by
    unfold opsGetattr'
    rw [hn, opsGetattrAux, if_neg Bool.false_ne_true, h]
  exact Option.bind_eq_some_iff.mpr ⟨_, hop, rfl⟩

/-- **What has been found is cached.** -/
theorem mapFid_of_getFid (h : fcfsGetFid a s path = some (f, t)) (hf : f ≠ 0) :
    ∃ st, t.mapFid path = some st ∧ st.stDev = f := by
  obtain ⟨⟨r, st, u⟩, hop, h⟩ := Option.bind_eq_some_iff.mp h
  obtain ⟨rfl, rfl⟩ := Prod.mk.inj (Option.some.inj h)
  unfold opsGetattr' at hop
  cases hlen : path.length with
  | zero =>
    rw [hlen] at hop
    cases hop
  | succ n =>
    rw [hlen] at hop
    cases opsGetattrAux_cases hop with
    | cached hit => exact ⟨st, hit, rfl⟩
    | root _ _ hdev hsize =>
      obtain ⟨rfl, -⟩ := Prod.mk.inj (Option.some.inj hsize)
      exact absurd hdev hf
    | missing _ _ _ _ _ _ _ hdev => exact absurd hdev hf
    | found _ _ _ _ _ _ _ _ => exact ⟨_, Function.update_self _ _ _, rfl⟩

theorem mapFid_devReadDir {r : Option (List DirEntry)} (h : devReadDir a s f = some (r, t)) :
    t.mapFid = s.mapFid := by
  unfold devReadDir at h
  obtain ⟨⟨l, v⟩, hseq, h⟩ := Option.bind_eq_some_iff.mp h
  obtain ⟨buf, -, h⟩ := Option.bind_eq_some_iff.mp h
  obtain ⟨c, rfl, -⟩ := devGetFileSeq_frame hseq
  dsimp only at h
  split_ifs at h
  · obtain ⟨-, rfl⟩ := Prod.mk.inj (Option.some.inj h)
    rfl
  · obtain ⟨-, rfl⟩ := Prod.mk.inj (Option.some.inj h)
    rfl

/-- **The stat cache forgets nothing** when a path is resolved. -/
theorem mapFid_getattrAux (now : UInt64) (n : ℕ) : ∀ {s t : St} {path : Path} {r : ℤ} {st st' : Stat},
    opsGetattrAux a now n path false s = some (r, st, t) → s.mapFid q = some st' →
      t.mapFid q = some st' := by
  induction n with
  | zero =>
    intro s t path r st st' h
    cases h
  | succ n ih =>
    intro s t path r st st' h hq
    cases opsGetattrAux_cases h with
    | cached _ => exact hq
    | root _ _ _ hsize =>
      obtain ⟨-, rfl⟩ := Prod.mk.inj (Option.some.inj hsize)
      exact hq
    | missing _ _ _ hpar hdir _ _ _ =>
      rw [mapFid_devReadDir hdir]
      exact ih hpar hq
    | found hmiss _ _ hpar hdir _ _ hsize =>
      obtain ⟨-, rfl⟩ := Prod.mk.inj (Option.some.inj hsize)
      -- the path that is added was not there
      have hne : q ≠ path := fun heq => by
        rw [← heq, if_neg Bool.false_ne_true, hq] at hmiss
        cases hmiss
      refine (Function.update_of_ne hne _ _).trans ?_
      rw [mapFid_devReadDir hdir]
      exact ih hpar hq

theorem mapFid_getPfid (h : fcfsGetPfid a s path = some (p, t)) (hq : s.mapFid q = some st) :
    t.mapFid q = some st := by
  obtain ⟨np, -, h⟩ := Option.bind_eq_some_iff.mp h
  obtain ⟨⟨r, st', u⟩, hop, h⟩ := Option.bind_eq_some_iff.mp h
  obtain ⟨-, rfl⟩ := Prod.mk.inj (Option.some.inj h)
  exact mapFid_getattrAux 0 _ hop hq

end Keep

/-! ### An accurate cache -/

/-- **The stat cache is accurate**: what it has of an absolute path is what the path leads to. -/
def StatOk (a : Args) (s : St) : Prop :=
  ∀ path st, path.head? = some 47 → s.mapFid path = some st → Leads a s path st.stDev

/-- **What the resolution of a path does to the cache.** -/
structure Resolved (a : Args) (path : Path) (f : ℤ) (s t : St) : Prop where
  looked : Looked a s t
  stat : StatOk a t
  longer : ∀ q, path.length < q.length → t.mapFid q = s.mapFid q
  cached : path = rootPath ∨ ∃ st, t.mapFid path = some st ∧ st.stDev = f

/-- **The stat cache is accurate on what is there**: what it has of an absolute path that leads somewhere is
what the path leads to. -/
def StatOn (a : Args) (s : St) : Prop :=
  ∀ path st f, path.head? = some 47 → s.mapFid path = some st → Leads a s path f → st.stDev = f

/-- **What the resolution of a path adds to the cache.** -/
structure Traced (a : Args) (path : Path) (f : ℤ) (s t : St) : Prop where
  looked : Looked a s t
  known : ∀ q st, t.mapFid q = some st → s.mapFid q = some st ∨ Leads a s q st.stDev
  longer : ∀ q, path.length < q.length → t.mapFid q = s.mapFid q
  cached : path = rootPath ∨ ∃ st, t.mapFid path = some st ∧ st.stDev = f

section Accurate
variable {a : Args} {s t u : St} {path : Path} {f g : ℤ}

theorem DirTree.leads_unique (ht : DirTree a s) (h : Leads a s path f) (h' : Leads a s path g) : f = g :=
  Walk.unique ht.nodup h h'

theorem StatOk.on (h : StatOk a s) (ht : DirTree a s) : StatOn a s :=
  fun path st _ hhead hst hleads => ht.leads_unique (h path st hhead hst) hleads

theorem Traced.statOk (h : Traced a path f s t) (hc : StatOk a s) : StatOk a t := by
  intro q st hhead hst
  unfold Leads
  rw [h.looked.dev]
  exact (h.known q st hst).elim (hc q st hhead) id

theorem Traced.statOn (h : Traced a path f s t) (ht : DirTree a s) (hc : StatOn a s) : StatOn a t := by
  intro q st g hhead hst hleads
  unfold Leads at hleads
  rw [h.looked.dev] at hleads
  exact (h.known q st hst).elim (fun hold => hc q st g hhead hold hleads) fun hq => ht.leads_unique hq hleads

/-- **What a path leads to is what it resolves to**, if the cache has nothing else of paths that lead
somewhere. The induction is on the length of the path, from its parent. -/
theorem getattrAux_traced (ht : DirTree a s) (hc : StatOn a s) (now : UInt64) (n : ℕ) :
    ∀ {path : Path} {flag : Bool} {f : ℤ}, path.length ≤ n → path.head? = some 47 → Leads a s path f →
      ∃ st t, opsGetattrAux a now n path flag s = some (0, st, t) ∧ st.stDev = f ∧
        Traced a path f s t := by
  induction n with
  | zero =>
    intro path flag f hlen hhead
    have hnil : path = [] := List.length_eq_zero_iff.mp (by omega)
    rw [hnil] at hhead
    cases hhead
  | succ n ih =>
    intro path flag f hlen hhead hleads
    cases hmiss : if flag then none else s.mapFid path with
    | some st =>
      -- the path is in the cache
      have hhit : s.mapFid path = some st := by
        cases flag with
        | false => exact hmiss
        | true => cases hmiss
      have hdev : st.stDev = f := hc path st f hhead hhit hleads
      refine ⟨st, s, ?_, hdev, Looked.refl a s, fun q st' hq => Or.inl hq, fun _ _ => rfl,
        Or.inr ⟨st, hhit, hdev⟩⟩
      unfold opsGetattrAux
      rw [hmiss]
    | none =>
      by_cases hroot : path = rootPath
      · subst hroot
        obtain rfl : f = 0 := by
          unfold Leads components at hleads
          rw [if_pos rfl] at hleads
          cases hleads
          rfl
        obtain ⟨st, t, hop, hdev, hlook, hids⟩ := getattrAux_rootPath ht.sound now n hmiss
        exact ⟨st, t, hop, hdev, hlook, fun q st' hq => Or.inl (by rw [← hids]; exact hq),
          fun q _ => by rw [hids], Or.inl rfl⟩
      · obtain ⟨D, name, hpath, hheadD, hslash, hne⟩ := exists_join ht hhead hroot hleads
        have hlenD : D.length < path.length := by
          rw [hpath]
          exact length_join hne
        have hwalk := hleads
        unfold Leads at hwalk
        rw [hpath, components_join hheadD hslash hne] at hwalk
        obtain ⟨g, hthrough, e, he, hname, rfl⟩ := walk_snoc.mp hwalk
        obtain ⟨pst, t, hpar, hdev, hres⟩ : ∃ pst t, opsGetattrAux a now n D false s = some (0, pst, t) ∧
            pst.stDev = g ∧ Traced a D g s t := ih (by omega) hheadD hthrough.walk
        have hlook := hres.looked
        have hat : ParentAt a now n path flag name g s t :=
          ⟨hmiss, hroot, by rw [hpath]; exact baseName_join D hslash,
            ⟨D, 0, pst, by rw [hpath]; exact parentPath_join hheadD hslash, hpar, hdev⟩,
            hlook.sound ht.sound, by rw [hlook.table]; exact ht.live hthrough⟩
        have hfind : (dirOf a t.dev g).find? (fun x => x.nameStr == name) = some e := by
          rw [hlook.dev, ← hname]
          exact ht.find hthrough he
        obtain ⟨st, u, hop, hst, hlooku, hids, -⟩ := hat.found hfind
          (by rw [hlook.table]; exact ht.files _ _ hthrough e he)
        have hlookv := hlook.trans hlooku
        have hself : (cacheStatAdd u path st).mapFid path = some st := Function.update_self _ _ _
        have hold : ∀ q, q ≠ path → (cacheStatAdd u path st).mapFid q = t.mapFid q := fun q hq =>
          (Function.update_of_ne hq _ _).trans (congrFun hids q)
        refine ⟨st, _, hop, hst, hlookv.trans (Looked.ids a u _), fun q st' hst' => ?_, fun q hq => ?_,
          Or.inr ⟨st, hself, hst⟩⟩
        · -- one path is added
          by_cases heq : q = path
          · rw [heq, hself] at hst'
            obtain rfl := Option.some.inj hst'
            rw [heq, hst]
            exact Or.inr hleads
          · rw [hold q heq] at hst'
            exact hres.known q st' hst'
        · have hne' : q ≠ path := fun heq => by
            rw [heq] at hq
            exact lt_irrefl _ hq
          rw [hold q hne']
          exact hres.longer q (by omega)

/-- **What a path leads to is what it resolves to**, if the cache is accurate, and the cache stays so. -/
theorem getattrAux_of_leads (ht : DirTree a s) (hc : StatOk a s) (now : UInt64) (n : ℕ)
    {path : Path} {flag : Bool} {f : ℤ} (hlen : path.length ≤ n) (hhead : path.head? = some 47)
    (hleads : Leads a s path f) : ∃ st t, opsGetattrAux a now n path flag s = some (0, st, t) ∧
      st.stDev = f ∧ Resolved a path f s t := by
  obtain ⟨st, t, hop, hdev, htr⟩ : ∃ st t, opsGetattrAux a now n path flag s = some (0, st, t) ∧
      st.stDev = f ∧ Traced a path f s t := getattrAux_traced ht (hc.on ht) now n hlen hhead hleads
  exact ⟨st, t, hop, hdev, htr.looked, htr.statOk hc, htr.longer, htr.cached⟩

theorem fcfsGetFid_of_leads (ht : DirTree a s) (hc : StatOk a s) (hhead : path.head? = some 47)
    (hleads : Leads a s path f) : ∃ t, fcfsGetFid a s path = some (f, t) ∧ Resolved a path f s t := by
  obtain ⟨st, t, hop, hdev, hres⟩ : ∃ st t, opsGetattr' a 0 s path false = some (0, st, t) ∧
      st.stDev = f ∧ Resolved a path f s t := getattrAux_of_leads ht hc 0 _ (le_refl _) hhead hleads
  exact ⟨t, Option.bind_eq_some_iff.mpr ⟨_, hop, by rw [← hdev]⟩, hres⟩

theorem fcfsGetFid_traced (ht : DirTree a s) (hc : StatOn a s) (hhead : path.head? = some 47)
    (hleads : Leads a s path f) : ∃ t, fcfsGetFid a s path = some (f, t) ∧ Traced a path f s t := by
  obtain ⟨st, t, hop, hdev, htr⟩ : ∃ st t, opsGetattr' a 0 s path false = some (0, st, t) ∧
      st.stDev = f ∧ Traced a path f s t := getattrAux_traced ht hc 0 _ (le_refl _) hhead hleads
  exact ⟨t, Option.bind_eq_some_iff.mpr ⟨_, hop, by rw [← hdev]⟩, htr⟩

end Accurate

end Fcfs.Vol
