import Fcfs.Vol.Make
import Fcfs.Vol.Delete
import Fcfs.Vol.Resolve

/-! # Lookups in a volume in order

Whatever the caches hold and whatever path is asked for, path resolution and reading only look things
up (`VolOk.getattr`, `VolOk.read`): every function they call is a lookup of the blocks of some
identifier, and `VolOk.looked` covers all of these. -/

namespace Fcfs.Vol

open Lib.Bytes

section Lookups
variable {a : Args} {s t : St} {g : ℤ}

/-- **`dev_read_dir` only looks up.** -/
theorem VolOk.readDir (hv : VolOk a s) {r : Option (List DirEntry)}
    (h : devReadDir a s g = some (r, t)) : Looked a s t := by
  obtain ⟨⟨l, u⟩, hseq, h⟩ := Option.bind_eq_some_iff.mp h
  obtain ⟨buf, -, h⟩ := Option.bind_eq_some_iff.mp h
  have hlook := hv.looked hseq
  dsimp only at h
  split_ifs at h
  · exact (Prod.mk.inj (Option.some.inj h)).2 ▸ hlook
  · exact (Prod.mk.inj (Option.some.inj h)).2 ▸ hlook

theorem VolOk.fileSize (hv : VolOk a s) {sz : ℤ} (h : devFileSize a s g = some (sz, t)) :
    Looked a s t := by
  obtain ⟨⟨l, u⟩, hseq, h⟩ := Option.bind_eq_some_iff.mp h
  obtain ⟨r, -, h⟩ := Option.bind_eq_some_iff.mp h
  have hlook := hv.looked hseq
  cases r with
  | none => exact (Prod.mk.inj (Option.some.inj h)).2 ▸ hlook
  | some buf => exact (Prod.mk.inj (Option.some.inj h)).2 ▸ hlook

theorem VolOk.statSize (hv : VolOk a s) {st st' : Stat} {flag : Bool}
    (h : statSize a s st g flag = some (st', t)) : Looked a s t := by
  unfold Fcfs.statSize at h
  cases flag with
  | false =>
    obtain ⟨-, rfl⟩ := Prod.mk.inj (Option.some.inj h)
    exact Looked.refl a s
  | true =>
    obtain ⟨⟨sz, u⟩, hsz, h⟩ := Option.bind_eq_some_iff.mp h
    obtain ⟨-, rfl⟩ := Prod.mk.inj (Option.some.inj h)
    exact hv.fileSize hsz

/-- **Path resolution only looks up.** The induction is on the length of the path. -/
theorem VolOk.getattrAux (now : UInt64) (n : ℕ) : ∀ {s t : St} {path : Path} {flag : Bool} {r : ℤ}
    {st : Stat}, VolOk a s → opsGetattrAux a now n path flag s = some (r, st, t) → Looked a s t := by
  induction n with
  | zero =>
    intro s t path flag r st _ h
    cases h
  | succ n ih =>
    intro s t path flag r st hv h
    cases opsGetattrAux_cases h with
    | cached _ => exact Looked.refl a s
    | root _ _ _ hsize => exact hv.statSize hsize
    | missing _ _ _ hpar hdir _ _ _ =>
      have hlook := ih hv hpar
      exact hlook.trans ((hlook.volOk hv).readDir hdir)
    | @found np r pst st₀ st dirs name e u v w _ _ _ hpar hdir _ _ hsize =>
      have hlook := ih hv hpar
      have hlookv := hlook.trans ((hlook.volOk hv).readDir hdir)
      exact (hlookv.trans ((hlookv.volOk hv).statSize hsize)).trans (Looked.ids a w _)

theorem VolOk.getattr (hv : VolOk a s) {now : UInt64} {path : Path} {r : ℤ} {st : Stat}
    (h : opsGetattr a now s path = some (r, st, t)) : Looked a s t := VolOk.getattrAux now _ hv h

theorem VolOk.getFid (hv : VolOk a s) {path : Path} (h : fcfsGetFid a s path = some (g, t)) :
    Looked a s t := by
  obtain ⟨⟨r, st, u⟩, hop, h⟩ := Option.bind_eq_some_iff.mp h
  obtain ⟨-, rfl⟩ := Prod.mk.inj (Option.some.inj h)
  exact VolOk.getattrAux 0 _ hv hop

theorem VolOk.getPfid (hv : VolOk a s) {path : Path} (h : fcfsGetPfid a s path = some (g, t)) :
    Looked a s t := by
  obtain ⟨np, -, h⟩ := Option.bind_eq_some_iff.mp h
  exact hv.getFid h

theorem VolOk.opn (hv : VolOk a s) {path : Path} {r : ℤ} (h : opsOpen a s path = some (r, g, t)) :
    Looked a s t := by
  obtain ⟨⟨f, u⟩, hop, h⟩ := Option.bind_eq_some_iff.mp h
  obtain ⟨-, h⟩ := Prod.mk.inj (Option.some.inj h)
  obtain ⟨-, rfl⟩ := Prod.mk.inj h
  exact hv.getFid hop

theorem VolOk.writeFid (hv : VolOk a s) {path : Path} {fh : ℤ}
    (h : writeFid a s path fh = some (g, t)) : Looked a s t := by
  unfold Fcfs.writeFid at h
  split_ifs at h
  · obtain ⟨⟨r, f, u⟩, hop, h⟩ := Option.bind_eq_some_iff.mp h
    obtain ⟨rfl, rfl⟩ := Prod.mk.inj (Option.some.inj h)
    exact hv.opn hop
  · obtain ⟨-, rfl⟩ := Prod.mk.inj (Option.some.inj h)
    exact Looked.refl a s

/-- **Reading only looks up.** -/
theorem VolOk.read (hv : VolOk a s) {buf buf' : Buf} {size offset : ℕ} {fh r : ℤ}
    (h : opsRead a s buf size offset fh = some (r, buf', t)) : Looked a s t := by
  obtain ⟨⟨fsize, u⟩, hsz, h⟩ := Option.bind_eq_some_iff.mp h
  have hlooku := hv.fileSize hsz
  have hvu := hlooku.volOk hv
  dsimp only at h
  rcases ite_eq_iff.mp h with ⟨-, h⟩ | ⟨-, h⟩
  · obtain ⟨-, h⟩ := Prod.mk.inj (Option.some.inj h)
    obtain ⟨-, rfl⟩ := Prod.mk.inj h
    exact hlooku
  rcases ite_eq_iff.mp h with ⟨-, h⟩ | ⟨-, h⟩
  · cases h
  · obtain ⟨⟨l, v⟩, hseq, h⟩ := Option.bind_eq_some_iff.mp h
    have hlookv := hlooku.trans (hvu.looked hseq)
    obtain ⟨res, -, h⟩ := Option.bind_eq_some_iff.mp h
    cases res with
    | none =>
      obtain ⟨-, h⟩ := Prod.mk.inj (Option.some.inj h)
      obtain ⟨-, rfl⟩ := Prod.mk.inj h
      exact hlookv
    | some tmp =>
      rcases ite_eq_iff.mp h with ⟨-, h⟩ | ⟨-, h⟩
      · cases h
      · obtain ⟨-, h⟩ := Prod.mk.inj (Option.some.inj h)
        obtain ⟨-, rfl⟩ := Prod.mk.inj h
        exact hlookv

/-! ### In the root -/

theorem getattrAux_root (now : UInt64) (n : ℕ) (h : s.mapFid rootPath = none) :
    ∃ st, opsGetattrAux a now (n + 1) rootPath false s = some (0, st, s) ∧ st.stDev = 0 := by
  unfold opsGetattrAux
  rw [if_neg Bool.false_ne_true, h]
  exact ⟨_, rfl, rfl⟩

theorem parentPath_root {bs : List UInt8} (hbs : (47 : UInt8) ∉ bs) :
    parentPath (47 :: bs) = some rootPath := by
  rw [← List.nil_append (47 :: bs)]
  exact parentPath_eq hbs

theorem baseName_root {bs : List UInt8} (hbs : (47 : UInt8) ∉ bs) : baseName (47 :: bs) = some bs := by
  rw [← List.nil_append (47 :: bs)]
  exact baseName_eq hbs

theorem fcfsGetPfid_root {bs : List UInt8} (hbs : (47 : UInt8) ∉ bs) (h : s.mapFid rootPath = none) :
    fcfsGetPfid a s (47 :: bs) = some (0, s) := by
  obtain ⟨st, hop, hst⟩ := getattrAux_root (a := a) 0 0 h
  refine Option.bind_eq_some_iff.mpr ⟨rootPath, parentPath_root hbs, ?_⟩
  exact Option.bind_eq_some_iff.mpr ⟨_, hop, by rw [← hst]⟩

/-- **`fcfs_get_fid` of a path in the root** that is not cached finds the entry. -/
theorem VolOk.fcfsGetFid_root (hv : VolOk a s) {bs : List UInt8} (hbs : (47 : UInt8) ∉ bs)
    (hne : bs ≠ []) (h : s.mapFid rootPath = none) (hmiss : s.mapFid (47 :: bs) = none) {e : DirEntry}
    (hfind : ((dirOf a s.dev 0).find? fun e => e.nameStr == bs) = some e) :
    ∃ t, fcfsGetFid a s (47 :: bs) = some (fidOf e, t) ∧ t.mapFid rootPath = none ∧
      t.mapSeq 0 ≠ none ∧ ∀ p, p ≠ 47 :: bs → t.mapFid p = s.mapFid p := by
  have hpos := List.length_pos_iff.mpr hne
  have hroot : 47 :: bs ≠ rootPath := by simp [rootPath, hne]
  obtain ⟨n, hn⟩ : ∃ n, bs.length = n + 1 := ⟨bs.length - 1, by omega⟩
  obtain ⟨pst, hop, hst⟩ := getattrAux_root (a := a) 0 n h
  obtain ⟨r, t, hread, hr, -, hids, -, hin⟩ := devReadDir_eq hv.sound (Or.inl rfl)
  obtain ⟨st, hst'⟩ : ∃ st : Stat, st = { Stat.zero with
      stAtime := e.atime, stMtime := e.mtime, stCtime := e.ctime
      stNlink := (t.fsTable.entrs (fidOf e)).lnkCnt.toNat, stMode := e.mode, stDev := fidOf e } := ⟨_, rfl⟩
  have hres : opsGetattr' a 0 s (47 :: bs) false = some (0, st, cacheStatAdd t (47 :: bs) st) := by
    unfold opsGetattr'
    rw [List.length_cons, hn, opsGetattrAux, if_neg Bool.false_ne_true, hmiss]
    dsimp only
    rw [if_neg hroot]
    refine Option.bind_eq_some_iff.mpr ⟨_, parentPath_root hbs, ?_⟩
    refine Option.bind_eq_some_iff.mpr ⟨_, hop, ?_⟩
    dsimp only
    rw [hst]
    refine Option.bind_eq_some_iff.mpr ⟨_, hread, ?_⟩
    refine Option.bind_eq_some_iff.mpr ⟨_, baseName_root hbs, ?_⟩
    dsimp only
    rw [hr, hfind, hst']
    rfl
  have hdev : st.stDev = fidOf e := by rw [hst']
  refine ⟨cacheStatAdd t (47 :: bs) st, Option.bind_eq_some_iff.mpr ⟨_, hres, by rw [← hdev]⟩, ?_, hin,
    fun p hp => ?_⟩
  · exact (Function.update_of_ne (Ne.symm hroot) _ _).trans ((congrFun hids _).trans h)
  · exact (Function.update_of_ne hp _ _).trans (congrFun hids _)

/-- **Forgetting a block list** keeps the volume in order. -/
theorem VolOk.release (hv : VolOk a s) (fh : ℤ) : VolOk a (cacheSeqRm s fh) := by
  refine ⟨hv.mounted, hv.agree, fun f hf => ?_, fun f h0 hf hdead => ?_, hv.distinct, hv.lnk⟩
  · obtain ⟨cl, hnd, hok⟩ := hv.files f hf
    refine ⟨cl, hnd, hok.memory rfl rfl hok.cache fun l hl => ?_⟩
    by_cases hfh : f = fh
    · rw [hfh] at hl
      have hnone : (cacheSeqRm s fh).mapSeq fh = none := Function.update_self _ _ _
      rw [hnone] at hl
      cases hl
    · exact hok.cached l ((Function.update_of_ne hfh _ _).symm.trans hl)
  · obtain ⟨cl, hok⟩ := hv.free f h0 hf hdead
    exact ⟨cl, hok.memory rfl rfl hok.cache⟩

end Lookups

end Fcfs.Vol
