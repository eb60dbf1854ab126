import Fcfs.Lib.Lookup
import Fcfs.Vol.Refusal
import Fcfs.Vol.Whole

/-! # The stat cache in a run

`cache_stat_add` is called for every component that is found, and nothing takes an entry out again. The
cache cannot be told from an empty one (`StatTransparent`) as long as the directories stay what they were
for the paths in it: no path that is removed resolves to a file, and no name is given out that the
resolution of a cached path has looked for in the same directory in vain (`statTransparent_of_run`). Any
removed file is found under its path again (`not_statTransparent_of_run`). -/

namespace Fcfs.Vol

open Lib.Bytes Lib.Walks Lib.Lookup

/-! ### What a path resolves to -/

/-- The path the resolution of a path begins with. -/
def above (path : Path) : Option Path := if path = rootPath then none else parentPath path

/-- The file a path's last component names in a directory, and the root if it names none. -/
def child (V : ℤ → List DirEntry) (g : ℤ) (path : Path) : ℤ :=
  ((baseName path).bind fun name => (V g).find? fun e => e.nameStr == name).elim 0 fidOf

/-- **What a path resolves to** in the directories on the device. -/
abbrev Finds (a : Args) (d : Dev) : Path → ℤ → Prop := Resolves above 0 (child (dirOf a d))

/-- What is cached of a path. -/
def cachedFid (s : St) (q : Path) : Option ℤ := (s.mapFid q).map Stat.stDev

/-- **The directories can be read**, they name files that are there, and the stat cache is accurate. -/
structure Tidy (a : Args) (s : St) : Prop where
  sound : Sound a s
  files : ∀ g, g = 0 ∨ Live s.fsTable g → ∀ e ∈ dirOf a s.dev g, Live s.fsTable (fidOf e)
  stat : Accurate above 0 (child (dirOf a s.dev)) (cachedFid s)

/-- **The stat cache cannot be told from an empty one.** -/
def StatTransparent (a : Args) (s : St) : Prop :=
  ∀ path : Path, path.head? = some 47 → ∃ f t u, fcfsGetFid a s path = some (f, t) ∧
    fcfsGetFid a { s with mapFid := fun _ => none } path = some (f, u)

section Child
variable {V V' : ℤ → List DirEntry} {g : ℤ} {path : Path} {bs : List UInt8}

theorem child_found (hbase : baseName path = some bs) {e : DirEntry}
    (hfind : (V g).find? (fun x => x.nameStr == bs) = some e) : child V g path = fidOf e := by
  unfold child
  rw [hbase, Option.bind_some, hfind]
  rfl

theorem child_missing (hbase : baseName path = some bs)
    (hfind : (V g).find? (fun x => x.nameStr == bs) = none) : child V g path = 0 := by
  unfold child
  rw [hbase, Option.bind_some, hfind]
  rfl

/-- **One more entry** is found only under a name that was missing. -/
theorem child_append {e : DirEntry} (hV : V' g = V g ++ [e])
    (hnew : baseName path = some e.nameStr → ∃ x ∈ V g, x.nameStr = e.nameStr) :
    child V' g path = child V g path := by
  cases hbase : baseName path with
  | none =>
    unfold child
    rw [hbase]
    rfl
  | some bs =>
    have hfind : (V' g).find? (fun x => x.nameStr == bs) = (V g).find? fun x => x.nameStr == bs := by
      rw [hV, List.find?_append]
      cases hold : (V g).find? fun x => x.nameStr == bs with
      | some x => rfl
      | none =>
        rw [Option.none_or]
        refine List.find?_eq_none.mpr fun x hx heq => ?_
        rw [List.mem_singleton.mp hx, beq_iff_eq] at heq
        obtain ⟨y, hy, hname⟩ := hnew (by rw [hbase, heq])
        exact List.find?_eq_none.mp hold y hy (by rw [hname, heq, beq_self_eq_true])
    unfold child
    rw [hbase, Option.bind_some, Option.bind_some, hfind]

end Child

/-! ### Looking up -/

section Look
variable {a : Args} {s t : St} {path : Path} {f : ℤ}

theorem Tidy.live (h : Tidy a s) (hf : Finds a s.dev path f) : f = 0 ∨ Live s.fsTable f := by
  refine hf.inv (P := fun g => g = 0 ∨ Live s.fsTable g) (Or.inl rfl) fun g q hg => ?_
  cases hbase : baseName q with
  | none =>
    unfold child
    rw [hbase]
    exact Or.inl rfl
  | some bs =>
    cases hfind : (dirOf a s.dev g).find? fun x => x.nameStr == bs with
    | none => exact Or.inl (child_missing hbase hfind)
    | some e =>
      rw [child_found hbase hfind]
      exact Or.inr (h.files g hg e (List.mem_of_find?_eq_some hfind))

theorem Tidy.of_looked (h : Tidy a s) (hlook : Looked a s t) (hids : t.mapFid = s.mapFid) : Tidy a t := by
  refine ⟨hlook.sound h.sound, ?_, ?_⟩
  · rw [hlook.dev, hlook.table]
    exact h.files
  · unfold cachedFid
    rw [hlook.dev, hids]
    exact h.stat

theorem Tidy.add (h : Tidy a s) {st : Stat} (hf : Finds a s.dev path st.stDev) :
    Tidy a (cacheStatAdd s path st) := by
  refine ⟨(Looked.ids a s _).sound h.sound, h.files, ?_⟩
  have hcached : cachedFid (cacheStatAdd s path st) =
      Function.update (cachedFid s) path (some st.stDev) := by
    funext q
    by_cases hq : q = path
    · have hself : (cacheStatAdd s path st).mapFid path = some st := Function.update_self _ _ _
      unfold cachedFid
      rw [hq, Function.update_self, hself]
      rfl
    · have hold : (cacheStatAdd s path st).mapFid q = s.mapFid q := Function.update_of_ne hq _ _
      unfold cachedFid
      rw [Function.update_of_ne hq, hold]
  rw [hcached]
  exact h.stat.add hf

theorem exists_above (hhead : path.head? = some 47) (hroot : path ≠ rootPath) :
    ∃ np bs, parentPath path = some np ∧ baseName path = some bs ∧ np.head? = some 47 ∧
      np.length < path.length := by
  obtain ⟨as, bs, rfl, hbs⟩ := exists_last (List.mem_of_mem_head? hhead)
  refine ⟨_, bs, parentPath_eq hbs, baseName_eq hbs, ?_⟩
  by_cases hnil : as = []
  · subst hnil
    have hpos : 0 < bs.length := List.length_pos_iff.mpr fun hz => hroot (by rw [hz]; rfl)
    rw [if_pos rfl]
    refine ⟨rfl, ?_⟩
    rw [List.nil_append, List.length_cons]
    exact Nat.succ_lt_succ hpos
  · rw [if_neg hnil]
    rw [List.head?_append_of_ne_nil _ hnil] at hhead
    refine ⟨hhead, ?_⟩
    rw [List.length_append, List.length_cons]
    omega

/-- **A lookup finds what the path resolves to**, and what it caches is accurate. The induction is on the
length of the path, from its parent. -/
theorem Tidy.getattrAux (h : Tidy a s) (now : UInt64) (n : ℕ) : ∀ {path : Path} {flag : Bool},
    path.length ≤ n → path.head? = some 47 → ∃ r st t,
      opsGetattrAux a now n path flag s = some (r, st, t) ∧ Finds a s.dev path st.stDev ∧ Looked a s t ∧
        Tidy a t := by
  induction n with
  | zero =>
    intro path flag hlen hhead
    have hnil : path = [] := List.length_eq_zero_iff.mp (by omega)
    rw [hnil] at hhead
    cases hhead
  | succ n ih =>
    intro path flag hlen hhead
    cases hmiss : if flag then none else s.mapFid path with
    | some st =>
      -- the path is in the cache
      have hhit : s.mapFid path = some st := by
        cases flag with
        | false => exact hmiss
        | true => cases hmiss
      have hcached : cachedFid s path = some st.stDev := by
        unfold cachedFid
        rw [hhit]
        rfl
      refine ⟨0, st, s, ?_, h.stat _ _ hcached, Looked.refl a s, h⟩
      unfold opsGetattrAux
      rw [hmiss]
    | none =>
      by_cases hroot : path = rootPath
      · subst hroot
        obtain ⟨st, t, hop, hdev, hlook, hids⟩ := getattrAux_rootPath h.sound now n hmiss
        exact ⟨0, st, t, hop, hdev ▸ Resolves.root (if_pos rfl), hlook, h.of_looked hlook hids⟩
      · obtain ⟨np, bs, hnp, hbase, hheadp, hlt⟩ := exists_above hhead hroot
        obtain ⟨r, pst, t, hpar, hfinds, hlook, ht⟩ : ∃ r pst t,
            opsGetattrAux a now n np false s = some (r, pst, t) ∧ Finds a s.dev np pst.stDev ∧
              Looked a s t ∧ Tidy a t := ih (by omega) hheadp
        have habove : above path = some np := (if_neg hroot).trans hnp
        have hat : ParentAt a now n path flag bs pst.stDev s t :=
          ⟨hmiss, hroot, hbase, ⟨np, r, pst, hnp, hpar, rfl⟩, ht.sound, by
            rw [hlook.table]
            exact h.live hfinds⟩
        have hstep : Finds a s.dev path (child (dirOf a s.dev) pst.stDev path) := Resolves.step habove hfinds
        cases hfind : (dirOf a s.dev pst.stDev).find? fun x => x.nameStr == bs with
        | none =>
          obtain ⟨st, u, hop, hst, hlooku, hids⟩ := hat.missing (by rw [hlook.dev]; exact hfind)
          rw [child_missing hbase hfind, ← hst] at hstep
          exact ⟨_, st, u, hop, hstep, hlook.trans hlooku, ht.of_looked hlooku hids⟩
        | some e =>
          rw [← hlook.dev] at hfind hstep
          obtain ⟨st, u, hop, hst, hlooku, hids, -⟩ := hat.found hfind
            (ht.files _ hat.live e (List.mem_of_find?_eq_some hfind))
          rw [child_found hbase hfind, ← hst] at hstep
          refine ⟨0, st, _, hop, by rw [← hlook.dev]; exact hstep,
            (hlook.trans hlooku).trans (Looked.ids a u _), (ht.of_looked hlooku hids).add ?_⟩
          rw [hlooku.dev]
          exact hstep

theorem Tidy.getFid (h : Tidy a s) (hhead : path.head? = some 47) :
    ∃ f t, fcfsGetFid a s path = some (f, t) ∧ Finds a s.dev path f ∧ Looked a s t ∧ Tidy a t := by
  obtain ⟨r, st, t, hop, hrest⟩ : ∃ r st t, opsGetattrAux a 0 path.length path false s = some (r, st, t) ∧
      Finds a s.dev path st.stDev ∧ Looked a s t ∧ Tidy a t := h.getattrAux 0 _ (le_refl _) hhead
  exact ⟨st.stDev, t, Option.bind_eq_some_iff.mpr ⟨_, hop, rfl⟩, hrest⟩

theorem Tidy.getPfid (h : Tidy a s) (hhead : path.head? = some 47) :
    ∃ p t, fcfsGetPfid a s path = some (p, t) ∧ Looked a s t ∧ Tidy a t ∧ (p = 0 ∨ Live s.fsTable p) := by
  obtain ⟨np, hnp, hheadp⟩ : ∃ np, parentPath path = some np ∧ np.head? = some 47 := by
    by_cases hroot : path = rootPath
    · rw [hroot]
      exact ⟨rootPath, parentPath_root List.not_mem_nil, rfl⟩
    · obtain ⟨np, bs, hnp, -, hheadp, -⟩ := exists_above hhead hroot
      exact ⟨np, hnp, hheadp⟩
  obtain ⟨p, t, hop, hfinds, hlook, ht⟩ := h.getFid hheadp
  exact ⟨p, t, Option.bind_eq_some_iff.mpr ⟨_, hnp, hop⟩, hlook, ht, h.live hfinds⟩

/-- **The cache cannot be told from an empty one** while it is accurate. -/
theorem Tidy.transparent (h : Tidy a s) : StatTransparent a s := by
  intro path hhead
  obtain ⟨f, t, hop, hf, -⟩ := h.getFid hhead
  have hcold : Tidy a { s with mapFid := fun _ => none } := by
    refine ⟨(Looked.ids a s _).sound h.sound, h.files, fun q g hq => ?_⟩
    cases hq
  obtain ⟨g, u, hop', hg, -⟩ := hcold.getFid hhead
  obtain rfl := hf.unique hg
  exact ⟨f, t, u, hop, hop'⟩

end Look

/-! ### Making a file -/

/-- **No cached path has missed the name**: if the resolution of one looks for the last component of the
path in the directory, the directory has it. -/
def Unmissed (a : Args) (s : St) (p : ℤ) (path : Path) : Prop :=
  ∀ q f, cachedFid s q = some f → ∀ r, Asks above 0 (child (dirOf a s.dev)) q p r →
    baseName r = baseName path → ∃ e ∈ dirOf a s.dev p, baseName path = some e.nameStr

/-- **Nothing is cached of the identifiers that are free.** -/
def Unused (s : St) : Prop :=
  ∀ f : ℤ, 0 < f → f < tableLen → ¬ Live s.fsTable f → s.mapSeq f = none ∧ s.clrsCache.fid ≠ f

section Make
variable {a : Args} {s t s' : St} {f p : ℤ} {path : Path} {e : DirEntry}

/-- **The cache stays accurate** when a file is entered under a name that no cached path has missed. -/
theorem Entered.tidy (h : Entered a f p e s s') (ht : Tidy a s)
    (hback : ∀ g, Live s'.fsTable g → g ≠ f → Live s.fsTable g) (hpath : baseName path = some e.nameStr)
    (hun : Unmissed a s p path) : Tidy a s' := by
  refine ⟨h.sound, fun g hg x hx => ?_, ?_⟩
  · by_cases hgf : g = f
    · rw [hgf, h.new] at hx
      cases hx
    · have hold : g = 0 ∨ Live s.fsTable g := hg.imp_right fun hl => hback g hl hgf
      by_cases hgp : g = p
      · rw [hgp, h.dir] at hx
        rcases List.mem_append.mp hx with hx | hx
        · exact h.live _ (ht.files p (hgp ▸ hold) x hx)
        · rw [List.mem_singleton.mp hx, h.node]
          exact h.self
      · rw [h.others g hold hgp] at hx
        exact h.live _ (ht.files g hold x hx)
  · have hcached : cachedFid s' = cachedFid s := by
      unfold cachedFid
      rw [h.ids]
    rw [hcached]
    refine ht.stat.congr fun q g' hq g r hask => ?_
    obtain ⟨-, r', -, hfinds⟩ := id hask
    by_cases hgp : g = p
    · subst hgp
      refine child_append h.dir fun hname => ?_
      obtain ⟨x, hx, hxname⟩ := hun q g' hq r hask (hname.trans hpath.symm)
      exact ⟨x, hx, Option.some.inj (hxname.symm.trans hpath)⟩
    · unfold child
      rw [h.others g (ht.live hfinds) hgp]

theorem Unused.of_looked (h : Unused s) (hlook : Looked a s t) : Unused t := by
  intro f h0 hf hdead
  rw [hlook.table] at hdead
  obtain ⟨hseq, hne⟩ := h f h0 hf hdead
  refine ⟨(hlook.seqs f h0 hf hdead).trans hseq, ?_⟩
  rcases hlook.clrs f h0 hf hdead with heq | hne'
  · rw [heq]
    exact hne
  · exact hne'

theorem Unused.forgotten (h : Unused s) (h0 : 0 < f) (hf : f < tableLen) (hdead : ¬ Live s.fsTable f)
    (q : ℤ × ℕ) : Forgotten s f q := by
  obtain ⟨hseq, hne⟩ := h f h0 hf hdead
  refine ⟨fun heq => absurd heq hne, fun l hl => ?_⟩
  rw [hseq] at hl
  cases hl

end Make

/-! ### Runs -/

/-- **A volume in order** whose caches can be trusted. -/
structure Steady (a : Args) (s : St) : Prop where
  vol : VolOk a s
  tidy : Tidy a s
  unused : Unused s

/-- **A request with a path**: an absolute one, and a string. -/
def FsOp.HasPath : FsOp → Prop
  | create _ path _ => path.head? = some 47 ∧ (0 : UInt8) ∉ path
  | mkdir _ path _ => path.head? = some 47 ∧ (0 : UInt8) ∉ path
  | opn path => path.head? = some 47 ∧ (0 : UInt8) ∉ path
  | getattr _ path => path.head? = some 47 ∧ (0 : UInt8) ∉ path
  | unlink path => path.head? = some 47 ∧ (0 : UInt8) ∉ path
  | rmdir path => path.head? = some 47 ∧ (0 : UInt8) ∉ path
  | _ => False

/-- **The request leaves what cached paths resolve to alone**: what is made is made under a name that no
cached path has missed, and what is removed is no file. -/
def FsOp.Harmless (a : Args) (s : St) : FsOp → Prop
  | create _ path _ => MakeOk a s path ∧ ∀ p t, fcfsGetPfid a s path = some (p, t) → Unmissed a t p path
  | mkdir _ path _ => MakeOk a s path ∧ ∀ p t, fcfsGetPfid a s path = some (p, t) → Unmissed a t p path
  | unlink path => ∀ f t, fcfsGetFid a s path = some (f, t) → f = 0
  | rmdir path => ∀ f t, fcfsGetFid a s path = some (f, t) → f = 0
  | _ => True

section Steps
variable {a : Args} {s t s' : St} {p r : ℤ} {path : Path} {name : List UInt8} {now : UInt64} {mode m : UInt32}

theorem Formatted.steady (h : Formatted a s) : Steady a s := by
  refine ⟨h.volOk, ⟨h.volOk.sound, fun g hg e he => ?_, fun q f hq => ?_⟩, fun f h0 _ _ => ⟨h.seqs f, ?_⟩⟩
  · rw [h.bare.eq_root hg, h.dirOf_root] at he
    cases he
  · unfold cachedFid at hq
    rw [h.ids] at hq
    cases hq
  · rw [h.fid]
    omega

theorem Steady.of_looked (h : Steady a s) (hlook : Looked a s t) (ht : Tidy a t) : Steady a t :=
  ⟨hlook.volOk h.vol, ht, h.unused.of_looked hlook⟩

theorem nul_baseName (h0 : (0 : UInt8) ∉ path) (hbase : baseName path = some name) : (0 : UInt8) ∉ name := by
  obtain ⟨n, -, h⟩ := Option.bind_eq_some_iff.mp hbase
  obtain rfl := Option.some.inj h
  exact fun hin => h0 (List.mem_of_mem_drop hin)

/-- **Making a file keeps up all of it.** -/
theorem Steady.made (h : Steady a s) (hn : Numbered a) (hok : MakeOk a s path) (h0 : (0 : UInt8) ∉ path)
    (hhead : path.head? = some 47) (hpar : fcfsGetPfid a s path = some (p, t)) (hun : Unmissed a t p path)
    (hbase : baseName path = some name) (hlen : name.length < 32) {r₁ r₂ : ℤ} {u : St}
    (hc : devCreateFile a t now p (devFreeFid a s.fsTable) name m = some (r₁, u))
    (hi : devInitFile a u (devFreeFid a s.fsTable) = some (r₂, s')) : Steady a s' := by
  obtain ⟨hft, hdead⟩ := devFreeFid_free hn hok.fid
  have hforget := h.unused.forgotten hok.fid hft hdead (firstFree a s)
  obtain ⟨p', t', hpar', hlook, ht, hp⟩ := h.tidy.getPfid hhead
  obtain ⟨rfl, rfl⟩ := Prod.mk.inj (Option.some.inj (hpar.symm.trans hpar'))
  have hmade := h.vol.made_of hn hok hforget hpar hlen hc hi
  have hv := hok.volOk hn h.vol hforget hpar hmade
  have hent := hok.entered hn hlook hmade hv
  have hback : ∀ g, Live s'.fsTable g → g ≠ devFreeFid a s.fsTable → Live t.fsTable g := fun g hg hne =>
    ⟨hg.nonneg, hg.lt, by rw [← hmade.links g hne]; exact hg.lnk⟩
  have hname := nameStr_newEntry now (devFreeFid a s.fsTable) m hlen (nul_baseName h0 hbase)
  refine ⟨hv, hent.tidy ht hback (hname.symm ▸ hbase) hun, fun g hg0 hgt hgdead => ?_⟩
  -- the identifiers that are free were free before
  have hgf : g ≠ devFreeFid a s.fsTable := by
    rintro rfl
    exact hgdead hent.self
  have hgold : ¬ Live t.fsTable g := fun hl => hgdead (hent.live g hl)
  have hgp : g ≠ p := by
    rintro rfl
    exact hp.elim (fun hz => by omega) fun hl => hgold (by rw [hlook.table]; exact hl)
  obtain ⟨hseq, hne⟩ := h.unused.of_looked hlook g hg0 hgt hgold
  obtain ⟨-, hseqs, hclrs⟩ := caches_make hc hi
  refine ⟨(hseqs g hgp hgf).trans hseq, ?_⟩
  rcases hclrs with heq | heq | heq
  · rw [heq]
    exact hne
  · rw [heq]
    exact Ne.symm hgp
  · rw [heq]
    exact Ne.symm hgf

theorem Steady.make (h : Steady a s) (hn : Numbered a) (hok : MakeOk a s path)
    (hpath : path.head? = some 47 ∧ (0 : UInt8) ∉ path)
    (hun : ∀ p t, fcfsGetPfid a s path = some (p, t) → Unmissed a t p path) {out : Option (ℤ × St)}
    (hout : out = opsCreate a now s path mode ∨ out = opsMkdir a now s path mode)
    (hop : out = some (r, s')) : Steady a s' := by
  obtain ⟨-, p, t, name, m, r₁, u, r₂, hpar, hbase, hc, hi⟩ := opsMake_steps hout hop
  exact h.made hn hok hpath.2 hpath.1 hpar (hun p t hpar) hbase (devCreateFile_name hok.fid hc) hc hi

theorem Steady.unlink (h : Steady a s) (hhead : path.head? = some 47)
    (hnone : ∀ f t, fcfsGetFid a s path = some (f, t) → f = 0) (hop : opsUnlink a s path = some (r, s')) :
    Steady a s' := by
  obtain ⟨f, t, hfid, -, hlook, ht⟩ := h.tidy.getFid hhead
  obtain ⟨p, u, hpar, hlooku, hu, -⟩ := ht.getPfid hhead
  obtain rfl := hnone f t hfid
  obtain ⟨⟨f, t'⟩, hfid', hrest⟩ := Option.bind_eq_some_iff.mp hop
  obtain ⟨rfl, rfl⟩ := Prod.mk.inj (Option.some.inj (hfid.symm.trans hfid'))
  obtain ⟨⟨p', u'⟩, hpar', hrest⟩ := Option.bind_eq_some_iff.mp hrest
  obtain ⟨rfl, rfl⟩ := Prod.mk.inj (Option.some.inj (hpar.symm.trans hpar'))
  obtain ⟨⟨r', v⟩, hrm, hrest⟩ := Option.bind_eq_some_iff.mp hrest
  obtain ⟨-, rfl⟩ := Prod.mk.inj (Option.some.inj hrest)
  unfold devRmFile at hrm
  rw [if_pos rfl] at hrm
  obtain ⟨-, rfl⟩ := Prod.mk.inj (Option.some.inj hrm)
  exact h.of_looked (hlook.trans hlooku) hu

/-- **Every harmless request keeps up all of it.** -/
theorem Steady.step (h : Steady a s) (hn : Numbered a) (o : FsOp) (hpath : o.HasPath)
    (hsafe : o.Harmless a s) (hrun : o.run a s = some s') : Steady a s' := by
  cases o with
  | create now path mode =>
    obtain ⟨⟨r, t⟩, hop, rfl⟩ := Option.map_eq_some_iff.mp hrun
    exact h.make hn hsafe.1 hpath hsafe.2 (Or.inl rfl) hop
  | mkdir now path mode =>
    obtain ⟨⟨r, t⟩, hop, rfl⟩ := Option.map_eq_some_iff.mp hrun
    exact h.make hn hsafe.1 hpath hsafe.2 (Or.inr rfl) hop
  | opn path =>
    obtain ⟨⟨r, f, t⟩, hop, rfl⟩ := Option.map_eq_some_iff.mp hrun
    obtain ⟨g, u, hfid, -, hlook, hu⟩ := h.tidy.getFid hpath.1
    have hopen : opsOpen a s path = some (0, g, u) := Option.bind_eq_some_iff.mpr ⟨_, hfid, rfl⟩
    obtain ⟨-, hrest⟩ := Prod.mk.inj (Option.some.inj (hop.symm.trans hopen))
    obtain ⟨-, rfl⟩ := Prod.mk.inj hrest
    exact h.of_looked hlook hu
  | getattr now path =>
    obtain ⟨⟨r, st, t⟩, hop, rfl⟩ := Option.map_eq_some_iff.mp hrun
    obtain ⟨r', st', u, hop', -, hlook, hu⟩ : ∃ r' st' u,
        opsGetattrAux a now path.length path true s = some (r', st', u) ∧
          Finds a s.dev path st'.stDev ∧ Looked a s u ∧ Tidy a u :=
      h.tidy.getattrAux now _ (le_refl _) hpath.1
    obtain ⟨-, hrest⟩ := Prod.mk.inj (Option.some.inj (hop.symm.trans hop'))
    obtain ⟨-, rfl⟩ := Prod.mk.inj hrest
    exact h.of_looked hlook hu
  | unlink path =>
    obtain ⟨⟨r, t⟩, hop, rfl⟩ := Option.map_eq_some_iff.mp hrun
    exact h.unlink hpath.1 hsafe hop
  | rmdir path =>
    obtain ⟨⟨r, t⟩, hop, rfl⟩ := Option.map_eq_some_iff.mp hrun
    exact h.unlink hpath.1 hsafe ((opsRmdir_eq a s path).symm.trans hop)
  | write => exact hpath.elim
  | read => exact hpath.elim
  | release => exact hpath.elim
  | releasedir => exact hpath.elim

end Steps

/-- A step of a run with paths. -/
def PathStep (a : Args) (s s' : St) : Prop := ∃ o : FsOp, o.HasPath ∧ o.Within a s ∧ o.run a s = some s'

/-- A step that leaves what cached paths resolve to alone. -/
def HarmlessStep (a : Args) (s s' : St) : Prop :=
  ∃ o : FsOp, o.HasPath ∧ o.Harmless a s ∧ o.run a s = some s'

/-- **In every run from a formatted volume whose requests are harmless** the stat cache cannot be told
from an empty one. -/
theorem statTransparent_of_run {a : Args} {s₀ s : St} (hfresh : Formatted a s₀) (hn : Numbered a)
    (hrun : Relation.ReflTransGen (HarmlessStep a) s₀ s) : StatTransparent a s := by
  have hsteady : Steady a s := by
    refine Lib.Runs.inv_of_run (fun t u hstep ht => ?_) hrun hfresh.steady
    obtain ⟨o, hpath, hsafe, hop⟩ := hstep
    exact ht.step hn o hpath hsafe hop
  exact hsteady.tidy.transparent

/-! ### Samples -/

/-- **A path in an empty root** resolves to the root, if nothing is cached. -/
theorem Sound.fcfsGetFid_empty {a : Args} {s : St} (hs : Sound a s) (hids : ∀ p, s.mapFid p = none)
    (hdir : dirOf a s.dev 0 = []) {bs : List UInt8} (hbs : (47 : UInt8) ∉ bs) (hne : bs ≠ []) :
    ∃ t, fcfsGetFid a s (47 :: bs) = some (0, t) := by
  obtain ⟨n, hn⟩ : ∃ n, bs.length = n + 1 := ⟨bs.length - 1, by
    have := List.length_pos_iff.mpr hne
    omega⟩
  obtain ⟨pst, t, hpar, hdev, hlook, -⟩ : ∃ pst t,
      opsGetattrAux a 0 (n + 1) rootPath false s = some (0, pst, t) ∧ pst.stDev = 0 ∧ Looked a s t ∧
        t.mapFid = s.mapFid := getattrAux_rootPath hs 0 n (hids _)
  have hat : ParentAt a 0 (n + 1) (47 :: bs) false bs 0 s t :=
    ⟨hids _, by simp [rootPath, hne], baseName_root hbs, ⟨rootPath, 0, pst, parentPath_root hbs, hpar, hdev⟩,
      hlook.sound hs, Or.inl rfl⟩
  obtain ⟨st, u, hop, hst, -⟩ := hat.missing (by rw [hlook.dev, hdir]; rfl)
  refine ⟨u, Option.bind_eq_some_iff.mpr ⟨(-enoent, st, u), ?_, by rw [← hst]⟩⟩
  unfold opsGetattr'
  rw [List.length_cons, hn]
  exact hop

/-- On a volume of seven clusters: a file is made and removed. -/
theorem not_statTransparent_of_run : ¬ ∀ (a : Args) (s₀ s : St), Formatted a s₀ → Numbered a →
    Relation.ReflTransGen (PathStep a) s₀ s → StatTransparent a s := by
  intro h
  have hpath : (rootName 97).head? = some 47 ∧ (0 : UInt8) ∉ rootName 97 := ⟨rfl, by decide⟩
  obtain ⟨s, hmake, -, hopm, hfirst, -⟩ :=
    formatted_sevenFresh.make numbered_seven (by decide) (by decide)
  obtain ⟨u, hremove, hopr, hgone, t, hfid⟩ :=
    hfirst.volOk.removeFirst numbered_seven hfirst.live hfirst.dir hfirst.ids
  obtain ⟨⟨r, u'⟩, hunlink, rfl⟩ := Option.map_eq_some_iff.mp hopr
  obtain ⟨hv, -, hstale⟩ :=
    hfirst.volOk.unlink_stale numbered_seven hremove hfid (by decide) (by decide) hunlink
  have hmade : PathStep sevenArgs sevenFresh s := ⟨makeFirst, hpath, hmake, hopm⟩
  have hrun : Relation.ReflTransGen (PathStep sevenArgs) sevenFresh u' :=
    (Relation.ReflTransGen.single hmade).tail ⟨removeFirst, hpath, hremove, hopr⟩
  -- the path is cached, and in no directory
  obtain ⟨f, v, w, hhit, hmiss⟩ := h _ _ u' formatted_sevenFresh numbered_seven hrun _ hpath.1
  obtain ⟨rfl, -⟩ := Prod.mk.inj (Option.some.inj (hstale.symm.trans hhit))
  obtain ⟨x, hnone⟩ : ∃ x, fcfsGetFid sevenArgs { u' with mapFid := fun _ => none } (rootName 97) =
      some (0, x) := ((Looked.ids sevenArgs u' fun _ => none).sound hv.sound).fcfsGetFid_empty
    (fun _ => rfl) hgone.dir (by decide) (by decide)
  obtain ⟨h10, -⟩ := Prod.mk.inj (Option.some.inj (hnone.symm.trans hmiss))
  exact absurd h10 (by decide)

/-- A file is made and opened: its path is cached then. -/
theorem statTransparent_seven : ∃ s, Relation.ReflTransGen (HarmlessStep sevenArgs) sevenFresh s ∧
    s.mapFid (rootName 97) ≠ none ∧ StatTransparent sevenArgs s := by
  have hpath : (rootName 97).head? = some 47 ∧ (0 : UInt8) ∉ rootName 97 := ⟨rfl, by decide⟩
  obtain ⟨s, hmake, -, hopm, hfirst, -⟩ :=
    formatted_sevenFresh.make numbered_seven (by decide) (by decide)
  have hfind : ((dirOf sevenArgs s.dev 0).find? fun e => e.nameStr == [97]) = some oldEntry := by
    rw [hfirst.dir, List.find?_cons_of_pos (by rw [nameStr_oldEntry]; rfl)]
  obtain ⟨t, hget, -⟩ :=
    hfirst.volOk.fcfsGetFid_root (by decide) (by decide) (hfirst.ids _) (hfirst.ids _) hfind
  rw [fidOf_oldEntry] at hget
  obtain ⟨st, hcached, -⟩ : ∃ st, t.mapFid (rootName 97) = some st ∧ st.stDev = 1 :=
    mapFid_of_getFid hget (by decide)
  have hmade : HarmlessStep sevenArgs sevenFresh s := by
    refine ⟨makeFirst, hpath, ⟨hmake, fun p v hpar q f hq => ?_⟩, hopm⟩
    have hroot : fcfsGetPfid sevenArgs sevenFresh (rootName 97) = some (0, sevenFresh) :=
      fcfsGetPfid_root (by decide) rfl
    obtain ⟨rfl, rfl⟩ := Prod.mk.inj (Option.some.inj (hroot.symm.trans hpar))
    cases hq
  have hopen : HarmlessStep sevenArgs s t := by
    refine ⟨.opn (rootName 97), hpath, trivial, ?_⟩
    exact Option.map_eq_some_iff.mpr ⟨_, Option.bind_eq_some_iff.mpr ⟨_, hget, rfl⟩, rfl⟩
  have hrun := (Relation.ReflTransGen.single hmade).tail hopen
  exact ⟨t, hrun, by rw [hcached]; simp, statTransparent_of_run formatted_sevenFresh numbered_seven hrun⟩

end Fcfs.Vol
