import Fcfs.Vol.Files
import Fcfs.Vol.Recycle

/-! # What free blocks hold

Two volumes that differ in their free blocks only hold the same files. So they answer alike
(`unseen`), as long as no write begins behind the end of its file. One that does shows what the
blocks it takes held before: the bytes of a deleted file (`not_unseen_of_gap`). -/

namespace Fcfs.Vol

open Lib.Bytes Lib.Paged

/-- A request to create, write or read a file. -/
inductive Req where
  | create (now : UInt64) (path : Path) (mode : UInt32)
  | write (path : Path) (data : Buf) (size offset : ℕ) (fh : ℤ)
  | read (buf : Buf) (size offset : ℕ) (fh : ℤ)

/-- The result of the operation, and the buffer that has been read into. -/
abbrev Answer := ℤ × Option Buf

/-- The operation on a request. -/
def Req.run (a : Args) (s : St) : Req → Option (Answer × St)
  | create now path mode => (opsCreate a now s path mode).map fun r => ((r.1, none), r.2)
  | write path data size offset fh =>
    (opsWrite a s path data size offset fh).map fun r => ((r.1, none), r.2)
  | read buf size offset fh => (opsRead a s buf size offset fh).map fun r => ((r.1, some r.2.1), r.2.2)

/-- What is answered to a list of requests. -/
def answers (a : Args) : List Req → St → Option (List Answer × St)
  | [], s => some ([], s)
  | o :: os, s => do
    let (r, s) ← o.run a s
    let (rs, s) ← answers a os s
    some (r :: rs, s)

/-! ### Which requests -/

/-- **The request is about files that exist, and within bounds.** -/
def Req.Ok (a : Args) (s : St) : Req → Prop
  | create _ path _ => MakeOk a s path ∧ Forgotten s (devFreeFid a s.fsTable) (firstFree a s) ∧
      ((filesOf a s).parent path).isSome ∧ ∃ name, baseName path = some name ∧ name.length < 32
  | write path _ size offset fh => WriteOk a s path size offset fh ∧
      ∃ f F, (filesOf a s).target path fh = some (f, F) ∧ F.Has f
  | read _ size offset fh => (filesOf a s).Has fh ∧ offset + size ≤ ((filesOf a s).bytes fh).length

/-- **No gap**: a write begins no later than the file ends. -/
def Req.Gapless (a : Args) (s : St) : Req → Prop
  | write path _ _ offset fh => ∀ f F, (filesOf a s).target path fh = some (f, F) →
      offset ≤ (F.bytes f).length
  | _ => True

/-- The condition holds of every request when it is made. -/
def Along (a : Args) (P : St → Req → Prop) : List Req → St → Prop
  | [], _ => True
  | o :: os, s => P s o ∧ ∀ r t, o.run a s = some (r, t) → Along a P os t

/-- The two states differ in the free blocks only. -/
structure FreeDiffer (a : Args) (s t : St) : Prop where
  mem : t = { s with dev := t.dev }
  tabs : tab a t.dev = tab a s.dev
  blks : ∀ c b, data a t.dev c b = data a s.dev c b ∨
    c ≠ 0 ∧ ∃ i : Fin 7, b = i.val + 1 ∧ (tab a s.dev c i).fid = 0

/-- **What free blocks hold is not seen**: the answers are the same. -/
def Unseen (a : Args) (s t : St) (os : List Req) : Prop :=
  ∃ rs s' t', answers a os s = some (rs, s') ∧ answers a os t = some (rs, t')

/-! ### The same files, the same answers -/

section Same
variable {a : Args} {s t : St}

/-- **The volumes hold the same files.** -/
theorem FreeDiffer.filesOf (h : FreeDiffer a s t) : filesOf a t = filesOf a s := by
  have hmem := h.mem
  have htab : t.fsTable = s.fsTable := by rw [hmem]
  have hids : t.mapFid = s.mapFid := by rw [hmem]
  have hbytes : ∀ f, f = 0 ∨ Live s.fsTable f → fileBytes a t.dev f = fileBytes a s.dev f := by
    intro f hf
    obtain ⟨hf0, hft⟩ := fid_range hf
    unfold fileBytes
    rw [h.tabs, content_congr fun b hb => (h.blks b.cid b.bid).resolve_right ?_]
    rintro ⟨hc, i, hi, hfree⟩
    by_cases hz : f = 0
    · rw [hz, nodesAt_root] at hb
      exact hc (mem_nodesOf.mp hb).1
    · -- a block of a file is not free
      obtain ⟨-, j, hj, hfid, -⟩ := (mem_nodesAt hz).mp hb
      obtain rfl : i = j := Fin.ext (by omega)
      exact (u32_fid (by omega) hft).1 (hfid.symm.trans hfree)
  have hnone : ∀ f, ¬ (f = 0 ∨ Live t.fsTable f) → (Vol.filesOf a s).bytes f = [] := fun f hf =>
    if_neg fun hhas => hf (by rw [htab]; exact has_filesOf.mp (show (Vol.filesOf a s).Has f from hhas))
  have hlnk : ∀ f, (t.fsTable.entrs f).lnkCnt = (Vol.filesOf a s).lnk f := fun f => by rw [htab]; rfl
  rw [filesOf_eq hlnk (fun f hf => ?_) hnone, hids]
  · rfl
  · rw [htab] at hf
    rw [hbytes f hf, bytes_filesOf hf]

/-- What the request does to the files. -/
def Req.spec (a : Args) (F : Files) : Req → Option (Answer × Files)
  | create now path mode => (F.create a now path mode).map fun F => ((0, none), F)
  | write path data size offset fh =>
    (F.write path data size offset fh).map fun F => (((size : ℤ), none), F)
  | read buf size offset fh => (F.read buf size offset fh).map fun b => (((size : ℤ), some b), F)

/-- A request that leaves no gap does something to the files. -/
theorem Req.Ok.spec {o : Req} (hok : o.Ok a s) (hgap : o.Gapless a s) :
    ∃ r F, o.spec a (filesOf a s) = some (r, F) := by
  cases o with
  | create now path mode =>
    obtain ⟨-, -, hpar, name, hbase, -⟩ := hok
    obtain ⟨⟨p, F⟩, hpar⟩ := Option.isSome_iff_exists.mp hpar
    have hsome : ((filesOf a s).create a now path mode).isSome := by
      unfold Files.create
      rw [hpar, hbase]
      rfl
    obtain ⟨F', hcreate⟩ := Option.isSome_iff_exists.mp hsome
    exact ⟨_, F', Option.map_eq_some_iff.mpr ⟨F', hcreate, rfl⟩⟩
  | write path data size offset fh =>
    obtain ⟨-, f, F, htarget, hhas⟩ := hok
    have hsome : ((filesOf a s).write path data size offset fh).isSome := by
      unfold Files.write
      rw [htarget, Option.bind_eq_bind, Option.bind_some]
      dsimp only
      rw [if_pos ⟨hhas, hgap f F htarget⟩]
      rfl
    obtain ⟨F', hwrite⟩ := Option.isSome_iff_exists.mp hsome
    exact ⟨_, F', Option.map_eq_some_iff.mpr ⟨F', hwrite, rfl⟩⟩
  | read buf size offset fh =>
    have hread : ((filesOf a s).read buf size offset fh) = some _ := if_pos hok
    exact ⟨_, _, Option.map_eq_some_iff.mpr ⟨_, hread, rfl⟩⟩

/-- **The operation does that**, and answers accordingly. -/
theorem Req.Ok.run {o : Req} (hok : o.Ok a s) (hv : VolOk a s) (hn : Numbered a) {r : Answer} {F : Files}
    (h : o.spec a (filesOf a s) = some (r, F)) :
    ∃ s', o.run a s = some (r, s') ∧ VolOk a s' ∧ filesOf a s' = F := by
  cases o with
  | create now path mode =>
    obtain ⟨hmake, hforget, -, name, hbase, hname⟩ := hok
    obtain ⟨F', hcreate, heq⟩ := Option.map_eq_some_iff.mp h
    obtain ⟨rfl, rfl⟩ := Prod.mk.inj heq
    have hnames : ∀ name, baseName path = some name → name.length < 32 := by
      intro name' hbase'
      obtain rfl := Option.some.inj (hbase.symm.trans hbase')
      exact hname
    obtain ⟨s', hop, hvs, hfiles⟩ := hv.filesCreate hn hmake hforget hnames hcreate
    exact ⟨s', Option.map_eq_some_iff.mpr ⟨_, hop, rfl⟩, hvs, hfiles⟩
  | write path data size offset fh =>
    obtain ⟨F', hwrite, heq⟩ := Option.map_eq_some_iff.mp h
    obtain ⟨rfl, rfl⟩ := Prod.mk.inj heq
    obtain ⟨s', hop, hvs, hfiles⟩ := hv.filesWrite hn hok.1 hwrite
    exact ⟨s', Option.map_eq_some_iff.mpr ⟨_, hop, rfl⟩, hvs, hfiles⟩
  | read buf size offset fh =>
    obtain ⟨b, hread, heq⟩ := Option.map_eq_some_iff.mp h
    obtain ⟨rfl, rfl⟩ := Prod.mk.inj heq
    obtain ⟨s', hop, hvs, hfiles⟩ := hv.filesRead hread
    exact ⟨s', Option.map_eq_some_iff.mpr ⟨_, hop, rfl⟩, hvs, hfiles⟩

/-- Two volumes with the same files answer alike. The induction is on the requests. -/
theorem answers_eq (hn : Numbered a) (os : List Req) : ∀ {s t : St}, VolOk a s → VolOk a t →
    filesOf a t = filesOf a s → Along a (fun s o => o.Ok a s ∧ o.Gapless a s) os s →
    Along a (fun s o => o.Ok a s) os t → Unseen a s t os := by
  induction os with
  | nil => exact fun _ _ _ _ _ => ⟨[], _, _, rfl, rfl⟩
  | cons o os ih =>
    intro s t hvs hvt hfiles hs ht
    obtain ⟨⟨hok, hgap⟩, hs⟩ := hs
    obtain ⟨hokt, ht⟩ := ht
    obtain ⟨r, F, hspec⟩ := hok.spec hgap
    obtain ⟨s', hops, hvs', hfs⟩ := hok.run hvs hn hspec
    obtain ⟨t', hopt, hvt', hft⟩ := hokt.run hvt hn (by rw [hfiles]; exact hspec)
    obtain ⟨rs, s'', t'', hrs, hrt⟩ := ih hvs' hvt' (hft.trans hfs.symm) (hs r s' hops) (ht r t' hopt)
    refine ⟨r :: rs, s'', t'', ?_, ?_⟩
    · exact Option.bind_eq_some_iff.mpr ⟨_, hops, Option.bind_eq_some_iff.mpr ⟨_, hrs, rfl⟩⟩
    · exact Option.bind_eq_some_iff.mpr ⟨_, hopt, Option.bind_eq_some_iff.mpr ⟨_, hrt, rfl⟩⟩

/-- **What free blocks hold is not seen** by requests that leave no gaps. -/
theorem unseen (hvs : VolOk a s) (hvt : VolOk a t) (hn : Numbered a) (hfree : FreeDiffer a s t)
    {os : List Req} (hs : Along a (fun s o => o.Ok a s) os s) (ht : Along a (fun s o => o.Ok a s) os t)
    (hgap : Along a (fun s o => o.Gapless a s) os s) : Unseen a s t os := by
  refine answers_eq hn os hvs hvt hfree.filesOf ?_ ht
  clear ht hfree hvs hvt
  induction os generalizing s with
  | nil => trivial
  | cons o os ih => exact ⟨⟨hs.1, hgap.1⟩, fun r u hop => ih (hs.2 r u hop) (hgap.2 r u hop)⟩

end Same

/-! ### A gap -/

section Gap
variable {a : Args} {s s' : St} {data : Buf} {size offset : ℕ}

/-- The file made first is as long as what is written to it. -/
theorem FirstMade.leNat_put (h : FirstMade a s) (hput : Put a 1 data size offset s s')
    (hlen : offset + 4 + size < 2 ^ 31) :
    leNat 4 (content a s'.dev (nodesAt a (tab a s'.dev) 1)) = offset + size := by
  have hput' := hput.put
  rw [h.empty, Nat.zero_max] at hput'
  rw [hput']
  exact leNat_header (by omega)

/-- If that begins behind its end, what its second block held stands in the gap. -/
theorem FirstMade.gap (h : FirstMade a s) (hw : Written a 1 (writeNeed a size offset) s s')
    (hput : Put a 1 data size offset s s') (hneed : 2 ≤ writeNeed a size offset)
    (hlen : offset + 4 + size < 2 ^ 31) :
    ∃ (c : ℤ) (b : ℕ), 1 ≤ c ∧ c < a.cluCnt ∧ 1 ≤ b ∧ b ≤ 7 ∧
      (c, b) ≠ (1, 1) ∧ ∀ i, a.lblkSz ≤ i + 4 → i < offset → i + 4 < 2 * a.lblkSz →
        (fileBytes a s'.dev 1).getD i 0 = a.ciph.decrypt a.lblkSz (Vol.data a s.dev c b) (i + 4 - a.lblkSz) := by
  have hL : 1024 ≤ a.lblkSz := h.volOk.mounted.geo.le_lblkSz
  obtain ⟨cl, -, hok, -⟩ := hw.ok
  obtain ⟨l, hl, hlen'⟩ := hw.seq
  have hlist : l.Perm (nodesAt a (tab a s'.dev) 1) := hok.cached l hl
  have hseq := hok.seqOk
  have hsz := h.leNat_put hput hlen
  have hput' := hput.put
  rw [h.empty, Nat.zero_max] at hput'
  obtain ⟨b, hb, hnum⟩ := hseq.exists_num (k := 1) (by rw [← hlist.length_eq]; omega)
  obtain ⟨⟨h1, hc⟩, i, hi, hfid, hn⟩ := (mem_nodesAt one_ne_zero).mp hb
  refine ⟨b.cid, b.bid, h1, hc, by omega, by omega, fun heq => ?_, fun k hk hk' hk'' => ?_⟩
  · -- the first block is numbered 0
    obtain ⟨hcid, hbid⟩ := Prod.mk.inj heq
    have hfirst := hw.kept (h.nodes ▸ List.mem_singleton_self (⟨1, 1, 0⟩ : BlkInfo))
    obtain ⟨-, j, hj, -, hn'⟩ := (mem_nodesAt one_ne_zero).mp hfirst
    obtain rfl : j = i := Fin.ext (by simp only at hj; omega)
    rw [hnum, hcid] at hn
    simp only at hn'
    omega
  · have hpage := page_of_mem hseq s.dev hb
    rw [hnum] at hpage
    have hflat := flat_page (page a s.dev (nodesAt a (tab a s'.dev) 1)) 1
      (show k + 4 - a.lblkSz < a.lblkSz by omega)
    rw [show 1 * a.lblkSz + (k + 4 - a.lblkSz) = 4 + k by omega, hpage] at hflat
    unfold fileBytes
    rw [getD_bytesOf (by rw [hsz]; omega), hput', memcpy_out (by omega), memcpy_out (by omega)]
    exact hflat

/-- The first file is made, written to, and one byte of it read. -/
def writeReqs (size offset k : ℕ) : List Req :=
  [.create 0 (rootName 97) 0, .write (rootName 97) (fun _ => 0) size offset 1, .read (fun _ => 0) 1 k 1]

theorem Files.parent_root {F : Files} {bs : List UInt8} (hbs : (47 : UInt8) ∉ bs) (h : F.ids rootPath = none) :
    F.parent (47 :: bs) = some (0, F) := by
  refine Option.bind_eq_some_iff.mpr ⟨rootPath, parentPath_root hbs, ?_⟩
  unfold Files.find
  rw [show rootPath.length = 0 + 1 from rfl, Files.look, h]
  rfl

/-- **What is answered to them on a formatted volume**, and what stands on it then. -/
theorem Formatted.answers_writeReqs (h : Formatted a s) (hn : Numbered a) (hclu : 3 ≤ a.cluCnt)
    (htbl : 2 ≤ a.fsHead.tblCnt.toNat) (hint : offset + 4 + size < 2 ^ 31) {k : ℕ} (hk : k < offset + size)
    (hspace : writeNeed a size offset ≤ 7 * (a.cluCnt - 2 : ℕ)) (hcap : writeNeed a size offset ≤ 12 + secCap a) :
    Along a (fun s o => o.Ok a s) (writeReqs size offset k) s ∧ ∃ v u w b, FirstMade a v ∧
      (∀ c b, 1 ≤ c → (c, b) ≠ (1, 1) → Vol.data a v.dev c b = Vol.data a s.dev c b) ∧
      Written a 1 (writeNeed a size offset) v u ∧ Put a 1 (fun _ => 0) size offset v u ∧
      answers a (writeReqs size offset k) s = some ([(0, none), ((size : ℤ), none), (1, some b)], w) ∧
        b 0 = (fileBytes a u.dev 1).getD k 0 := by
  -- the file is made
  obtain ⟨s₁, hmake, hforget, hop₁, hfirst, hdata⟩ := h.make hn (by omega) htbl
  obtain ⟨⟨r₁, u₁⟩, hcreate, rfl⟩ := Option.map_eq_some_iff.mp hop₁
  have hpar : ((filesOf a s).parent (47 :: [97])).isSome := by
    rw [Files.parent_root (by decide) (h.ids _)]
    rfl
  have hok₁ : Req.Ok a s (.create 0 (rootName 97) 0) :=
    ⟨hmake, hforget, hpar, [97], baseName_root (by decide), by decide⟩
  obtain ⟨⟨r, b⟩, F₁, hspec₁⟩ := hok₁.spec trivial
  obtain ⟨rfl, rfl⟩ : r = 0 ∧ b = none := by
    obtain ⟨F, -, heq⟩ := Option.map_eq_some_iff.mp hspec₁
    exact ⟨(congrArg (fun q => q.1.1) heq).symm, (congrArg (fun q => q.1.2) heq).symm⟩
  obtain ⟨v₁, hrun₁, -, -⟩ := hok₁.run h.volOk hn hspec₁
  have hrun₁' : Req.run a s (.create 0 (rootName 97) 0) = some ((r₁, none), u₁) :=
    Option.map_eq_some_iff.mpr ⟨_, hcreate, rfl⟩
  obtain ⟨-, rfl⟩ := Prod.mk.inj (Option.some.inj (hrun₁.symm.trans hrun₁'))
  -- and written to
  have hfits : Fits a v₁ 1 (writeNeed a size offset) := hfirst.fits hclu hspace hcap
  have hwok : WriteOk a v₁ (rootName 97) size offset 1 := hfirst.writeOk hint hfits
  have hfid : writeFid a v₁ (rootName 97) 1 = some (1, v₁) := rfl
  obtain ⟨u₂, hwrite, hv₂, hw, hput⟩ :=
    hfirst.volOk.write hn.clus (Or.inr hfirst.live) hfid (fun _ => 0) hwok.int hfits
  have hhas₁ : (filesOf a v₁).Has 1 := has_filesOf.mpr (Or.inr hfirst.live)
  have hok₂ : Req.Ok a v₁ (.write (rootName 97) (fun _ => 0) size offset 1) :=
    ⟨hwok, 1, filesOf a v₁, rfl, hhas₁⟩
  have hrun₂ : Req.run a v₁ (.write (rootName 97) (fun _ => 0) size offset 1) = some (((size : ℤ), none), u₂) :=
    Option.map_eq_some_iff.mpr ⟨_, hwrite, rfl⟩
  -- and read
  have hlive : (1 : ℤ) = 0 ∨ Live u₂.fsTable 1 :=
    Or.inr ⟨by decide, by decide, by rw [hw.lnk]; exact hfirst.live.lnk⟩
  have hok₃ : Req.Ok a u₂ (.read (fun _ => 0) 1 k 1) := by
    refine ⟨has_filesOf.mpr hlive, ?_⟩
    rw [bytes_filesOf hlive]
    unfold fileBytes
    rw [length_bytesOf, hfirst.leNat_put hput hint]
    omega
  obtain ⟨buf, hread, hbuf⟩ : ∃ buf, (filesOf a u₂).read (fun _ => 0) 1 k 1 = some buf ∧
      buf 0 = ((filesOf a u₂).bytes 1).getD k 0 :=
    ⟨_, if_pos hok₃, memcpy_in (le_refl 0) (by decide)⟩
  obtain ⟨u₃, hop₃, -, -⟩ := hv₂.filesRead hread
  have hrun₃ : Req.run a u₂ (.read (fun _ => 0) 1 k 1) = some ((1, some buf), u₃) :=
    Option.map_eq_some_iff.mpr ⟨_, hop₃, rfl⟩
  refine ⟨⟨hok₁, fun r t hr => ?_⟩, v₁, u₂, u₃, buf, hfirst, hdata, hw, hput, ?_, ?_⟩
  · obtain ⟨-, rfl⟩ := Prod.mk.inj (Option.some.inj (hrun₁.symm.trans hr))
    refine ⟨hok₂, fun r t hr => ?_⟩
    obtain ⟨-, rfl⟩ := Prod.mk.inj (Option.some.inj (hrun₂.symm.trans hr))
    exact ⟨hok₃, fun _ _ _ => trivial⟩
  · refine Option.bind_eq_some_iff.mpr ⟨_, hrun₁,
      Option.bind_eq_some_iff.mpr ⟨([((size : ℤ), none), (1, some buf)], u₃), ?_, rfl⟩⟩
    refine Option.bind_eq_some_iff.mpr ⟨_, hrun₂,
      Option.bind_eq_some_iff.mpr ⟨([(1, some buf)], u₃), ?_, rfl⟩⟩
    exact Option.bind_eq_some_iff.mpr ⟨_, hrun₃, Option.bind_eq_some_iff.mpr ⟨([], u₃), rfl, rfl⟩⟩
  · rw [hbuf, bytes_filesOf hlive]

/-- A byte is written far behind the end of the file, and one of the gap read. -/
def gapReqs : List Req := writeReqs 1 2000 1500

/-- What is answered on a volume whose free blocks are full of `x`: the byte of the gap is `x`. -/
theorem Formatted.answers_gapReqs {x : UInt8} (h : Formatted a s) (hn : Numbered a) (hclu : 3 ≤ a.cluCnt)
    (htbl : 2 ≤ a.fsHead.tblCnt.toNat) (hL : a.lblkSz = 1024)
    (hx : ∀ (c : ℤ) (b : ℕ), 1 ≤ c → c < a.cluCnt → 1 ≤ b → b ≤ 7 → ∀ i < 1024,
      a.ciph.decrypt 1024 (Vol.data a s.dev c b) i = x) :
    Along a (fun s o => o.Ok a s) gapReqs s ∧
      ∃ b s', answers a gapReqs s = some ([(0, none), (1, none), (1, some b)], s') ∧ b 0 = x := by
  have hneed : writeNeed a 1 2000 = 2 := by
    unfold writeNeed
    rw [hL]
    decide
  have hint : 2000 + 4 + 1 < 2 ^ 31 := by decide
  have hgapAt : 1500 < 2000 + 1 := by decide
  obtain ⟨hok, v, u, w, buf, hfirst, hdata, hw, hput, hans, hbuf⟩ :=
    h.answers_writeReqs hn hclu htbl hint hgapAt (by rw [hneed]; omega) (by rw [hneed]; omega)
  obtain ⟨c, b, h1, hc, hb1, hb7, hne, hgap⟩ := hfirst.gap hw hput (by rw [hneed]) (by decide)
  refine ⟨hok, buf, w, hans, ?_⟩
  rw [hbuf, hgap 1500 (by omega) (by omega) (by omega), hL, hdata c b h1 hne]
  exact hx c b h1 hc hb1 hb7 _ (by decide)

end Gap

/-! ### Samples -/

theorem data_freshSt {h : FcfsHead} (hg : Geo h) (x : UInt8) {c : ℤ} {b : ℕ} (h1 : 1 ≤ c)
    (hc : c < (imageArgs h).cluCnt) (hb1 : 1 ≤ b) (hb7 : b ≤ 7) :
    data (imageArgs h) (freshSt h x).dev c b = cut h.lblkSz fun _ => x := by
  refine (data_sample hg _ _ ⟨by omega, hc, Nat.lt_succ_of_le hb7⟩ hb1).trans (cut_congr fun i _ => ?_)
  exact if_neg (by omega)

/-- Two formatted volumes with other bytes in the free blocks. -/
theorem freeDiffer_freshSt {h : FcfsHead} (hg : Geo h) (x y : UInt8) :
    FreeDiffer (imageArgs h) (freshSt h x) (freshSt h y) := by
  refine ⟨rfl, funext fun c => ?_, fun c b => ?_⟩
  · by_cases hc : 0 ≤ c ∧ c < (imageArgs h).cluCnt
    · exact (tab_sample hg _ _ hc.1 hc.2).trans (tab_sample hg _ _ hc.1 hc.2).symm
    · unfold tab ctable
      rw [if_neg hc, if_neg hc]
  · by_cases hin : InVol (imageArgs h) c b ∧ 1 ≤ b
    · by_cases h0 : c = 0
      · refine Or.inl ((data_sample hg _ _ hin.1 hin.2).trans ?_)
        refine Eq.trans (cut_congr fun i _ => ?_) (data_sample hg _ _ hin.1 hin.2).symm
        rw [h0]
        rfl
      · obtain ⟨⟨hc0, hc, hb⟩, hb1⟩ := hin
        have hb7 : b < 8 := hb
        refine Or.inr ⟨h0, ⟨b - 1, by omega⟩, (Nat.sub_add_cancel hb1).symm, ?_⟩
        refine (congrArg BlkEnt.fid (congrFun (tab_sample hg _ _ hc0 hc) _)).trans ?_
        unfold freshTab
        split_ifs <;> rfl
    · refine Or.inl ?_
      unfold data
      rw [if_neg hin, if_neg hin]

theorem gapReqs_seven (x : UInt8) : Along sevenArgs (fun s o => o.Ok sevenArgs s) gapReqs (freshSt sevenHead x) ∧
    ∃ b s', answers sevenArgs gapReqs (freshSt sevenHead x) =
      some ([(0, none), (1, none), (1, some b)], s') ∧ b 0 = x := by
  have hF : Formatted sevenArgs (freshSt sevenHead x) := formatted_freshSt geo_sevenHead (by decide) x
  have hclu := cluCnt_sevenArgs
  refine hF.answers_gapReqs numbered_seven (hclu ▸ by decide) (by decide) lblkSz_sevenArgs
    fun c b h1 hc hb1 hb7 i hi => ?_
  have hdata := data_freshSt geo_sevenHead x h1 hc hb1 hb7
  have hdec : ∀ b, sevenArgs.ciph.decrypt 1024 b = cut 1024 b := plain_decrypt 1024
  have hL : sevenHead.lblkSz = 1024 := lblkSz_sevenArgs
  rw [hL] at hdata
  rw [hdec, cut_of_lt _ hi]
  exact (congrFun hdata i).trans (cut_of_lt _ hi)

/-- `unseen` fails without its condition: the byte in the gap is what a free block held. -/
theorem not_unseen_of_gap : ¬ ∀ (a : Args) (s t : St) (os : List Req), VolOk a s → VolOk a t → Numbered a →
    FreeDiffer a s t → Along a (fun s o => o.Ok a s) os s → Along a (fun s o => o.Ok a s) os t →
      Unseen a s t os := by
  intro h
  obtain ⟨hs, b, s', hops, hb⟩ := gapReqs_seven 0
  obtain ⟨ht, b', t', hopt, hb'⟩ := gapReqs_seven 83
  have hFs : Formatted sevenArgs (freshSt sevenHead 0) := formatted_freshSt geo_sevenHead (by decide) 0
  have hFt : Formatted sevenArgs (freshSt sevenHead 83) := formatted_freshSt geo_sevenHead (by decide) 83
  obtain ⟨rs, u, v, hu, hv⟩ := h _ _ _ gapReqs hFs.volOk hFt.volOk numbered_seven
    (freeDiffer_freshSt geo_sevenHead 0 83) hs ht
  obtain ⟨rfl, -⟩ := Prod.mk.inj (Option.some.inj (hops.symm.trans hu))
  have heq := congrArg Prod.fst (Option.some.inj (hopt.symm.trans hv))
  have hbuf : b' = b := by simpa using heq
  rw [hbuf, hb] at hb'
  exact absurd hb' (by decide)

/-- `unseen` for a file of two blocks that is made, written and read on the sample volumes. -/
theorem unseen_seven : Unseen sevenArgs (freshSt sevenHead 0) (freshSt sevenHead 83) (writeReqs 2000 0 1500) := by
  have hF : ∀ x, Formatted sevenArgs (freshSt sevenHead x) := formatted_freshSt geo_sevenHead (by decide)
  have hclu : 3 ≤ sevenArgs.cluCnt := cluCnt_sevenArgs ▸ by decide
  have hneed : writeNeed sevenArgs 2000 0 = 2 := by
    unfold writeNeed
    rw [lblkSz_sevenArgs]
    decide
  have hok : ∀ x, Along sevenArgs (fun s o => o.Ok sevenArgs s) (writeReqs 2000 0 1500) (freshSt sevenHead x) :=
    fun x => ((hF x).answers_writeReqs numbered_seven hclu (by decide) (by decide) (by decide)
      (by rw [hneed]; omega) (by rw [hneed]; omega)).1
  exact unseen (hF 0).volOk (hF 83).volOk numbered_seven (freeDiffer_freshSt geo_sevenHead 0 83) (hok 0) (hok 83)
    ⟨trivial, fun _ _ _ => ⟨fun _ _ _ => Nat.zero_le _, fun _ _ _ => ⟨trivial, fun _ _ _ => trivial⟩⟩⟩

end Fcfs.Vol
