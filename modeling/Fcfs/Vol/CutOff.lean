import Fcfs.Vol.LifeCycle

/-! # Cut off in a call

A process that is killed leaves the device as its last write has left it, in the middle of a call as well. Every
effect of the driver leaves header and bitmap on the device as they are in memory, and a whole file table, which
need not be the one in memory (`Mountable`). So wherever a run of calls is cut off between two effects, the next
mount succeeds (`mounts_when_cut`); it finds the volume in order for sure where no call is under way
(`mounts_after_run`). -/

namespace Fcfs.Vol

open Lib.Bytes Lib.Runs Persist Fmtr.Volume

/-- **The device can be mounted**: header and bitmap stand on it as they are in memory, and so does a file table
of the volume. -/
structure Mountable (a : Args) (s : St) : Prop extends Front a s where
  table : ∃ T : FcfsTable, T.hashsum = s.fsTable.hashsum ∧ ∀ i < a.tblBlkLen,
    s.dev.bytes (a.lblkSz + a.btmBlkLen + i) = a.ciph.encrypt a.tblBlkLen (cut sizeofTable T.bytes) i

section CutOff
variable {a : Args} {s t u : St}

theorem Synced.mountable (h : Synced a s) : Mountable a s := ⟨h.toFront, s.fsTable, rfl, h.table⟩

/-- With the table that stands on the device in memory, all metadata is as in memory. -/
theorem Mountable.synced (h : Mountable a s) : ∃ T, Synced a { s with fsTable := T } := by
  obtain ⟨T, hhash, htable⟩ := h.table
  exact ⟨T, ⟨h.mounted, h.head, h.bitmap, hhash.trans h.hash⟩, htable⟩

theorem Mountable.congr (h : Mountable a s) (hm : Mounted a t.dev) (hsame : SameFront a s.dev t.dev)
    (hbm : t.fsBitmap = s.fsBitmap) (hhash : t.fsTable.hashsum = s.fsTable.hashsum) : Mountable a t := by
  have hle := h.mounted.regions_le
  obtain ⟨T, hT, htable⟩ := h.table
  refine ⟨h.toFront.congr hm hsame hbm hhash, T, hT.trans hhash.symm, fun i hi => ?_⟩
  rw [hsame.bytes _ (by omega)]
  exact htable i hi

/-- **Every effect leaves the device so that it can be mounted**, if the block it may write lies in the
volume. -/
theorem Effect.keeps_mountable (h : Effect a s t) : Keeps devLog (InVolume a) (Mountable a) s t := by
  cases h with
  | block h =>
    refine Keeps.entry (devWriteBlock_log h) fun hin hf => ?_
    rw [Mounted.devWriteBlock_eq hf.mounted hin] at h
    obtain ⟨-, rfl⟩ := Prod.mk.inj (Option.some.inj h)
    exact hf.congr (hf.mounted.putBlk _ _ _) (sameFront_putBlk _ _ _ _ _) rfl rfl
  | bitmap h =>
    refine Keeps.silent (updBitmap_dev h) fun hf => ?_
    rcases updBitmap_cases hf.mounted h with rfl | ⟨bm, rfl⟩
    · exact hf
    · have hle := hf.mounted.regions_le
      obtain ⟨T, hT, htable⟩ := hf.table
      exact ⟨hf.toFront.putBitmap bm, T, hT, fun i hi => (memcpy_out (by omega)).trans (htable i hi)⟩
  | table => exact Keeps.silent rfl fun hf => hf.toFront.putTable.mountable
  | memory hdev hbm hhash =>
    refine Keeps.silent (congrArg Dev.log hdev) fun hf => ?_
    exact hf.congr (by rw [hdev]; exact hf.mounted) (by rw [hdev]; exact ⟨rfl, fun _ _ => rfl⟩) hbm hhash

/-- What has been written on the way lies in the volume if all of it does. -/
theorem Inside.upTo (h : Inside a s t) (hsu : Worked a s u) (hut : Worked a u t) : Inside a s u := by
  obtain ⟨new, hlog, hnew⟩ := h
  obtain ⟨new₁, hlog₁, -⟩ := hsu.keeps_front
  obtain ⟨new₂, hlog₂, -⟩ := hut.keeps_front
  rw [hlog₁, ← List.append_assoc, hlog] at hlog₂
  obtain rfl := List.append_cancel_right hlog₂
  exact ⟨new₁, hlog₁, fun e he => hnew e (List.mem_append_right _ he)⟩

theorem Mountable.upTo (h : Mountable a s) (hin : Inside a s t) (hsu : Worked a s u) (hut : Worked a u t) :
    Mountable a u := by
  obtain ⟨new, hlog, hnew⟩ := hin.upTo hsu hut
  exact (Keeps.of_run (fun _ _ => Effect.keeps_mountable) hsu).inv hlog hnew h

/-- **Calls that can be served** are effects on blocks of the volume. The induction is on the calls. -/
theorem VolOk.worked_replies (hn : Numbered a) : ∀ (cs : List Call) {s t : St} {rs : List Reply}, VolOk a s →
    ServableAll a cs s → replies a cs s = some (rs, t) → Worked a s t ∧ Inside a s t
  | [], s, t, rs, _, _, hrun => by
    obtain ⟨-, rfl⟩ := Prod.mk.inj (Option.some.inj hrun)
    exact ⟨Relation.ReflTransGen.refl, Inside.refl a s⟩
  | c :: cs, s, t, rs, hv, hok, hrun => by
    obtain ⟨hc, hrest⟩ := hok
    obtain ⟨⟨r, u⟩, hcall, hrun⟩ := Option.bind_eq_some_iff.mp hrun
    obtain ⟨⟨rs', v⟩, hcalls, heq⟩ := Option.bind_eq_some_iff.mp hrun
    obtain ⟨-, rfl⟩ := Prod.mk.inj (Option.some.inj heq)
    obtain ⟨hw, hin⟩ := VolOk.worked_replies hn cs (hv.call hn hc hcall) (hrest r u hcall) hcalls
    exact ⟨(orderlyIf_call hcall).1.trans hw, (hv.inside_call hn hc hcall).trans hin⟩

/-- **Wherever a run of calls is cut off, the device can be mounted.** The run is a sequence of effects, and
between any two of them the next mount, in any process and over any memory, succeeds and reads in the bits that
are written. -/
theorem mounts_when_cut (hn : Numbered a) (hr : Regions a.fsHead) {cs : List Call} {rs : List Reply}
    (hv : VolOk a s) (hs : Synced a s) (hcs : ServableAll a cs s) (hrun : replies a cs s = some (rs, t)) :
    Worked a s t ∧ ∀ u, Worked a s u → Worked a u t → ∀ (junk : Buf) (uid gid : UInt32), ∃ v,
      opsInit a.ciph junk uid gid a.fsHead.phyBlkSz.toNat (opsDestroy u) = some (remounted a junk uid gid, v) ∧
        v.dev = u.dev ∧ v.fsBitmap = readBack a junk u := by
  obtain ⟨hw, hin⟩ := VolOk.worked_replies hn cs hv hcs hrun
  refine ⟨hw, fun u hsu hut junk uid gid => ?_⟩
  obtain ⟨T, hsync⟩ := (hs.mountable.upTo hin hsu hut).synced
  obtain ⟨v, hop, -, hin⟩ := hsync.mount junk uid gid hr
  exact ⟨v, hop, hin.dev, hin.bitmap⟩

end CutOff

/-- The making of a directory is cut off. -/
theorem mounts_when_cut_eight : ∃ d t,
    fmtrMain plainCipher (fun _ => 0) 512 4486 1 (fun _ => 0) (Fmtr.Mounts.blankDev (512 * 4486)) = some d ∧
      replies eightArgs [.mkdir 0 (rootName 97) 0] (formattedSt d 1) = some ([.code 0], t) ∧
        Worked eightArgs (formattedSt d 1) t ∧ ∀ u, Worked eightArgs (formattedSt d 1) u → Worked eightArgs u t →
          ∃ v, opsInit plainCipher (fun _ => 255) 1 1 512 (opsDestroy u) =
            some (remounted eightArgs (fun _ => 255) 1 1, v) ∧ v.dev = u.dev := by
  obtain ⟨d, hmain⟩ := formats_blank.completes fun _ => 0
  have hform := formats_blank.formatted hmain
  obtain ⟨hcs, t, hrun⟩ := hform.mkdir_run numbered_eight (by decide) (by decide)
  obtain ⟨hw, hcut⟩ := mounts_when_cut numbered_eight formats_blank.regions hform.volOk
    (formats_blank.synced hmain) hcs hrun
  refine ⟨d, t, hmain, hrun, hw, fun u hsu hut => ?_⟩
  obtain ⟨v, hop, hdev, -⟩ := hcut u hsu hut (fun _ => 255) 1 1
  exact ⟨v, hop, hdev⟩

end Fcfs.Vol
