import Fcfs.Structs
import Mathlib.Algebra.Order.Group.Int
import Mathlib.Tactic.Push

/-! # The driver's state

What the driver works on: the mounted header and the cipher handle, which no operation changes
(`Args`), and everything the operations do change (`St`): the device, the bitmap and the file table
in memory, the one-entry cluster-list cache of `table.c` and the two hash maps of `cache/`.

A driver function is a function of the state that returns its C result and the new state in
`Option`. `none` means that the C code has no defined outcome there: it dereferences a null
pointer, leaves an array, or loops for ever.

`int` values are integers. Sums and products wrap (`cint`) only where the code computes a seek
position or converts an unsigned value; elsewhere they cannot leave the type. -/

namespace Fcfs

open Lib.Bytes

/-! ### C integers -/

/-- The value of an `int` from the integer it stands for modulo `2^32`. -/
def cint (x : ℤ) : ℤ := Int.bmod x (2 ^ 32)

/-- An `int` converted to `unsigned`. -/
def u32 (x : ℤ) : UInt32 := UInt32.ofNat (x % 2 ^ 32).toNat

/-- An `int` converted to `unsigned short`. -/
def u16 (x : ℤ) : UInt16 := UInt16.ofNat (x % 2 ^ 16).toNat

/-- An `int` converted to `size_t`, as in `i < n` with `size_t i` and `int n`. -/
def toSizeT (x : ℤ) : ℕ := (x % 2 ^ 64).toNat

theorem cint_of_lt {x : ℤ} (h0 : 0 ≤ x) (h : x < 2 ^ 31) : cint x = x := by
  unfold cint
  rw [Int.bmod_def]
  omega

theorem toNat_u32 (x : ℤ) : (u32 x).toNat = (x % 2 ^ 32).toNat := by
  unfold u32
  rw [UInt32.toNat_ofNat']
  omega

theorem toNat_u32_of_lt {x : ℤ} (h0 : 0 ≤ x) (h : x < 2 ^ 32) : (u32 x).toNat = x.toNat := by
  rw [toNat_u32]; omega

theorem u32_inj {x y : ℤ} (hx : 0 ≤ x) (hx' : x < 2 ^ 32) (hy : 0 ≤ y) (hy' : y < 2 ^ 32) :
    u32 x = u32 y ↔ x = y := by
  constructor
  · intro h
    have := congrArg UInt32.toNat h
    rw [toNat_u32_of_lt hx hx', toNat_u32_of_lt hy hy'] at this
    omega
  · rintro rfl; rfl

theorem toNat_u16_of_lt {x : ℤ} (h0 : 0 ≤ x) (h : x < 2 ^ 16) : (u16 x).toNat = x.toNat := by
  unfold u16
  rw [UInt16.toNat_ofNat']
  omega

theorem toSizeT_of_nonneg {x : ℤ} (h0 : 0 ≤ x) (h : x < 2 ^ 31) : toSizeT x = x.toNat := by
  unfold toSizeT; omega

theorem toSizeT_natCast {n : ℕ} (h : n < 2 ^ 31) : toSizeT (n : ℤ) = n := by
  rw [toSizeT_of_nonneg (by omega) (by omega), Int.toNat_natCast]

theorem toSizeT_cint {n : ℕ} (h : n < 2 ^ 31) : toSizeT (cint n) = n := by
  rw [cint_of_lt (by omega) (by omega), toSizeT_natCast h]

/-! ### The cipher -/

/-- The opened cipher handle: what `gcry_cipher_encrypt` and `gcry_cipher_decrypt` do to a buffer
of `n` bytes. -/
structure Cipher where
  enc : (n : ℕ) → (Fin n → UInt8) → Fin n → UInt8
  dec : (n : ℕ) → (Fin n → UInt8) → Fin n → UInt8
  dec_enc : ∀ n b, dec n (enc n b) = b

namespace Cipher

/-- Encrypting the first `n` bytes of a buffer. -/
def encrypt (c : Cipher) (n : ℕ) (b : Buf) : Buf :=
  fun i => if hi : i < n then c.enc n (fun j => b j) ⟨i, hi⟩ else 0

/-- Decrypting the first `n` bytes of a buffer. -/
def decrypt (c : Cipher) (n : ℕ) (b : Buf) : Buf :=
  fun i => if hi : i < n then c.dec n (fun j => b j) ⟨i, hi⟩ else 0

@[simp] theorem cut_encrypt (c : Cipher) (n : ℕ) (b : Buf) : cut n (c.encrypt n b) = c.encrypt n b := by
  funext i
  unfold cut encrypt
  split_ifs <;> rfl

theorem decrypt_congr (c : Cipher) {n : ℕ} {b b' : Buf} (h : ∀ i < n, b i = b' i) :
    c.decrypt n b = c.decrypt n b' := by
  have hfun : (fun j : Fin n => b j) = fun j : Fin n => b' j := by funext j; exact h _ j.isLt
  unfold decrypt
  rw [hfun]

theorem decrypt_cut (c : Cipher) (n : ℕ) (b : Buf) : c.decrypt n (cut n b) = c.decrypt n b :=
  c.decrypt_congr fun _ hi => cut_of_lt b hi

theorem encrypt_cut (c : Cipher) (n : ℕ) (b : Buf) : c.encrypt n (cut n b) = c.encrypt n b := by
  have hfun : (fun j : Fin n => cut n b j) = fun j : Fin n => b j := by
    funext j; exact cut_of_lt b j.isLt
  unfold encrypt
  rw [hfun]

theorem decrypt_encrypt (c : Cipher) (n : ℕ) (b : Buf) : c.decrypt n (c.encrypt n b) = cut n b := by
  have hfun : (fun j : Fin n => c.encrypt n b j) = c.enc n (fun j => b j) := by
    funext j; simp [encrypt]
  funext i
  unfold decrypt cut
  rw [hfun, c.dec_enc]
  split_ifs <;> rfl

end Cipher

/-! ### The state -/

/-- What stays as it is from mount to unmount. `junk` is the memory the code never wrote: what
stands in an uninitialised array or behind the end of an allocated buffer. -/
structure Args where
  fsHead : FcfsHead
  ciph : Cipher
  junk : Buf
  uid : UInt32
  gid : UInt32

/-- The size of a logical block, `lblk_sz`. -/
def Args.lblkSz (a : Args) : ℕ := a.fsHead.lblkSz

/-- The number of clusters, `clu_cnt`. -/
def Args.cluCnt (a : Args) : ℕ := a.fsHead.cluCnt.toNat

/-- The device behind `args->dev`. `short n` says after how many bytes the `n`-th `fwrite` stops
short, if it does. `log` are the blocks handed to `dev_write_block` so far, newest first, and `lost`
those among them that were not stored whole; no function reads either. -/
structure Dev where
  size : ℕ
  bytes : Buf
  short : ℕ → Option ℕ
  writes : ℕ
  log : List (ℤ × ℕ)
  lost : List (ℤ × ℕ)

namespace Dev

/-- `fread` of `len` bytes at `pos`; `none` when the device ends before. -/
def fread (d : Dev) (pos len : ℕ) : Option Buf :=
  if pos + len ≤ d.size then some (cut len (shift d.bytes pos)) else none

/-- How many of `len` bytes the next `fwrite` at `pos` stores. -/
def stored (d : Dev) (pos len : ℕ) : ℕ :=
  min (min len (d.size - pos)) ((d.short d.writes).getD len)

/-- `fwrite` of `len` bytes at `pos`: the number of bytes stored, and the device after it. -/
def fwrite (d : Dev) (pos : ℕ) (b : Buf) (len : ℕ) : ℕ × Dev :=
  (d.stored pos len,
    { d with bytes := memcpy d.bytes pos b (d.stored pos len), writes := d.writes + 1 })

end Dev

/-- `dev_blk_info_t` without the link: one node of a block list. -/
structure BlkInfo where
  cid : ℤ
  bid : ℕ
  num : ℕ
deriving DecidableEq

/-- `dev_clrs_cache_t`. The third-level fields are never used. -/
structure ClrsCache where
  fid : ℤ
  s0Cl : ℕ → UInt32
  s1Cl : ℕ → UInt32
  s0Cnt : ℕ
  s1Cnt : ℕ

/-- A path, without the terminating zero. -/
abbrev Path := List UInt8

/-- The fields of `struct stat` the driver fills. -/
structure Stat where
  stDev : ℤ
  stMode : UInt32
  stNlink : ℕ
  stSize : ℤ
  stUid : UInt32
  stGid : UInt32
  stAtime : UInt64
  stMtime : UInt64
  stCtime : UInt64

/-- A cleared `struct stat`. -/
def Stat.zero : Stat := ⟨0, 0, 0, 0, 0, 0, 0, 0, 0⟩

/-- Everything the driver changes. The bitmap is the memory from `fs_bitmap` on. The hash maps are
finite maps: `mapSeq` from the decimal file identifier to the cached block list, `mapFid` from the
path to the cached `struct stat`. -/
structure St where
  dev : Dev
  fsBitmap : ℕ → UInt8
  fsTable : FcfsTable
  clrsCache : ClrsCache
  mapSeq : ℤ → Option (List BlkInfo)
  mapFid : Path → Option Stat

end Fcfs
