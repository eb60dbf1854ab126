import Fcfs.Lib.Bytes
import Fcfs.Lib.Ring
import Mathlib.Data.List.DropRight
import Mathlib.Data.List.Rotate

/-! # The password prompt

`get_passwd`, which the driver and the formatter each have a copy of. The position in the buffer is
an `unsigned char` that counts the rejected newlines as well and is never set back, and what is
hashed is the string up to the first zero. A rejected attempt leaves a zero at its newline, and ends
the string there, unless the keys go round the whole buffer; so the string is what was typed last
exactly when nothing was rejected and it has fewer than 256 characters, or in a round of 256 keys
that repeats itself (`getPasswd_iff`). -/

namespace Fcfs

open Lib Lib.Bytes

/-- The key that ends an attempt. -/
def newline : UInt8 := 10

/-- `FCFS_MIN_PASSWORD_LEN`. -/
def minPasswordLen : UInt8 := 6

/-- `PASSWD_BUF_LEN` of the driver. -/
def passwdBufLen : ℕ := 1024

/-- `PASSWD_BUF_LEN` of the formatter. -/
def Fmtr.passwdBufLen : ℕ := 1024

/-- The loop of `get_passwd`: the buffer it ends with and the keys it did not read, or `none` when
the keys end first. -/
def passwdLoop (minLen : UInt8) : List UInt8 → Buf → UInt8 → Option (Buf × List UInt8)
  | [], _, _ => none
  | c :: keys, buf, pos =>
    if c = newline then
      if minLen ≤ pos then some (buf, keys) else passwdLoop minLen keys buf (pos + 1)
    else passwdLoop minLen keys (Function.update buf pos.toNat c) (pos + 1)

/-- The string in an array of `n` characters. -/
def strOf : ℕ → Buf → List UInt8
  | 0, _ => []
  | n + 1, buf => if buf 0 = 0 then [] else buf 0 :: strOf n (shift buf 1)

/-- `get_passwd` as far as `get_md`: the string that is hashed, and the keys not read. -/
def passwd (bufLen : ℕ) (minLen : UInt8) (keys : List UInt8) : Option (List UInt8 × List UInt8) :=
  (passwdLoop minLen keys (fun _ => 0) 0).map fun r => (strOf bufLen r.1, r.2)

/-- `get_passwd` of the driver. -/
def getPasswd (keys : List UInt8) : Option (List UInt8 × List UInt8) :=
  passwd passwdBufLen minPasswordLen keys

/-- `get_passwd` of the formatter. -/
def Fmtr.getPasswd (keys : List UInt8) : Option (List UInt8 × List UInt8) :=
  passwd Fmtr.passwdBufLen minPasswordLen keys

/-! ### The string in the buffer -/

section Str
variable {b : Buf} {n : ℕ}

theorem strOf_getElem {j : ℕ} (h : j < (strOf n b).length) : (strOf n b)[j] = b j := by
  induction n generalizing b j with
  | zero => simp [strOf] at h
  | succ n ih =>
    unfold strOf at h ⊢
    split_ifs at h ⊢ with h0
    · simp at h
    · cases j with
      | zero => rfl
      | succ j =>
        have hj : j < (strOf n (shift b 1)).length := by simpa using h
        have := ih hj
        rw [shift_apply, Nat.add_comm 1 j] at this
        exact this

theorem strOf_length {k : ℕ} (hk : k < n) (hz : b k = 0) (hnz : ∀ j < k, b j ≠ 0) :
    (strOf n b).length = k := by
  induction n generalizing b k with
  | zero => omega
  | succ n ih =>
    unfold strOf
    cases k with
    | zero => rw [if_pos hz]; rfl
    | succ k =>
      rw [if_neg (hnz 0 (by omega)), List.length_cons]
      refine congrArg (· + 1) (ih (by omega) ?_ fun j hj => ?_)
      · rw [shift_apply, Nat.add_comm]
        exact hz
      · rw [shift_apply, Nat.add_comm]
        exact hnz (j + 1) (by omega)

theorem strOf_eq {w : List UInt8} (hn : w.length < n) (hz : b w.length = 0)
    (hw : ∀ (j : ℕ) (hj : j < w.length), b j = w[j]) (hnz : ∀ c ∈ w, c ≠ 0) : strOf n b = w := by
  have hlen := strOf_length hn hz fun j hj => by
    rw [hw j hj]
    exact hnz _ (List.getElem_mem hj)
  refine List.ext_getElem hlen fun j hj hj' => ?_
  rw [strOf_getElem, hw j hj']

theorem strOf_length_le {k : ℕ} (hk : k < n) (hz : b k = 0) : (strOf n b).length ≤ k := by
  have hex : ∃ k, b k = 0 := ⟨k, hz⟩
  classical
  have hle := Nat.find_min' hex hz
  rw [strOf_length (lt_of_le_of_lt hle hk) (Nat.find_spec hex) fun j hj => Nat.find_min hex hj]
  exact hle

end Str

/-! ### The keys in the buffer -/

/-- What a key does to the buffer: a rejected newline passes a character by. -/
def stroke (c : UInt8) : Option UInt8 := if c = newline then none else some c

/-- The buffer after the keys `ks`. -/
def typed (ks : List UInt8) : Buf := Ring.run 256 0 (ks.map stroke) fun _ => 0

section Loop
variable {m : UInt8}

theorem passwdLoop_length {keys rest : List UInt8} : ∀ {buf b : Buf} {pos : UInt8},
    passwdLoop m keys buf pos = some (b, rest) → rest.length < keys.length := by
  induction keys with
  | nil => exact fun h => by simp [passwdLoop] at h
  | cons c keys ih =>
    intro buf b pos h
    unfold passwdLoop at h
    split_ifs at h
    · rw [← (Prod.mk.inj (Option.some.inj h)).2]
      exact Nat.lt_succ_self _
    · exact (ih h).trans (Nat.lt_succ_self _)
    · exact (ih h).trans (Nat.lt_succ_self _)

theorem ofNat_succ (i : ℕ) : UInt8.ofNat i + 1 = UInt8.ofNat (i + 1) := by
  rw [UInt8.ofNat_add]
  rfl

/-- **Where the loop stops**: every newline before was rejected, and the last one was not. -/
theorem passwdLoop_stops {ks rest : List UInt8} : ∀ {buf b : Buf} {i : ℕ},
    passwdLoop m (ks ++ newline :: rest) buf (UInt8.ofNat i) = some (b, rest) →
    b = Ring.run 256 i (ks.map stroke) buf ∧ m.toNat ≤ (i + ks.length) % 256 ∧
      ∀ j : ℕ, ks[j]? = some newline → (i + j) % 256 < m.toNat := by
  induction ks with
  | nil =>
    intro buf b i h
    rw [List.nil_append, passwdLoop, if_pos rfl] at h
    split_ifs at h with hm
    · rw [UInt8.le_iff_toNat_le, UInt8.toNat_ofNat'] at hm
      exact ⟨(Prod.mk.inj (Option.some.inj h)).1.symm, hm, fun j hj => by simp at hj⟩
    · exact absurd (passwdLoop_length h) (lt_irrefl _)
  | cons c ks ih =>
    intro buf b i h
    rw [List.cons_append, passwdLoop, ofNat_succ] at h
    have hlen : i + (c :: ks).length = i + 1 + ks.length := by
      rw [List.length_cons]
      omega
    have hnext : ∀ j, i + (j + 1) = i + 1 + j := fun j => by omega
    by_cases hc : c = newline
    · rw [if_pos hc] at h
      split_ifs at h with hm
      · have hlong := congrArg List.length (Prod.mk.inj (Option.some.inj h)).2
        rw [List.length_append, List.length_cons] at hlong
        omega
      · obtain ⟨hb, hstop, hrej⟩ := ih h
        rw [UInt8.le_iff_toNat_le, UInt8.toNat_ofNat', not_le] at hm
        refine ⟨?_, hlen ▸ hstop, fun j hj => ?_⟩
        · rw [List.map_cons, stroke, if_pos hc]
          exact hb
        · cases j with
          | zero => exact hm
          | succ j =>
            rw [hnext]
            exact hrej j hj
    · rw [if_neg hc] at h
      obtain ⟨hb, hstop, hrej⟩ := ih h
      refine ⟨?_, hlen ▸ hstop, fun j hj => ?_⟩
      · rw [List.map_cons, stroke, if_neg hc]
        rw [UInt8.toNat_ofNat'] at hb
        exact hb
      · cases j with
        | zero => exact absurd (by simpa using hj) hc
        | succ j =>
          rw [hnext]
          exact hrej j hj

end Loop

/-- The characters typed after the last newline, which was rejected. -/
def lastTyped (ks : List UInt8) : List UInt8 := ks.rtakeWhile (· ≠ newline)

/-- The keys of a prompt that stops at the next newline. -/
structure Stopped (ks : List UInt8) : Prop where
  nul : ∀ c ∈ ks, c ≠ 0
  long : 6 ≤ ks.length % 256
  short : ∀ j : ℕ, ks[j]? = some newline → j % 256 < 6

section Typed
variable {ks : List UInt8}

theorem stroke_some {c x : UInt8} (h : stroke c = some x) : c = x ∧ c ≠ newline := by
  unfold stroke at h
  split_ifs at h with hc
  exact ⟨Option.some.inj h, hc⟩

theorem typed_of_le {k : ℕ} (hk : 256 ≤ k) : typed ks k = 0 :=
  Ring.run_passed fun _ _ _ => by omega

theorem typed_newline {k : ℕ} (h : ∀ (j : ℕ) c, ks[j]? = some c → j % 256 = k → c = newline) :
    typed ks k = 0 := by
  refine Ring.run_passed fun j x hj hmod => ?_
  rw [List.getElem?_map, Option.map_eq_some_iff] at hj
  obtain ⟨c, hc, hx⟩ := hj
  exact (stroke_some hx).2 (h j c hc (by rwa [Nat.zero_add] at hmod))

theorem typed_ne_zero (hnul : ∀ c ∈ ks, c ≠ 0) {j : ℕ} {c : UInt8} (hj : ks[j]? = some c)
    (hc : c ≠ newline) : typed ks (j % 256) ≠ 0 := by
  have hst : (ks.map stroke)[j]? = some (some c) := by
    rw [List.getElem?_map, hj]
    exact congrArg some (if_neg hc)
  obtain ⟨k, x, hk, hx⟩ := Ring.run_stored (i := 0) (b := fun _ => (0 : UInt8)) (n := 256) hst
  rw [Nat.zero_add] at hx
  rw [List.getElem?_map, Option.map_eq_some_iff] at hk
  obtain ⟨c', hc', hx'⟩ := hk
  unfold typed
  rw [hx, ← (stroke_some hx').1]
  exact hnul c' (List.mem_of_getElem? hc')

/-- The last characters, if they do not go round, stand in the buffer one after the other. -/
theorem typed_append (pre : List UInt8) {w : List UInt8} (hw : w.length ≤ 256) (hnl : newline ∉ w) {j : ℕ}
    (hj : j < w.length) : typed (pre ++ w) ((pre.length + j) % 256) = w[j] := by
  have hmap : w.map stroke = w.map some := List.map_congr_left fun c hc =>
    if_neg fun (heq : c = newline) => hnl (heq ▸ hc)
  unfold typed
  rw [List.map_append, Ring.run_append, hmap, List.length_map, Nat.zero_add]
  exact Ring.run_round hw hj _ _

/-! ### The last attempt -/

theorem lastTyped_not_mem : newline ∉ lastTyped ks := fun h => by
  have := List.mem_rtakeWhile_imp h
  simp at this

theorem lastTyped_self (h : newline ∉ ks) : lastTyped ks = ks :=
  List.rtakeWhile_eq_self_iff.mpr fun c hc => by
    have hne : c ≠ newline := fun heq => h (heq ▸ hc)
    simpa using hne

/-- In front of the last attempt stands the newline that was rejected. -/
theorem lastTyped_split (h : newline ∈ ks) : ∃ pre, ks = (pre ++ [newline]) ++ lastTyped ks := by
  have happ : ks.rdropWhile (· ≠ newline) ++ lastTyped ks = ks := List.rdropWhile_append_rtakeWhile
  have hne : ks.rdropWhile (· ≠ newline) ≠ [] := by
    intro hnil
    have hall := List.rdropWhile_eq_nil_iff.mp hnil _ h
    simp at hall
  have hlast := List.rdropWhile_last_not _ _ hne
  refine ⟨(ks.rdropWhile (· ≠ newline)).dropLast, ?_⟩
  have hend : (ks.rdropWhile (· ≠ newline)).getLast hne = newline := by simpa using hlast
  have hcat := List.dropLast_append_getLast hne
  rw [hend] at hcat
  rw [hcat]
  exact happ.symm

end Typed

/-! ### What is hashed -/

/-- **The prompt hashes what was typed**: the characters after the last rejected newline, and enough
of them. -/
def HashesTyped (ks str : List UInt8) : Prop := str = lastTyped ks ∧ minPasswordLen.toNat ≤ str.length

/-- **What keys the buffer has room for**: nothing was rejected and the position did not overflow,
or the last attempt is a round of the buffer that looks the same from the position it began at. -/
def FitsBuffer (ks : List UInt8) : Prop :=
  newline ∉ ks ∧ ks.length < 256 ∨
  newline ∈ ks ∧ (lastTyped ks).length = 256 ∧ ks.length % 256 = 6 ∧
    (lastTyped ks).rotate 6 = lastTyped ks

section Hashed
variable {ks : List UInt8} (h : Stopped ks)
include h

theorem hashes_first (hnl : newline ∉ ks) :
    HashesTyped ks (strOf 1024 (typed ks)) ↔ ks.length < 256 := by
  unfold HashesTyped
  rw [lastTyped_self hnl]
  constructor
  · rintro ⟨heq, -⟩
    have hle : (strOf 1024 (typed ks)).length ≤ 256 :=
      strOf_length_le (by omega) (typed_of_le (le_refl 256))
    have hlong := h.long
    rw [heq] at hle
    omega
  · intro hlt
    have heq : strOf 1024 (typed ks) = ks := by
      refine strOf_eq (by omega) (typed_newline fun j c hj hmod => ?_) (fun j hj => ?_) h.nul
      · have := (List.getElem?_eq_some_iff.mp hj).1
        omega
      · have htyped := typed_append [] hlt.le hnl hj
        rw [List.nil_append, List.length_nil, Nat.zero_add, Nat.mod_eq_of_lt (by omega)] at htyped
        exact htyped
    rw [heq]
    exact ⟨rfl, by have := h.long; unfold minPasswordLen; simp; omega⟩

/-- After a rejected newline the string is short, or fills all bytes a position can have. -/
theorem length_rejected (hnl : newline ∈ ks) : (strOf 1024 (typed ks)).length < 6 ∨
    256 < ks.length ∧ (strOf 1024 (typed ks)).length = 256 := by
  obtain ⟨q, hq, hqn⟩ := List.getElem_of_mem hnl
  have hget : ks[q]? = some newline := List.getElem?_eq_some_iff.mpr ⟨hq, hqn⟩
  have hq6 := h.short q hget
  -- as long as the keys do not go round, the rejected newline leaves a zero
  have hqz : ks.length ≤ 256 → typed ks q = 0 := fun hle => typed_newline fun j c hj hmod => by
    have hjl := (List.getElem?_eq_some_iff.mp hj).1
    obtain rfl : j = q := by omega
    exact Option.some.inj (hj.symm.trans hget)
  by_cases hzero : ∃ k < 256, typed ks k = 0
  · obtain ⟨k, hk, hz⟩ := hzero
    left
    by_cases hkl : k < ks.length
    · -- only a newline leaves a zero where the keys came to, and it was rejected
      have hkn : ks[k] = newline := by
        by_contra hne
        have htyped := typed_ne_zero h.nul (List.getElem?_eq_getElem hkl) hne
        rw [Nat.mod_eq_of_lt hk] at htyped
        exact htyped hz
      have hk6 := h.short k (List.getElem?_eq_some_iff.mpr ⟨hkl, hkn⟩)
      have := strOf_length_le (n := 1024) (show k < 1024 by omega) hz
      omega
    · have := strOf_length_le (n := 1024) (show q < 1024 by omega) (hqz (by omega))
      omega
  · right
    have hnz : ∀ k < 256, typed ks k ≠ 0 := fun k hk hz => hzero ⟨k, hk, hz⟩
    refine ⟨?_, strOf_length (by omega) (typed_of_le (le_refl 256)) hnz⟩
    by_contra hle
    exact hnz q (by omega) (hqz (by omega))

theorem hashes_again (hnl : newline ∈ ks) : HashesTyped ks (strOf 1024 (typed ks)) ↔
    (lastTyped ks).length = 256 ∧ ks.length % 256 = 6 ∧ (lastTyped ks).rotate 6 = lastTyped ks := by
  obtain ⟨pre, hsplit⟩ := lastTyped_split hnl
  obtain ⟨w, hw⟩ : ∃ w, w = lastTyped ks := ⟨_, rfl⟩
  have hwnl : newline ∉ w := hw ▸ lastTyped_not_mem
  unfold HashesTyped
  rw [← hw] at hsplit ⊢
  have hlen : ks.length = pre.length + 1 + w.length := by
    rw [hsplit, List.length_append, List.length_append, List.length_singleton]
  have hpre : pre.length % 256 < 6 := by
    refine h.short _ ?_
    rw [hsplit, List.append_assoc, List.getElem?_append_right (le_refl _), Nat.sub_self]
    rfl
  have hlong := h.long
  -- the last attempt in the buffer, when it is a round from position 6 on
  have hround : w.length = 256 → ks.length % 256 = 6 → ∀ j < 256,
      w[j]? = some (typed ks ((6 + j) % 256)) := by
    intro h256 h6 j hj
    have htyped := typed_append (pre ++ [newline]) h256.le hwnl (show j < w.length by omega)
    rw [← hsplit, List.length_append, List.length_singleton,
      show (pre.length + 1 + j) % 256 = (6 + j) % 256 by omega] at htyped
    rw [htyped]
    exact List.getElem?_eq_getElem _
  constructor
  · rintro ⟨heq, hmin⟩
    rw [show minPasswordLen.toNat = 6 from rfl] at hmin
    rcases length_rejected h hnl with hshort | ⟨hgt, h256⟩
    · omega
    · have hw256 : w.length = 256 := by rw [← heq, h256]
      have h6 : ks.length % 256 = 6 := by omega
      have hstr : ∀ k < 256, w[k]? = some (typed ks k) := fun k hk => by
        have hks : k < (strOf 1024 (typed ks)).length := by omega
        rw [← heq, List.getElem?_eq_getElem hks, strOf_getElem hks]
      refine ⟨hw256, h6, List.ext_getElem? fun j => ?_⟩
      rcases Nat.lt_or_ge j 256 with hj | hj
      · rw [List.getElem?_rotate (by omega), hw256, hround hw256 h6 j hj,
          hstr _ (Nat.mod_lt _ (by omega)), Nat.add_comm]
      · rw [List.getElem?_eq_none (by rw [List.length_rotate]; omega), List.getElem?_eq_none (by omega)]
  · rintro ⟨hw256, h6, hrot⟩
    have hstr : ∀ (k : ℕ) (hk : k < w.length), typed ks k = w[k] := by
      intro k hk
      have hj : (k + 250) % 256 < 256 := Nat.mod_lt _ (by omega)
      have hrotj := congrArg (fun l : List UInt8 => l[(k + 250) % 256]?) hrot
      rw [List.getElem?_rotate (by omega), hround hw256 h6 _ hj, hw256,
        show ((k + 250) % 256 + 6) % 256 = k by omega, show (6 + (k + 250) % 256) % 256 = k by omega,
        List.getElem?_eq_getElem hk] at hrotj
      exact (Option.some.inj hrotj).symm
    have heq : strOf 1024 (typed ks) = w := by
      refine strOf_eq (by omega) (typed_of_le (by omega)) hstr fun c hc => h.nul c ?_
      rw [hsplit]
      exact List.mem_append_right _ hc
    rw [heq]
    exact ⟨rfl, by rw [hw256]; simp [minPasswordLen]⟩

theorem hashesTyped_iff : HashesTyped ks (strOf 1024 (typed ks)) ↔ FitsBuffer ks := by
  unfold FitsBuffer
  by_cases hnl : newline ∈ ks
  · rw [hashes_again h hnl]
    simp [hnl]
  · rw [hashes_first h hnl]
    simp [hnl]

end Hashed

/-- A prompt that stops at a newline has rejected those before it, and hashes what is in the
buffer. -/
theorem passwd_stops {ks rest str : List UInt8} (hnul : ∀ c ∈ ks, c ≠ 0)
    (h : passwd 1024 minPasswordLen (ks ++ newline :: rest) = some (str, rest)) :
    Stopped ks ∧ str = strOf 1024 (typed ks) := by
  obtain ⟨⟨b, r⟩, hloop, heq⟩ := Option.map_eq_some_iff.mp h
  obtain ⟨rfl, rfl⟩ := Prod.mk.inj heq
  obtain ⟨hb, hlong, hshort⟩ := passwdLoop_stops (i := 0) hloop
  rw [Nat.zero_add] at hlong
  refine ⟨⟨hnul, hlong, fun j hj => ?_⟩, by rw [hb]; rfl⟩
  have := hshort j hj
  rwa [Nat.zero_add] at this

/-- **When the prompt hashes what was typed**, in the driver and in the formatter: as long as the
keys fit the buffer. -/
theorem getPasswd_iff {ks rest str : List UInt8} (hnul : ∀ c ∈ ks, c ≠ 0) :
    (getPasswd (ks ++ newline :: rest) = some (str, rest) → (HashesTyped ks str ↔ FitsBuffer ks)) ∧
    (Fmtr.getPasswd (ks ++ newline :: rest) = some (str, rest) →
      (HashesTyped ks str ↔ FitsBuffer ks)) := by
  have hboth : passwd 1024 minPasswordLen (ks ++ newline :: rest) = some (str, rest) →
      (HashesTyped ks str ↔ FitsBuffer ks) := by
    intro h
    obtain ⟨hst, rfl⟩ := passwd_stops hnul h
    exact hashesTyped_iff hst
  exact ⟨hboth, hboth⟩

/-- After `abc` was rejected, `defghi` makes the prompt hash `abc`. -/
theorem not_hashesTyped_of_rejected : ¬ ∀ ks rest str : List UInt8, (∀ c ∈ ks, c ≠ 0) →
    (getPasswd (ks ++ newline :: rest) = some (str, rest) → HashesTyped ks str) ∧
    (Fmtr.getPasswd (ks ++ newline :: rest) = some (str, rest) → HashesTyped ks str) := by
  intro h
  have hstop : getPasswd ([97, 98, 99, 10, 100, 101, 102, 103, 104, 105] ++ newline :: []) =
      some ([97, 98, 99], []) := by rfl
  have hlong := ((h _ _ _ (by simp)).1 hstop).2
  exact absurd hlong (by decide)

/-- `abcdef`, typed at once, is hashed. -/
theorem hashesTyped_first : HashesTyped [97, 98, 99, 100, 101, 102] [97, 98, 99, 100, 101, 102] := by
  have hstop : getPasswd ([97, 98, 99, 100, 101, 102] ++ newline :: []) =
      some ([97, 98, 99, 100, 101, 102], []) := by rfl
  exact ((getPasswd_iff (by simp)).1 hstop).mpr (Or.inl (by decide))

end Fcfs
