import Mathlib.Data.List.Range
import Mathlib.Data.Nat.Notation

/-!
# Srn.In6Addr

IPv6 addresses as the programs see them: sixteen bytes in network order, read by the
longest prefix match code through the text of their 128 binary digits.
-/

namespace Srn

/-- `struct in6_addr`: the most significant bit is the first bit on the wire. -/
abbrev In6Addr := BitVec 128

/-- The byte `s6_addr[i]`. -/
def s6Addr (a : In6Addr) (i : ℕ) : BitVec 8 := a.extractLsb' (8 * (15 - i)) 8

/-- `addr_to_binary`: the 128 binary digits of an address and the terminating zero. -/
def addrToBinary (a : In6Addr) : List Char :=
  ((List.range 16).flatMap fun i => (List.range 8).map fun j =>
    if (s6Addr a i >>> (7 - j)) &&& 1 ≠ 0 then '1' else '0') ++ ['\x00']

/-- Two addresses agree on their first `n` bits. -/
def Agree (a b : In6Addr) (n : ℕ) : Prop := ∀ i < n, a.getMsbD i = b.getMsbD i

instance (a b : In6Addr) (n : ℕ) : Decidable (Agree a b n) :=
  inferInstanceAs (Decidable (∀ i < n, a.getMsbD i = b.getMsbD i))

/-- The character `addr_to_binary` writes for a bit. -/
def binChar (b : Bool) : Char := if b then '1' else '0'

theorem binChar_inj {b c : Bool} : binChar b = binChar c ↔ b = c := by
  cases b <;> cases c <;> decide

/-- Bit `j` of byte `i` is bit `8 * i + j` of the address. -/
theorem s6Addr_bit (a : In6Addr) {i j : ℕ} (hi : i < 16) (hj : j < 8) :
    ((s6Addr a i >>> (7 - j)) &&& 1 ≠ 0) ↔ a.getMsbD (8 * i + j) = true := by
  have hlow : ∀ x : BitVec 8, x &&& 1 ≠ 0 ↔ x.getLsbD 0 = true := by decide
  have hidx : 8 * (15 - i) + (7 - j) = 128 - 1 - (8 * i + j) := by omega
  have hlt : 8 * i + j < 128 := by omega
  have hlt' : 7 - j < 8 := by omega
  rw [hlow, BitVec.getLsbD_ushiftRight, s6Addr, BitVec.getLsbD_extractLsb', BitVec.getMsbD]
  simp [hidx, hlt, hlt']

/-- The text of an address, bit by bit. -/
theorem addrToBinary_eq (a : In6Addr) :
    addrToBinary a = (List.range 128).map (fun k => binChar (a.getMsbD k)) ++ ['\x00'] := by
  have hrow : ∀ i ∈ List.range 16, ((List.range 8).map fun j =>
      if (s6Addr a i >>> (7 - j)) &&& 1 ≠ 0 then '1' else '0') =
      (List.range 8).map fun j => binChar (a.getMsbD (8 * i + j)) := by
    intro i hi
    refine List.map_congr_left fun j hj => ?_
    simp only [s6Addr_bit a (List.mem_range.mp hi) (List.mem_range.mp hj), binChar]
  rw [addrToBinary, List.flatMap_congr hrow]
  rfl

/-- A digit of the text. -/
theorem addrToBinary_getElem (a : In6Addr) {i : ℕ} (hi : i < 128) :
    (addrToBinary a)[i]? = some (binChar (a.getMsbD i)) := by
  rw [addrToBinary_eq, List.getElem?_append_left (by simpa using hi)]
  simp [hi]

/-! ## Agreement -/

theorem Agree.refl (a : In6Addr) (n : ℕ) : Agree a a n := fun _ _ => rfl

theorem Agree.symm {a b : In6Addr} {n : ℕ} (h : Agree a b n) : Agree b a n :=
  fun i hi => (h i hi).symm

theorem Agree.trans {a b c : In6Addr} {n : ℕ} (hab : Agree a b n) (hbc : Agree b c n) :
    Agree a c n :=
  fun i hi => (hab i hi).trans (hbc i hi)

theorem Agree.mono {a b : In6Addr} {m n : ℕ} (h : Agree a b n) (hmn : m ≤ n) : Agree a b m :=
  fun i hi => h i (Nat.lt_of_lt_of_le hi hmn)

/-- The address with the first `k` bits of `p` and the others of `a`. -/
def graft (p a : In6Addr) (k : ℕ) : In6Addr :=
  (p &&& (BitVec.allOnes 128 <<< (128 - k))) ||| (a &&& ~~~ (BitVec.allOnes 128 <<< (128 - k)))

theorem getMsbD_graft (p a : In6Addr) {k i : ℕ} (hk : k ≤ 128) (hi : i < 128) :
    (graft p a k).getMsbD i = if i < k then p.getMsbD i else a.getMsbD i := by
  have hmask : (BitVec.allOnes 128 <<< (128 - k)).getMsbD i = decide (i < k) := by
    rw [BitVec.getMsbD_shiftLeft, BitVec.getMsbD_allOnes]
    exact decide_eq_decide.mpr (by omega)
  rw [graft, BitVec.getMsbD_or, BitVec.getMsbD_and, BitVec.getMsbD_and, BitVec.getMsbD_not, hmask]
  by_cases hlt : i < k <;> simp [hlt, hi]

/-- A grafted address begins like the first one. -/
theorem agree_graft (p a : In6Addr) {k : ℕ} (hk : k ≤ 128) : Agree (graft p a k) p k :=
  fun i hi => by rw [getMsbD_graft p a hk (hi.trans_le hk), if_pos hi]

/-- The characters of two texts between two positions are equal exactly when the bits
there are. -/
theorem addrToBinary_slice_eq_iff (a b : In6Addr) {lo hi : ℕ} (hhi : hi ≤ 128) :
    (((addrToBinary a).drop lo).take (hi - lo) = ((addrToBinary b).drop lo).take (hi - lo)) ↔
      ∀ i, lo ≤ i → i < hi → a.getMsbD i = b.getMsbD i := by
  constructor
  · intro h i hlo hlt
    have := congrArg (·[i - lo]?) h
    simp only [List.getElem?_take, List.getElem?_drop] at this
    rw [if_pos (by omega), if_pos (by omega), Nat.add_sub_cancel' hlo,
      addrToBinary_getElem a (by omega), addrToBinary_getElem b (by omega)] at this
    exact binChar_inj.mp (Option.some.inj this)
  · intro h
    refine List.ext_getElem? fun i => ?_
    simp only [List.getElem?_take, List.getElem?_drop]
    split_ifs with hi
    · rw [addrToBinary_getElem a (by omega), addrToBinary_getElem b (by omega),
        h _ (by omega) (by omega)]
    · rfl

end Srn
