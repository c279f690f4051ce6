import Mathlib.Data.List.Nodup
import Srn.Misc
import Srn.Routed.Fib

/-!
# Srn.Routed.Header

The segment routing header that `parse_srh` of `sr-routed/seg6_netlink.c` builds from the text of a
segment list, and the length that `encap_seg6local` hands to the kernel with it.

The number of segments comes from the commas of the text, the segments themselves from the tokens
of `strtok`, which fill the slots of the header from the last one down.  The list that
`Srn.Routed` puts into the kernel is this header read backwards.
-/

namespace Srn

/-! ## Building a header -/

/-- The slots behind the header, with the positions that were written, the last one first. -/
structure SegSlots where
  slots : List In6Addr
  written : List ℕ
  deriving DecidableEq, Repr

/-- `memcpy(&srh->segments[i], &addr, sizeof(struct in6_addr))`, inside the slots. -/
def SegSlots.put (s : SegSlots) (i : ℤ) (addr : In6Addr) : Option SegSlots :=
  if 0 ≤ i ∧ i.toNat < s.slots.length then
    some ⟨s.slots.set i.toNat addr, i.toNat :: s.written⟩
  else none

/-- `struct sr6_tlv_hmac`, with its key in the order of the host. -/
structure HmacTlv where
  type : UInt8
  len : UInt8
  hmackeyid : UInt32
  deriving DecidableEq, Repr

/-- `struct ipv6_sr_hdr`, with the size of its allocation. -/
structure Ipv6SrHdr where
  hdrlen : UInt8
  type : UInt8
  segmentsLeft : UInt8
  firstSegment : UInt8
  flags : UInt8
  segments : SegSlots
  hmac : Option HmacTlv
  srhlen : ℕ
  deriving DecidableEq, Repr

/-- The tokens of `strtok` with the delimiter `,`. -/
def strtokAll (segbuf : List Char) : List (List Char) :=
  (segbuf.splitOn ',').filter fun token => token ≠ []

variable (pton : List Char → In6Addr)

/-- The loop over the tokens, with the slot of the next one. -/
def fillSegments : List (List Char) → ℤ → SegSlots → Option SegSlots
  | [], _, s => some s
  | token :: tokens, i, s => (s.put i (pton token)).bind (fillSegments tokens (i - 1))

/-- `parse_srh`; `none` when a segment is written outside the slots. -/
def parseSrhHdr (segs : List Char) (hmac : Int32) (encap : Bool) : Option Ipv6SrHdr :=
  let nsegs := segs.count ',' + 1 + if encap then 0 else 1
  let srhlen := 8 + 16 * nsegs + if hmac ≠ 0 then 40 else 0
  let firstSegment := UInt8.ofNat (nsegs - 1)
  (fillSegments pton (strtokAll segs) firstSegment.toNat ⟨List.replicate nsegs 0, []⟩).map
    fun segments =>
      { hdrlen := UInt8.ofNat (srhlen / 8 - 1)
        type := 4
        segmentsLeft := UInt8.ofNat (nsegs - 1)
        firstSegment
        flags := if hmac ≠ 0 then 8 else 0
        segments
        hmac := if hmac ≠ 0 then some ⟨5, 38, hmac.toUInt32⟩ else none
        srhlen }

/-- The length that `encap_seg6local` computes from the header. -/
def Ipv6SrHdr.encapLen (srh : Ipv6SrHdr) : ℕ := (srh.hdrlen.toNat + 1) * 8

/-! ## The slots -/

/-- **Run lemma** of the loop: the tokens stand in front of slot `m`, the first one last, and each
of their slots was written once. -/
theorem fillSegments_eq (tokens : List (List Char)) (m : ℕ) (s : SegSlots)
    (hm : m ≤ s.slots.length) (hlen : tokens.length ≤ m) :
    fillSegments pton tokens ((m : ℤ) - 1) s =
      some ⟨s.slots.take (m - tokens.length) ++ (tokens.map pton).reverse ++ s.slots.drop m,
        List.range' (m - tokens.length) tokens.length ++ s.written⟩ := by
  induction tokens generalizing m s with
  | nil => simp [fillSegments]
  | cons token tokens ih =>
    obtain ⟨k, rfl⟩ : ∃ k, m = k + 1 := ⟨m - 1, by simp at hlen; omega⟩
    have hlen' : tokens.length ≤ k := by simpa using hlen
    have hindex : ((k + 1 : ℕ) : ℤ) - 1 = (k : ℤ) := by omega
    have hput : s.put ((k : ℕ) : ℤ) (pton token) =
        some ⟨s.slots.set k (pton token), k :: s.written⟩ := by
      unfold SegSlots.put
      rw [if_pos ⟨by omega, by omega⟩]
      rfl
    rw [fillSegments, hindex, hput, Option.bind_some,
      ih k ⟨s.slots.set k (pton token), k :: s.written⟩ (by simp; omega) hlen']
    have htake : (s.slots.set k (pton token)).take (k - tokens.length) =
        s.slots.take (k - tokens.length) := List.take_set_of_le (by omega)
    have hdrop : (s.slots.set k (pton token)).drop k = pton token :: s.slots.drop (k + 1) := by
      rw [List.drop_eq_getElem_cons (by simp; omega), List.getElem_set_self,
        List.drop_set_of_lt (Nat.lt_succ_self k)]
    have hrange : List.range' (k - tokens.length) tokens.length ++ [k] =
        List.range' (k - tokens.length) (tokens.length + 1) := by
      rw [List.range'_1_concat, Nat.sub_add_cancel hlen']
    have hsub : k + 1 - (token :: tokens).length = k - tokens.length := by simp
    rw [hsub, htake, hdrop, List.map_cons, List.reverse_cons, List.length_cons, ← hrange]
    simp [List.append_assoc]

theorem length_strtokAll_le (segs : List Char) :
    (strtokAll segs).length ≤ segs.count ',' + 1 := by
  rw [← length_splitOn]
  exact List.length_filter_le _ _

/-- A header for `encap` and without key, from a text with at most 255 commas: the slots hold the
tokens from the last slot down, each written once, and zeros below them. -/
theorem parseSrhHdr_eq {segs : List Char} (h : segs.count ',' < 256) :
    parseSrhHdr pton segs 0 true = some
      { hdrlen := UInt8.ofNat (2 * (segs.count ',' + 1))
        type := 4
        segmentsLeft := UInt8.ofNat (segs.count ',')
        firstSegment := UInt8.ofNat (segs.count ',')
        flags := 0
        segments := ⟨(parseSrh pton segs).reverse,
          List.range' (segs.count ',' + 1 - (strtokAll segs).length) (strtokAll segs).length⟩
        hmac := none
        srhlen := 8 + 16 * (segs.count ',' + 1) } := by
  have hle := length_strtokAll_le segs
  have hindex : (((UInt8.ofNat (segs.count ',')).toNat : ℕ) : ℤ) =
      ((segs.count ',' + 1 : ℕ) : ℤ) - 1 := by
    rw [UInt8.toNat_ofNat_of_lt' h]
    omega
  have hfill := fillSegments_eq pton (strtokAll segs) (segs.count ',' + 1)
    ⟨List.replicate (segs.count ',' + 1) 0, []⟩ (by simp) hle
  have hhdrlen : (8 + 16 * (segs.count ',' + 1)) / 8 - 1 = 2 * (segs.count ',' + 1) := by omega
  have hreverse : (parseSrh pton segs).reverse =
      List.replicate (segs.count ',' + 1 - (strtokAll segs).length) 0 ++
        ((strtokAll segs).map pton).reverse := by
    rw [parseSrh, List.reverse_append, List.reverse_replicate, strtokAll]
  rw [← hindex] at hfill
  rw [hreverse]
  simp only [parseSrhHdr, if_true, Nat.add_zero, Nat.add_sub_cancel, ne_eq, not_true_eq_false,
    if_false]
  rw [hfill, Option.map_some, hhdrlen]
  simp [List.take_replicate]

/-! ## The header of a segment list -/

/-- Every segment has a character, and a comma stands between two. -/
theorem two_mul_length_le (segs : List AddrText) :
    2 * segs.length ≤ (joinSegs segs).length + 1 := by
  induction segs with
  | nil => simp
  | cons seg segs ih =>
    have hpos : 0 < seg.chars.length := List.length_pos_iff.mpr seg.ne_nil
    cases segs with
    | nil =>
      rw [joinSegs, List.map_singleton, List.intercalate_singleton, List.length_singleton]
      omega
    | cons seg' segs =>
      rw [joinSegs_cons_cons]
      simp only [List.length_append, List.length_cons] at ih ⊢
      omega

/-- The header lists the segments backwards, each slot written once, and all lengths agree. -/
structure Encodes (srh : Ipv6SrHdr) (addrs : List In6Addr) : Prop where
  hdrlen : srh.hdrlen.toNat = 2 * addrs.length
  segmentsLeft : srh.segmentsLeft.toNat = addrs.length - 1
  firstSegment : srh.firstSegment.toNat = addrs.length - 1
  slots : srh.segments.slots.length = addrs.length
  segment : ∀ j < addrs.length, srh.segments.slots[addrs.length - 1 - j]? = addrs[j]?
  once : ∀ i < addrs.length, srh.segments.written.count i = 1
  only : ∀ i ∈ srh.segments.written, i < addrs.length
  encapLen : srh.encapLen = 8 + 16 * addrs.length
  srhlen : srh.srhlen = 8 + 16 * addrs.length
  decoded : srh.segments.slots.reverse = addrs

/-- **Main theorem.**  `parse_srh` on the joined texts of a list of addresses that fits into
`segs_str` builds a header that lists them backwards. -/
theorem parse_srh_encodes (inetNtop : In6Addr → AddrText) (addrs : List In6Addr)
    (hinverse : ∀ a ∈ addrs, pton (inetNtop a).chars = a) (hne : addrs ≠ [])
    (hfits : (joinSegs (addrs.map inetNtop)).length ≤ slen) :
    ∃ srh, parseSrhHdr pton (joinSegs (addrs.map inetNtop)) 0 true = some srh ∧
      Encodes srh addrs := by
  have hne' : addrs.map inetNtop ≠ [] := by simpa using hne
  have hcount : (joinSegs (addrs.map inetNtop)).count ',' + 1 = addrs.length := by
    rw [count_joinSegs hne', List.length_map]
  have htokens : (strtokAll (joinSegs (addrs.map inetNtop))).length = addrs.length := by
    rw [strtokAll, tokens_joinSegs hne', List.length_map, List.length_map]
  -- the text has at most 127 characters, so the 8-bit fields do not wrap
  have htwo : 2 * addrs.length ≤ slen + 1 := by
    have hle := two_mul_length_le (addrs.map inetNtop)
    rw [List.length_map] at hle
    omega
  have hslen : slen = 127 := rfl
  have hparse : parseSrh pton (joinSegs (addrs.map inetNtop)) = addrs := by
    rw [parseSrh_joinSegs pton hne', segAddrs, List.map_map]
    exact (List.map_congr_left hinverse).trans (List.map_id _)
  have hlt : (joinSegs (addrs.map inetNtop)).count ',' < 256 := by omega
  have hhdrlen : (UInt8.ofNat (2 * addrs.length)).toNat = 2 * addrs.length :=
    UInt8.toNat_ofNat_of_lt' (show 2 * addrs.length < 256 by omega)
  have hlast : (UInt8.ofNat ((joinSegs (addrs.map inetNtop)).count ',')).toNat =
      addrs.length - 1 := by
    rw [UInt8.toNat_ofNat_of_lt' hlt]
    omega
  refine ⟨_, parseSrhHdr_eq pton hlt, ?_⟩
  rw [hparse, htokens, hcount, Nat.sub_self, ← List.range_eq_range']
  refine ⟨hhdrlen, hlast, hlast, List.length_reverse, fun j hj => ?_, fun i hi => ?_,
    fun i hi => List.mem_range.mp hi, ?_, rfl, List.reverse_reverse addrs⟩
  · rw [List.getElem?_reverse (by omega)]
    congr 1
    omega
  · exact List.count_eq_one_of_mem List.nodup_range (List.mem_range.mpr hi)
  · rw [Ipv6SrHdr.encapLen, hhdrlen]
    omega

/-- The texts of the addresses `::1` and `::2`. -/
def digitText (a : In6Addr) : AddrText :=
  if a = 1 then ⟨"::1".toList, by decide, by decide, AddrText.valid_of_all (by decide)⟩
  else ⟨"::2".toList, by decide, by decide, AddrText.valid_of_all (by decide)⟩

/-- What `inet_pton` reads from these texts. -/
def digitPton (text : List Char) : In6Addr := if text = "::1".toList then 1 else 2

/-- The header of the list `::2,::1,::2`. -/
theorem parse_srh_encodes_three :
    ∃ srh, parseSrhHdr digitPton (joinSegs ([2, 1, 2].map digitText)) 0 true = some srh ∧
      Encodes srh [2, 1, 2] ∧ srh.segments.slots = [2, 1, 2] := by
  have hinverse : ∀ a ∈ ([2, 1, 2] : List In6Addr), digitPton (digitText a).chars = a := by
    simp [digitPton, digitText]
  obtain ⟨srh, hrun, hencodes⟩ := parse_srh_encodes digitPton digitText [2, 1, 2] hinverse
    (by simp) (by decide)
  refine ⟨srh, hrun, hencodes, ?_⟩
  rw [← List.reverse_reverse srh.segments.slots, hencodes.decoded]
  rfl

end Srn
