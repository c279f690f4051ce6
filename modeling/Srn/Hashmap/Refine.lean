import Srn.Hashmap

/-!
# Srn.Hashmap.Refine

The hash table refines the insertion-ordered map `OMap`.  `Wf` is the representation
invariant: each key's entry is live, sits in exactly the bucket of its key, and no two
entries carry the same key.  Under it a bucket scan finds what a scan of the whole key
list would find (`findEntry_eq`), so that every operation is compared with `OMap` on
the key list alone.
-/

namespace Srn
namespace Hashmap

variable {K V : Type} {hm : Hashmap K V}

/-! ## The representation invariant -/

/-- The key test of a map: `compare` returns zero. -/
def sameKey (compare : K → K → ℤ) (a b : K) : Bool := compare a b == 0

/-- What `hash` and `compare` owe the table: `compare` is an equivalence on whose classes
`hash` is constant. -/
structure KeyLaws (hash : K → UInt32) (compare : K → K → ℤ) : Prop where
  equiv : Equivalence fun a b => compare a b = 0
  hash_eq : ∀ a b, compare a b = 0 → hash a = hash b

theorem KeyLaws.isKeyTest {hash : K → UInt32} {compare : K → K → ℤ} (hl : KeyLaws hash compare) :
    OMap.IsKeyTest (sameKey compare) where
  refl k := by simpa [sameKey] using hl.equiv.refl k
  symm k l h := by simpa [sameKey] using hl.equiv.symm (by simpa [sameKey] using h)
  trans k l m h h' := by
    simpa [sameKey] using
      hl.equiv.trans (by simpa [sameKey] using h) (by simpa [sameKey] using h')

/-- The key/element pair of an entry. -/
def toPair (e : HmapEntry K V) : K × V := (e.key, e.elem)

/-- The abstract content: the entries in key-list order. -/
def entries (hm : Hashmap K V) : List (K × V) :=
  hm.keys.filterMap fun he => (hm.heap he).map toPair

/-- Representation invariant. -/
structure Wf (hm : Hashmap K V) : Prop where
  size_pos : 0 < hm.size
  fresh : ∀ he, hm.next ≤ he → hm.heap he = none
  live : ∀ he ∈ hm.keys, ∃ e, hm.heap he = some e
  nodup : hm.keys.Nodup
  bucket : ∀ i he, he ∈ hm.map i ↔ he ∈ hm.keys ∧ ∃ e, hm.heap he = some e ∧ hmapHash hm e.key = i
  bucket_nodup : ∀ i, (hm.map i).Nodup
  elems_eq : hm.elems = hm.keys.length
  distinct : ∀ he ∈ hm.keys, ∀ he' ∈ hm.keys, ∀ e e', hm.heap he = some e →
    hm.heap he' = some e' → hm.compare e.key e'.key = 0 → he = he'

theorem wf_hmapNew (hash : K → UInt32) (compare : K → K → ℤ) :
    Wf (hmapNew hash compare : Hashmap K V) := by
  constructor <;> simp [hmapNew, hashmapDefaultSize]

/-- Buckets are inside the table. -/
theorem hmapHash_lt (hw : Wf hm) (key : K) : hmapHash hm key < hm.size := by
  have hle : hmapHash hm key ≤ hm.size - 1 := Nat.and_le_right
  have := hw.size_pos
  omega

/-- One element per key. -/
theorem length_entries (hw : Wf hm) : (entries hm).length = hm.elems := by
  have hall : (hm.keys.filterMap fun he => (hm.heap he).map toPair).length =
      hm.keys.length := by
    rw [List.length_filterMap_eq_countP, List.countP_eq_length]
    intro he hmem
    obtain ⟨e, he'⟩ := hw.live he hmem
    simp [he']
  rw [entries, hall, hw.elems_eq]

/-- The abstract content has distinct keys. -/
theorem distinct_entries (hw : Wf hm) : OMap.Distinct (sameKey hm.compare) (entries hm) := by
  rw [OMap.Distinct, entries, List.pairwise_filterMap]
  refine hw.nodup.imp_of_mem ?_
  intro he he' hmem hmem' hne b hb b' hb'
  obtain ⟨e, hheap, rfl⟩ := Option.map_eq_some_iff.mp hb
  obtain ⟨e', hheap', rfl⟩ := Option.map_eq_some_iff.mp hb'
  rw [sameKey, beq_eq_false_iff_ne]
  exact fun h => hne (hw.distinct he hmem he' hmem' e e' hheap hheap' h)

/-! ## The bucket scan -/

theorem hasKey_eq_true {key : K} {he : EntryPtr} :
    hasKey hm key he = true ↔ ∃ e, hm.heap he = some e ∧ hm.compare e.key key = 0 := by
  unfold hasKey
  cases hm.heap he <;> simp

/-- **The scan of one bucket is a scan of all keys.** -/
theorem findEntry_eq (hw : Wf hm) (hl : KeyLaws hm.hash hm.compare) (key : K) :
    findEntry hm key = hm.keys.find? (hasKey hm key) := by
  cases hk : hm.keys.find? (hasKey hm key) with
  | none =>
    rw [findEntry, List.find?_eq_none]
    intro he hmem
    exact (List.find?_eq_none.mp hk) he ((hw.bucket _ _).mp hmem).1
  | some he =>
    have hmem := List.mem_of_find?_eq_some hk
    obtain ⟨e, hheap, hcmp⟩ := hasKey_eq_true.mp (List.find?_some hk)
    have hbucket : he ∈ hm.map (hmapHash hm key) :=
      (hw.bucket _ _).mpr ⟨hmem, e, hheap, by rw [hmapHash, hmapHash, hl.hash_eq _ _ hcmp]⟩
    cases hf : findEntry hm key with
    | none => exact absurd (List.find?_some hk) ((List.find?_eq_none.mp hf) he hbucket)
    | some he' =>
      obtain ⟨e', hheap', hcmp'⟩ := hasKey_eq_true.mp (List.find?_some hf)
      have hmem' := ((hw.bucket _ _).mp (List.mem_of_find?_eq_some hf)).1
      rw [hw.distinct he' hmem' he hmem e' e hheap' hheap
        (hl.equiv.trans hcmp' (hl.equiv.symm hcmp))]

/-- `hmap_get` reads the abstract map. -/
theorem hmapGet_eq (hw : Wf hm) (hl : KeyLaws hm.hash hm.compare) (key : K) :
    hmapGet hm key = OMap.get (sameKey hm.compare) (entries hm) key := by
  rw [hmapGet, findEntry_eq hw hl, OMap.get, entries, List.find?_filterMap]
  have hpred : (fun he => ((hm.heap he).map toPair).any
      fun e => sameKey hm.compare e.1 key) = hasKey hm key := by
    funext he
    unfold hasKey
    cases hm.heap he <;> rfl
  rw [hpred, Option.map_bind]
  congr 1
  funext he
  cases h : hm.heap he <;> simp [h, toPair]

/-! ## Overwriting an element -/

/-- The key of an entry does not change when its element is overwritten. -/
theorem setElem_heap_eq_some {he he' : EntryPtr} {elem : V} {e' : HmapEntry K V}
    (h : (setElem hm he elem).heap he' = some e') :
    ∃ e, hm.heap he' = some e ∧ e.key = e'.key := by
  by_cases heq : he' = he
  · subst heq
    simp only [setElem, Function.update_self, Option.map_eq_some_iff] at h
    obtain ⟨e, hheap, rfl⟩ := h
    exact ⟨e, hheap, rfl⟩
  · simp only [setElem, Function.update_of_ne heq] at h
    exact ⟨e', h, rfl⟩

/-- Overwriting an element frees and allocates nothing. -/
theorem setElem_heap_of_some (he : EntryPtr) (elem : V) {he' : EntryPtr} {e : HmapEntry K V}
    (h : hm.heap he' = some e) :
    ∃ e', (setElem hm he elem).heap he' = some e' ∧ e'.key = e.key := by
  by_cases heq : he' = he
  · subst heq
    exact ⟨{ e with elem := elem }, by simp [setElem, h], rfl⟩
  · exact ⟨e, by simp [setElem, Function.update_of_ne heq, h], rfl⟩

theorem wf_setElem (hw : Wf hm) (he : EntryPtr) (elem : V) : Wf (setElem hm he elem) where
  size_pos := hw.size_pos
  fresh he' hle := by
    cases h : (setElem hm he elem).heap he' with
    | none => rfl
    | some e' =>
      obtain ⟨e, hheap, -⟩ := setElem_heap_eq_some h
      rw [hw.fresh he' hle] at hheap
      contradiction
  live he' hmem := by
    obtain ⟨e, hheap⟩ := hw.live he' hmem
    obtain ⟨e', hheap', -⟩ := setElem_heap_of_some he elem hheap
    exact ⟨e', hheap'⟩
  nodup := hw.nodup
  bucket i he' := by
    refine (hw.bucket i he').trans (and_congr_right fun _ => ?_)
    constructor
    · rintro ⟨e, hheap, hi⟩
      obtain ⟨e', hheap', hkey⟩ := setElem_heap_of_some he elem hheap
      exact ⟨e', hheap', hkey ▸ hi⟩
    · rintro ⟨e', hheap', hi⟩
      obtain ⟨e, hheap, hkey⟩ := setElem_heap_eq_some hheap'
      exact ⟨e, hheap, hkey ▸ hi⟩
  bucket_nodup := hw.bucket_nodup
  elems_eq := hw.elems_eq
  distinct p hp q hq e e' hep heq hcmp := by
    obtain ⟨f, hf, hfk⟩ := setElem_heap_eq_some hep
    obtain ⟨f', hf', hfk'⟩ := setElem_heap_eq_some heq
    exact hw.distinct p hp q hq f f' hf hf' (hfk ▸ hfk' ▸ hcmp)

/-- Overwriting the first entry that carries `key` is `OMap.set`, on any sublist of the
keys that still contains it. -/
theorem filterMap_setElem {key : K} {he : EntryPtr} (elem : V) :
    (ps : List EntryPtr) → ps.Nodup → ps.find? (hasKey hm key) = some he →
    ps.filterMap (fun p => ((setElem hm he elem).heap p).map toPair) =
      OMap.set (sameKey hm.compare)
        (ps.filterMap fun p => (hm.heap p).map toPair) key elem
  | [], _, hf => by simp at hf
  | p :: ps, hnd, hf => by
    obtain ⟨hnot, hnd'⟩ := List.nodup_cons.mp hnd
    rw [List.find?_cons] at hf
    cases hp : hasKey hm key p with
    | true =>
      rw [hp] at hf
      obtain rfl : p = he := by simpa using hf
      obtain ⟨e, hheap, hcmp⟩ := hasKey_eq_true.mp hp
      have hrest : ps.filterMap (fun q => ((setElem hm p elem).heap q).map toPair) =
          ps.filterMap fun q => (hm.heap q).map toPair := by
        refine List.filterMap_congr fun q hq => ?_
        have hne : q ≠ p := fun h => hnot (h ▸ hq)
        simp [setElem, Function.update_of_ne hne]
      rw [List.filterMap_cons, List.filterMap_cons, hrest]
      simp [setElem, hheap, toPair, OMap.set, sameKey, hcmp]
    | false =>
      rw [hp] at hf
      have ih := filterMap_setElem elem ps hnd' hf
      have hne : p ≠ he := fun h => hnot (h ▸ List.mem_of_find?_eq_some hf)
      have hsame : (setElem hm he elem).heap p = hm.heap p := by
        simp [setElem, Function.update_of_ne hne]
      rw [List.filterMap_cons, List.filterMap_cons, ih, hsame]
      cases hheap : hm.heap p with
      | none => rfl
      | some e =>
        have hcmp : sameKey hm.compare e.key key = false := by
          simpa [hasKey, hheap, sameKey] using hp
        simp [toPair, OMap.set, hcmp]

/-! ## Growing the table -/

/-- Does the entry at `he` belong to bucket `i`? -/
def inBucket (hm : Hashmap K V) (i : ℕ) (he : EntryPtr) : Bool :=
  match hm.heap he with
  | some e => hmapHash hm e.key == i
  | none => false

/-- The loop of `hmap_grow` appends to each new bucket its entries, in key order. -/
theorem rehash_snd (i : ℕ) :
    (ps : List EntryPtr) → (maps : (ℕ → List EntryPtr) × (ℕ → List EntryPtr)) →
    (rehash hm ps maps).2 i = maps.2 i ++ ps.filter (inBucket hm i)
  | [], maps => by simp [rehash]
  | p :: ps, (map, newMap) => by
    cases hheap : hm.heap p with
    | none =>
      have : inBucket hm i p = false := by simp [inBucket, hheap]
      rw [rehash, hheap]
      simp only
      rw [rehash_snd i ps, List.filter_cons, this]
      rfl
    | some e =>
      rw [rehash, hheap]
      simp only
      rw [rehash_snd i ps, List.filter_cons]
      by_cases hi : hmapHash hm e.key = i
      · subst hi
        simp [linkTail, inBucket, hheap]
      · have : inBucket hm i p = false := by simp [inBucket, hheap, hi]
        simp [linkTail, this, Function.update_of_ne (Ne.symm hi)]

/-- A grown table is well-formed and holds the same entries in the same order. -/
theorem wf_hmapGrow (hw : Wf hm) {nsize : ℕ} (hpos : 0 < nsize) (ok : Bool) :
    Wf (hmapGrow hm nsize ok).2 := by
  cases ok with
  | false => exact hw
  | true =>
    refine ⟨hpos, hw.fresh, hw.live, hw.nodup, ?_, ?_, hw.elems_eq, hw.distinct⟩
    · intro i he
      simp only [hmapGrow, ↓reduceIte, rehash_snd, List.nil_append, List.mem_filter]
      refine and_congr_right fun _ => ?_
      unfold inBucket
      cases hm.heap he <;> simp [hmapHash]
    · intro i
      simp only [hmapGrow, ↓reduceIte, rehash_snd, List.nil_append]
      exact hw.nodup.filter _

theorem entries_hmapGrow (nsize : ℕ) (ok : Bool) :
    entries (hmapGrow hm nsize ok).2 = entries hm := by
  cases ok <;> rfl

theorem compare_hmapGrow (nsize : ℕ) (ok : Bool) :
    (hmapGrow hm nsize ok).2.compare = hm.compare := by
  cases ok <;> rfl

theorem hash_hmapGrow (nsize : ℕ) (ok : Bool) :
    (hmapGrow hm nsize ok).2.hash = hm.hash := by
  cases ok <;> rfl

/-! ## Linking a new entry -/

/-- The address of the next allocation is not in use. -/
theorem next_not_mem (hw : Wf hm) : hm.next ∉ hm.keys := by
  intro hmem
  obtain ⟨e, hheap⟩ := hw.live _ hmem
  rw [hw.fresh _ (Nat.le_refl _)] at hheap
  contradiction

/-- A key that the key list does not carry has no abstract entry. -/
theorem find?_keys_eq_none (hw : Wf hm) (hl : KeyLaws hm.hash hm.compare) {key : K} :
    hm.keys.find? (hasKey hm key) = none ↔
      OMap.get (sameKey hm.compare) (entries hm) key = none := by
  rw [← hmapGet_eq hw hl, hmapGet, findEntry_eq hw hl]
  cases hf : hm.keys.find? (hasKey hm key) with
  | none => simp
  | some he =>
    obtain ⟨e, hheap⟩ := hw.live he (List.mem_of_find?_eq_some hf)
    simp [hheap]

/-- Storing at the next address leaves the entries in use. -/
theorem update_next_of_mem (hw : Wf hm) {he : EntryPtr} (hmem : he ∈ hm.keys)
    (e : Option (HmapEntry K V)) : Function.update hm.heap hm.next e he = hm.heap he :=
  Function.update_of_ne (ne_of_mem_of_not_mem hmem (next_not_mem hw)) _ _

theorem mem_linkTail {map : ℕ → List EntryPtr} {idx i : ℕ} {he he' : EntryPtr} :
    he' ∈ linkTail map idx he i ↔ he' ∈ map i ∨ (he' = he ∧ idx = i) := by
  rw [linkTail]
  by_cases hi : i = idx
  · simp [hi]
  · simp [Function.update_of_ne hi, Ne.symm hi]

theorem nodup_linkTail {map : ℕ → List EntryPtr} {idx : ℕ} {he : EntryPtr} {i : ℕ}
    (hmap : (map i).Nodup) (hnew : he ∉ map i) : (linkTail map idx he i).Nodup := by
  rw [linkTail]
  by_cases hi : i = idx
  · subst hi
    rw [Function.update_self, List.nodup_append]
    refine ⟨hmap, List.nodup_singleton _, fun a ha b hb hab => ?_⟩
    rw [hab, List.mem_singleton.mp hb] at ha
    exact hnew ha
  · rw [Function.update_of_ne hi]
    exact hmap

/-- The new entry is in the bucket of its key and in no other. -/
theorem bucket_hmapLink (hw : Wf hm) (key : K) (elem : V) (i : ℕ) (he : EntryPtr) :
    he ∈ linkTail hm.map (hmapHash hm key) hm.next i ↔ he ∈ hm.keys ++ [hm.next] ∧
      ∃ e, Function.update hm.heap hm.next (some ⟨key, elem⟩) he = some e ∧
        hmapHash hm e.key = i := by
  rw [mem_linkTail, hw.bucket, List.mem_append, List.mem_singleton]
  by_cases hnew : he = hm.next
  · subst hnew
    simp [next_not_mem hw]
  · rw [Function.update_of_ne hnew]
    simp [hnew]

/-- The new entry has a key of its own. -/
theorem distinct_hmapLink (hw : Wf hm) (hl : KeyLaws hm.hash hm.compare) {key : K}
    (habs : OMap.get (sameKey hm.compare) (entries hm) key = none) (elem : V) :
    ∀ p ∈ hm.keys ++ [hm.next], ∀ q ∈ hm.keys ++ [hm.next], ∀ e e',
      Function.update hm.heap hm.next (some ⟨key, elem⟩) p = some e →
      Function.update hm.heap hm.next (some ⟨key, elem⟩) q = some e' →
      hm.compare e.key e'.key = 0 → p = q := by
  have hnone := List.find?_eq_none.mp ((find?_keys_eq_none hw hl).mpr habs)
  have hcmp : ∀ he ∈ hm.keys, ∀ e, hm.heap he = some e → hm.compare e.key key ≠ 0 :=
    fun he hmem e h h0 => hnone he hmem (hasKey_eq_true.mpr ⟨e, h, h0⟩)
  intro p hp q hq e e' hep heq h0
  rcases List.mem_append.mp hp with hp | hp <;> rcases List.mem_append.mp hq with hq | hq
  · rw [update_next_of_mem hw hp] at hep
    rw [update_next_of_mem hw hq] at heq
    exact hw.distinct p hp q hq e e' hep heq h0
  · rw [update_next_of_mem hw hp] at hep
    rw [List.mem_singleton.mp hq, Function.update_self, Option.some.injEq] at heq
    subst heq
    exact absurd h0 (hcmp p hp e hep)
  · rw [update_next_of_mem hw hq] at heq
    rw [List.mem_singleton.mp hp, Function.update_self, Option.some.injEq] at hep
    subst hep
    exact absurd (hl.equiv.symm h0) (hcmp q hq e' heq)
  · rw [List.mem_singleton.mp hp, List.mem_singleton.mp hq]

/-- A new entry whose key is absent keeps the invariant. -/
theorem wf_hmapLink (hw : Wf hm) (hl : KeyLaws hm.hash hm.compare) {key : K}
    (habs : OMap.get (sameKey hm.compare) (entries hm) key = none) (elem : V) (ok : Bool) :
    Wf (hmapLink hm key elem ok).2 := by
  cases ok with
  | false => exact hw
  | true =>
    have hnext := next_not_mem hw
    refine ⟨hw.size_pos, fun he hle => ?_, fun he hmem => ?_, ?_, bucket_hmapLink hw key elem,
      fun i => ?_, ?_, distinct_hmapLink hw hl habs elem⟩
    · simp only [hmapLink, ↓reduceIte] at hle ⊢
      rw [Function.update_of_ne (Nat.ne_of_gt hle)]
      exact hw.fresh he (Nat.le_of_succ_le hle)
    · simp only [hmapLink, ↓reduceIte, List.mem_append, List.mem_singleton] at hmem ⊢
      rcases hmem with hmem | rfl
      · rw [update_next_of_mem hw hmem]
        exact hw.live he hmem
      · exact ⟨_, Function.update_self _ _ _⟩
    · refine List.nodup_append.mpr ⟨hw.nodup, List.nodup_singleton _, fun a ha b hb hab => ?_⟩
      rw [hab, List.mem_singleton.mp hb] at ha
      exact hnext ha
    · exact nodup_linkTail (hw.bucket_nodup i) fun hmem => hnext ((hw.bucket i _).mp hmem).1
    · simp [hmapLink, hw.elems_eq]

/-- Linking a new entry appends to the abstract map, or does nothing. -/
theorem entries_hmapLink (hw : Wf hm) (key : K) (elem : V) (ok : Bool) :
    entries (hmapLink hm key elem ok).2 =
      if ok then entries hm ++ [(key, elem)] else entries hm := by
  cases ok with
  | false => rfl
  | true =>
    simp only [entries, hmapLink, ↓reduceIte, List.filterMap_append]
    congr 1
    · refine List.filterMap_congr fun he hmem => ?_
      rw [update_next_of_mem hw hmem]
    · simp [toPair]

/-! ## Setting a key -/

/-- What `hmap_set` returns and leaves: success is `OMap.set`; failure, which only a
failed allocation causes, leaves the abstract map alone even when the table has grown. -/
theorem hmapSet_spec (hw : Wf hm) (hl : KeyLaws hm.hash hm.compare) (key : K) (elem : V)
    (growOk ok : Bool) :
    Wf (hmapSet hm key elem growOk ok).2 ∧
    (((hmapSet hm key elem growOk ok).1 = 0 ∧ entries (hmapSet hm key elem growOk ok).2 =
        OMap.set (sameKey hm.compare) (entries hm) key elem) ∨
      ((hmapSet hm key elem growOk ok).1 = -1 ∧ (growOk = false ∨ ok = false) ∧
        entries (hmapSet hm key elem growOk ok).2 = entries hm)) := by
  rw [hmapSet]
  cases hf : findEntry hm key with
  | some he =>
    rw [findEntry_eq hw hl] at hf
    exact ⟨wf_setElem hw he elem, .inl ⟨rfl, filterMap_setElem elem hm.keys hw.nodup hf⟩⟩
  | none =>
    rw [findEntry_eq hw hl, find?_keys_eq_none hw hl] at hf
    have link : ∀ hm' : Hashmap K V, Wf hm' → hm'.hash = hm.hash → hm'.compare = hm.compare →
        entries hm' = entries hm → Wf (hmapLink hm' key elem ok).2 ∧
        (((hmapLink hm' key elem ok).1 = 0 ∧ entries (hmapLink hm' key elem ok).2 =
          OMap.set (sameKey hm.compare) (entries hm) key elem) ∨
        ((hmapLink hm' key elem ok).1 = -1 ∧ (growOk = false ∨ ok = false) ∧
          entries (hmapLink hm' key elem ok).2 = entries hm)) := by
      intro hm' hw' hhash hcmp hent
      refine ⟨wf_hmapLink hw' (hhash ▸ hcmp ▸ hl) (by rw [hcmp, hent]; exact hf) elem ok, ?_⟩
      rw [entries_hmapLink hw', hent, OMap.set_eq_append key elem hf]
      cases ok with
      | true => exact .inl ⟨rfl, rfl⟩
      | false => exact .inr ⟨rfl, .inr rfl, rfl⟩
    simp only
    split
    · cases growOk with
      | true =>
        exact link (hmapGrow hm (hm.size * 2) true).2
          (wf_hmapGrow hw (Nat.mul_pos hw.size_pos (by decide)) true) (hash_hmapGrow _ _)
          (compare_hmapGrow _ _) (entries_hmapGrow _ _)
      | false => exact ⟨hw, .inr ⟨rfl, .inl rfl, rfl⟩⟩
    · exact link hm hw rfl rfl rfl

theorem compare_hmapSet (key : K) (elem : V) (growOk ok : Bool) :
    (hmapSet hm key elem growOk ok).2.compare = hm.compare := by
  unfold hmapSet hmapLink hmapGrow setElem
  cases findEntry hm key <;> cases growOk <;> cases ok <;> simp <;> split <;> rfl

theorem hash_hmapSet (key : K) (elem : V) (growOk ok : Bool) :
    (hmapSet hm key elem growOk ok).2.hash = hm.hash := by
  unfold hmapSet hmapLink hmapGrow setElem
  cases findEntry hm key <;> cases growOk <;> cases ok <;> simp <;> split <;> rfl

/-! ## Removing entries -/

/-- Unlink the entry at `he` from both lists and free it. -/
def removeEntry (hm : Hashmap K V) (he : EntryPtr) : Hashmap K V :=
  { hm with
    elems := hm.elems - 1
    map := unlink hm.map he
    keys := hm.keys.erase he
    heap := Function.update hm.heap he none }

theorem wf_removeEntry (hw : Wf hm) {he : EntryPtr} (hmem : he ∈ hm.keys) :
    Wf (removeEntry hm he) := by
  have hkeys : ∀ p, p ∈ hm.keys.erase he ↔ p ≠ he ∧ p ∈ hm.keys := fun p => hw.nodup.mem_erase_iff
  have hheap : ∀ p, p ≠ he → Function.update hm.heap he none p = hm.heap p :=
    fun p hne => Function.update_of_ne hne _ _
  refine ⟨hw.size_pos, ?_, ?_, hw.nodup.erase he, ?_, ?_, ?_, ?_⟩
  · intro p hle
    by_cases hp : p = he
    · rw [hp]; exact Function.update_self _ _ _
    · exact (hheap p hp).trans (hw.fresh p hle)
  · intro p hp
    obtain ⟨hne, hp⟩ := (hkeys p).mp hp
    obtain ⟨e, h⟩ := hw.live p hp
    exact ⟨e, (hheap p hne).trans h⟩
  · intro i p
    simp only [removeEntry, unlink, (hw.bucket_nodup i).mem_erase_iff, hkeys, hmapHash]
    by_cases hp : p = he
    · simp [hp]
    · rw [hheap p hp]
      simpa [hp, hmapHash] using hw.bucket i p
  · exact fun i => (hw.bucket_nodup i).erase he
  · simp [removeEntry, hw.elems_eq, List.length_erase_of_mem hmem]
  · intro p hp q hq e e' hep heq h0
    obtain ⟨hpne, hp⟩ := (hkeys p).mp hp
    obtain ⟨hqne, hq⟩ := (hkeys q).mp hq
    exact hw.distinct p hp q hq e e' ((hheap p hpne).symm.trans hep)
      ((hheap q hqne).symm.trans heq) h0

/-- Removing the first entry that carries `key` is `OMap.erase`. -/
theorem filterMap_removeEntry {key : K} {he : EntryPtr} :
    (ps : List EntryPtr) → ps.Nodup → ps.find? (hasKey hm key) = some he →
    (ps.erase he).filterMap (fun p => ((removeEntry hm he).heap p).map toPair) =
      OMap.erase (sameKey hm.compare)
        (ps.filterMap fun p => (hm.heap p).map toPair) key
  | [], _, hf => by simp at hf
  | p :: ps, hnd, hf => by
    obtain ⟨hnot, hnd'⟩ := List.nodup_cons.mp hnd
    rw [List.find?_cons] at hf
    cases hp : hasKey hm key p with
    | true =>
      rw [hp] at hf
      obtain rfl : p = he := by simpa using hf
      obtain ⟨e, hheap, hcmp⟩ := hasKey_eq_true.mp hp
      have hrest : ps.filterMap (fun q => ((removeEntry hm p).heap q).map toPair) =
          ps.filterMap fun q => (hm.heap q).map toPair := by
        refine List.filterMap_congr fun q hq => ?_
        simp [removeEntry, Function.update_of_ne (ne_of_mem_of_not_mem hq hnot)]
      rw [List.erase_cons_head, hrest, List.filterMap_cons]
      simp [hheap, toPair, OMap.erase, sameKey, hcmp]
    | false =>
      rw [hp] at hf
      have ih := filterMap_removeEntry ps hnd' hf
      have hne : p ≠ he := fun h => hnot (h ▸ List.mem_of_find?_eq_some hf)
      have hsame : (removeEntry hm he).heap p = hm.heap p := by
        simp [removeEntry, Function.update_of_ne hne]
      rw [List.erase_cons_tail (by simpa using hne), List.filterMap_cons, List.filterMap_cons,
        ih, hsame]
      cases hheap : hm.heap p with
      | none => rfl
      | some e =>
        have hcmp : sameKey hm.compare e.key key = false := by
          simpa [hasKey, hheap, sameKey] using hp
        simp [toPair, OMap.erase, hcmp]

/-- `hmap_delete` is `OMap.erase`. -/
theorem hmapDelete_spec (hw : Wf hm) (hl : KeyLaws hm.hash hm.compare) (key : K) :
    Wf (hmapDelete hm key) ∧
      entries (hmapDelete hm key) = OMap.erase (sameKey hm.compare) (entries hm) key := by
  cases hf : findEntry hm key with
  | some he =>
    have hdel : hmapDelete hm key = removeEntry hm he := by rw [hmapDelete, hf]; rfl
    rw [findEntry_eq hw hl] at hf
    rw [hdel]
    exact ⟨wf_removeEntry hw (List.mem_of_find?_eq_some hf),
      filterMap_removeEntry hm.keys hw.nodup hf⟩
  | none =>
    have hdel : hmapDelete hm key = hm := by rw [hmapDelete, hf]
    rw [findEntry_eq hw hl, find?_keys_eq_none hw hl, OMap.get_eq_none_iff] at hf
    rw [hdel, OMap.erase, List.eraseP_of_forall_not (by simpa using hf)]
    exact ⟨hw, rfl⟩

/-- `hmap_flush` empties the map. -/
theorem hmapFlush_spec (hw : Wf hm) :
    Wf (hmapFlush hm) ∧ entries (hmapFlush hm) = [] ∧ (hmapFlush hm).hash = hm.hash ∧
      (hmapFlush hm).compare = hm.compare := by
  suffices loop : ∀ (ps : List EntryPtr) (hm : Hashmap K V), Wf hm → hm.keys = ps →
      Wf (flushLoop hm ps) ∧ entries (flushLoop hm ps) = [] ∧ (flushLoop hm ps).hash = hm.hash ∧
        (flushLoop hm ps).compare = hm.compare from loop hm.keys hm hw rfl
  intro ps
  induction ps with
  | nil =>
    intro hm hw hkeys
    exact ⟨hw, by simp [flushLoop, entries, hkeys], rfl, rfl⟩
  | cons he rest ih =>
    intro hm hw hkeys
    have hstep : flushLoop hm (he :: rest) = flushLoop (removeEntry hm he) rest := by
      rw [flushLoop, removeEntry, hkeys, List.erase_cons_head]
    rw [hstep]
    exact ih (removeEntry hm he) (wf_removeEntry hw (hkeys ▸ List.mem_cons_self))
      (by simp [removeEntry, hkeys])

/-! ## Refinement over whole runs -/

/-- One call on the abstract map: what it may return and what it leaves. -/
inductive MapStep (same : K → K → Bool) :
    List (K × V) → HmapOp K V → HmapRet V → List (K × V) → Prop where
  | set {m key elem growOk ok} :
      MapStep same m (.set key elem growOk ok) (.status 0) (OMap.set same m key elem)
  | setFail {m key elem growOk ok} (hfail : growOk = false ∨ ok = false) :
      MapStep same m (.set key elem growOk ok) (.status (-1)) m
  | get {m key} : MapStep same m (.get key) (.elem (OMap.get same m key)) m
  | delete {m key} : MapStep same m (.delete key) .void (OMap.erase same m key)
  | flush {m} : MapStep same m .flush .void []

/-- A run of the abstract map over a trace of calls and return values. -/
inductive MapRun (same : K → K → Bool) :
    List (K × V) → List (HmapOp K V × HmapRet V) → List (K × V) → Prop where
  | nil {m} : MapRun same m [] m
  | cons {m op ret m' trace m''} : MapStep same m op ret m' → MapRun same m' trace m'' →
      MapRun same m ((op, ret) :: trace) m''

/-- The hash table represents the abstract map `m`. -/
structure Refines (hm : Hashmap K V) (m : List (K × V)) : Prop where
  /-- `hmap_foreach` visits the entries of `m` in their order. -/
  foreach : (hmapForeach hm).map toPair = m
  /-- No key is present twice. -/
  distinct : OMap.Distinct (sameKey hm.compare) m
  /-- `hmap_get` finds what `m` holds. -/
  get : ∀ key, hmapGet hm key = OMap.get (sameKey hm.compare) m key
  /-- `elems` counts the keys. -/
  elems : hm.elems = m.length
  /-- Every linked entry is live and sits in bucket `hash & (size - 1)` and no other. -/
  bucket : ∀ he ∈ hm.keys, ∃ e, hm.heap he = some e ∧
    (hm.hash e.key).toNat &&& (hm.size - 1) < hm.size ∧
    ∀ i, he ∈ hm.map i ↔ i = (hm.hash e.key).toNat &&& (hm.size - 1)

theorem refines_entries (hw : Wf hm) (hl : KeyLaws hm.hash hm.compare) :
    Refines hm (entries hm) where
  foreach := by rw [hmapForeach, List.map_filterMap]; rfl
  distinct := distinct_entries hw
  get := hmapGet_eq hw hl
  elems := (length_entries hw).symm
  bucket he hmem := by
    obtain ⟨e, hheap⟩ := hw.live he hmem
    refine ⟨e, hheap, hmapHash_lt hw e.key, fun i => ?_⟩
    rw [hw.bucket i he]
    simp [hmem, hheap, hmapHash, eq_comm]

/-- One call on the table is one call on the abstract map. -/
theorem hmapApply_spec (hw : Wf hm) (hl : KeyLaws hm.hash hm.compare) (op : HmapOp K V) :
    MapStep (sameKey hm.compare) (entries hm) op (hmapApply hm op).1
      (entries (hmapApply hm op).2) ∧
    Wf (hmapApply hm op).2 ∧ (hmapApply hm op).2.hash = hm.hash ∧
      (hmapApply hm op).2.compare = hm.compare := by
  cases op with
  | set key elem growOk ok =>
    obtain ⟨hw', hret⟩ := hmapSet_spec hw hl key elem growOk ok
    refine ⟨?_, hw', hash_hmapSet _ _ _ _, compare_hmapSet _ _ _ _⟩
    simp only [hmapApply]
    rcases hret with ⟨hr, he⟩ | ⟨hr, hfail, he⟩
    · rw [hr, he]; exact .set
    · rw [hr, he]; exact .setFail hfail
  | get key =>
    refine ⟨?_, hw, rfl, rfl⟩
    simp only [hmapApply, hmapGet_eq hw hl]
    exact .get
  | delete key =>
    obtain ⟨hw', he⟩ := hmapDelete_spec hw hl key
    refine ⟨?_, hw', ?_, ?_⟩
    · simp only [hmapApply, he]; exact .delete
    · simp only [hmapApply, hmapDelete]; split <;> rfl
    · simp only [hmapApply, hmapDelete]; split <;> rfl
  | flush =>
    obtain ⟨hw', he, hh, hc⟩ := hmapFlush_spec hw
    refine ⟨?_, hw', hh, hc⟩
    simp only [hmapApply, he]
    exact .flush

/-- Every sequence of calls on a well-formed table is a run of the abstract map. -/
theorem mapRun_of_hmapRun (ops : List (HmapOp K V)) {hm : Hashmap K V} (hw : Wf hm)
    (hl : KeyLaws hm.hash hm.compare) :
    MapRun (sameKey hm.compare) (entries hm) (hmapRun hm ops).1 (entries (hmapRun hm ops).2) ∧
      Wf (hmapRun hm ops).2 ∧ (hmapRun hm ops).2.hash = hm.hash ∧
      (hmapRun hm ops).2.compare = hm.compare := by
  induction ops generalizing hm with
  | nil => exact ⟨.nil, hw, rfl, rfl⟩
  | cons op ops ih =>
    obtain ⟨hstep, hw', hh, hc⟩ := hmapApply_spec hw hl op
    obtain ⟨hrun, hw'', hh', hc'⟩ := ih hw' (hh ▸ hc ▸ hl)
    exact ⟨.cons hstep (hc ▸ hrun), hw'', hh'.trans hh, hc'.trans hc⟩

/-- The trace of a run lists its calls. -/
theorem map_fst_hmapRun (ops : List (HmapOp K V)) (hm : Hashmap K V) :
    (hmapRun hm ops).1.map Prod.fst = ops := by
  induction ops generalizing hm with
  | nil => rfl
  | cons op ops ih => exact congrArg (op :: ·) (ih _)

/-- The element last set for `key` and not since deleted or flushed, read off a trace;
`acc` is what the key held before the trace. -/
def lastSet (same : K → K → Bool) (key : K) : List (HmapOp K V × HmapRet V) → Option V → Option V
  | [], acc => acc
  | (.set k v _ _, .status 0) :: trace, acc =>
    lastSet same key trace (if same k key then some v else acc)
  | (.delete k, _) :: trace, acc => lastSet same key trace (if same k key then none else acc)
  | (.flush, _) :: trace, _ => lastSet same key trace none
  | _ :: trace, acc => lastSet same key trace acc

/-- The abstract map holds under each key the element last set for it. -/
theorem get_eq_lastSet {same : K → K → Bool} (hs : OMap.IsKeyTest same) {m m' : List (K × V)}
    {trace : List (HmapOp K V × HmapRet V)} (hrun : MapRun same m trace m')
    (hd : OMap.Distinct same m) (key : K) :
    OMap.get same m' key = lastSet same key trace (OMap.get same m key) := by
  induction hrun with
  | nil => rfl
  | cons hstep _ ih =>
    cases hstep with
    | set => rw [ih (hd.set _ _), OMap.get_set hs]; rfl
    | setFail => rw [ih hd]; rfl
    | get => rw [ih hd]; rfl
    | delete => rw [ih (hd.erase _), OMap.get_erase hs hd]; rfl
    | flush => rw [ih List.Pairwise.nil]; rfl

/-- **The hash table is an insertion-ordered finite map**: after every sequence of calls
on a fresh map, whatever allocations failed on the way, the calls have returned what the
abstract map returns, a failed `hmap_set` has left it unchanged, the table represents the
abstract map that results, and `hmap_get` finds under each key the element last set. -/
theorem hmapRun_refines {hash : K → UInt32} {compare : K → K → ℤ} (hl : KeyLaws hash compare)
    (ops : List (HmapOp K V)) :
    (hmapRun (hmapNew hash compare) ops).1.map Prod.fst = ops ∧
    ∃ m, MapRun (sameKey compare) [] (hmapRun (hmapNew hash compare) ops).1 m ∧
      Refines (hmapRun (hmapNew hash compare) ops).2 m ∧
      ∀ key, hmapGet (hmapRun (hmapNew hash compare) ops).2 key =
        lastSet (sameKey compare) key (hmapRun (hmapNew hash compare) ops).1 none := by
  obtain ⟨hrun, hw, hh, hc⟩ := mapRun_of_hmapRun ops (wf_hmapNew (V := V) hash compare) hl
  have href := refines_entries hw (hh ▸ hc ▸ hl)
  refine ⟨map_fst_hmapRun ops _, _, hrun, href, fun key => ?_⟩
  rw [href.get, hc]
  exact get_eq_lastSet hl.isKeyTest hrun List.Pairwise.nil key

/-- `hash_int` and `compare_int` are lawful. -/
theorem keyLaws_int : KeyLaws hashInt compareInt where
  equiv := ⟨by simp [compareInt], by simp [compareInt, eq_comm], by
    intro a b c; simp only [compareInt]; grind⟩
  hash_eq a b h := by
    have : a = b := by simpa [compareInt] using h
    rw [this]

/-- A run with an overwrite, a failed allocation, a deletion and a re-insertion. -/
theorem hmapRun_refines_int : ∃ m,
    MapRun (sameKey compareInt) []
      (hmapRun (hmapNew hashInt compareInt) [.set 1 'a' true true, .set 2 'b' true true,
        .set 1 'c' true true, .set 3 'd' true false, .delete 1, .set 1 'e' true true]).1 m ∧
      Refines (hmapRun (hmapNew hashInt compareInt) [.set 1 'a' true true, .set 2 'b' true true,
        .set 1 'c' true true, .set 3 'd' true false, .delete 1, .set 1 'e' true true]).2 m := by
  obtain ⟨-, m, hrun, href, -⟩ := hmapRun_refines keyLaws_int
    [.set 1 'a' true true, .set 2 'b' true true, .set 1 'c' true true, .set 3 'd' true false,
      .delete 1, .set 1 'e' true true]
  exact ⟨m, hrun, href⟩

end Hashmap
end Srn
