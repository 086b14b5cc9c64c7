import SglangRuntime.Foundation.TrieContents
import SglangRuntime.MemCache.RadixKey

/-!
# Memory cache — following a radix key down a tree

Both tree caches keep their nodes in a trie of radix keys and follow a key down the dictionaries,
comparing segments with `match`.  `LongestAlong` says how far a key is cached below a node, in
whole pages; `Found` collects what one successful dictionary lookup tells about the segment found.

* `LongestAlong.zero`: without an entry for the next page, nothing more is cached.
* `Found.longest`: where the segment parts from the key, the cached part ends.
* `Found.extend`: below a segment that matches entirely, the cached part goes on.
-/

namespace SglangRuntime

/-- A KV slot index. -/
abbrev Slot := Int

namespace RadixKey

open Foundation Foundation.Trie List

variable {A : Type} {pageSize : Nat} {hp : 0 < pageSize} {T : Trie RadixKey ChildKey A} {i : NodeId}

/-- `m` is the length of the longest cached continuation of `w` along `r`. -/
def LongestAlong {pageSize : Nat} (hp : 0 < pageSize) (T : Trie RadixKey ChildKey A)
    (w r : List (Namespace × LogicalUnit)) (m : Nat) : Prop :=
  m ≤ r.length ∧ pageSize ∣ m ∧ ∀ n, 0 < n → pageSize ∣ n → n ≤ r.length →
    (T.Cached (ops pageSize hp) (w ++ r.take n) ↔ n ≤ m)

variable {q : NodeId} {r k : RadixKey} {d : ChildKey}

theorem LongestAlong.zero (h : T.WF (ops pageSize hp)) (hq : T.Live q)
    (hr : 0 < r.len → pageSize ≤ r.len ∧ ∃ d, r.childKey pageSize = some d ∧
      T.child q d = none) : LongestAlong hp T (T.spellTo (ops pageSize hp) q) r.units 0 := by
  refine ⟨Nat.zero_le _, dvd_zero _, fun n hn hd hle => ?_⟩
  have hpage : pageSize ≤ n := Nat.le_of_dvd hn hd
  rw [length_units] at hle
  obtain ⟨hlen, d, hd', hc⟩ := hr (hn.trans_le hle)
  have hno := h.not_cached_of_no_child (v := r.units.take n) hq hd' (by simpa using hlen) hc
    (by rw [length_take, length_units, min_eq_left hle]; exact hpage)
    (by rw [take_take]; exact congrArg (r.units.take ·) (min_eq_left hpage))
  exact ⟨fun hc => absurd hc hno, fun h0 => by omega⟩

/-- What a successful dictionary lookup tells: the segment found matches at least a page. -/
structure Found {pageSize : Nat} (hp : 0 < pageSize) (T : Trie RadixKey ChildKey A) (q i : NodeId)
    (r k : RadixKey) (d : ChildKey) (m : Nat) : Prop where
  parent : T.parentOf i = some q
  key : T.keyOf i = some k
  matchLen : k.matchLen r pageSize = some m
  le_key : m ≤ k.len
  le_rest : m ≤ r.len
  page_le : pageSize ≤ m
  page_dvd : pageSize ∣ m
  agree : k.units.take m = r.units.take m
  label : k.childKey pageSize = some d
  eq : m = commonPrefix k.units r.units / pageSize * pageSize

theorem found (hp : 0 < pageSize) (h : T.WF (ops pageSize hp)) (hr : pageSize ≤ r.len)
    (hd : r.childKey pageSize = some d) (hc : T.child q d = some i) :
    ∃ k m, Found hp T q i r k d m := by
  obtain ⟨hq, hl⟩ := h.child_iff.mp hc
  obtain ⟨k, hk⟩ := (live_of_parentOf hq).key
  have hkd : k.childKey pageSize = some d := by simpa [hk] using hl
  have hpaged := h.paged (h.ne_root_of_parentOf hq) hk
  have hkl : pageSize ≤ k.len := by simpa using hpaged.page_le
  obtain ⟨hm, hge⟩ := matchLen_of_childKey_eq hp hkl hr (hkd.trans hd.symm)
  have hle := Nat.div_mul_le_self (commonPrefix k.units r.units) pageSize
  have hl₁ := commonPrefix_le_left k.units r.units
  have hl₂ := commonPrefix_le_right k.units r.units
  rw [length_units] at hl₁ hl₂
  refine ⟨k, _, hq, hk, hm, hle.trans hl₁, hle.trans hl₂, hge, dvd_mul_left _ _, ?_, hkd, rfl⟩
  exact (take_eq_take_iff_le_commonPrefix (by simpa using hle.trans hl₁)
    (by simpa using hle.trans hl₂)).mpr hle

variable {m : Nat}

theorem Found.at (hf : Found hp T q i r k d m) {n : Nat} (hn : 0 < n) (hd : pageSize ∣ n)
    (hle : n ≤ m) : T.At (ops pageSize hp) i n (T.spellTo (ops pageSize hp) q ++ r.units.take n) := by
  refine ⟨q, k, hf.parent, hf.key, hn, hd, by simpa using hle.trans hf.le_key, ?_⟩
  have e := congrArg (List.take n) hf.agree
  rw [take_take, take_take, min_eq_left hle] at e
  rw [ops_units, e]

section

variable (h : T.WF (ops pageSize hp))
include h

section

variable (hf : Found hp T q i r k d m)
include hf

/-- Where the segment parts from the key, the longest continuation ends. -/
theorem Found.longest (hlt : m < k.len) (hd : r.childKey pageSize = some d) :
    LongestAlong hp T (T.spellTo (ops pageSize hp) q) r.units m := by
  refine ⟨by simpa using hf.le_rest, hf.page_dvd, fun n hn hdn hle => ?_⟩
  rw [length_units] at hle
  refine ⟨fun hc => ?_, fun hnm => ⟨i, n, hf.at hn hdn hnm⟩⟩
  by_contra hgt
  have hnm : m + pageSize ≤ n :=
    not_lt.mp fun hlt => hgt (Nat.le_of_lt_add_of_dvd hlt hdn hf.page_dvd)
  have hlab := h.child_iff.mpr ⟨hf.parent, by rw [hf.key]; exact hf.label⟩
  refine h.not_cached_past (m := m) (r := r) (v := r.units.take n) hd ?_ hlab hf.key hf.eq ?_ ?_ ?_
    ?_ hc
  · simpa using hf.page_le.trans hf.le_rest
  · simpa using hlt
  · rw [length_take, length_units, min_eq_left hle]; exact hnm
  · simpa using hnm.trans hle
  · rw [take_take, ops_page, min_eq_left hnm]; rfl

/-- Past the place where the segment parts from the key, the next pages differ. -/
theorem Found.rest_ne (hlt : m < k.len) (hr : m + pageSize ≤ r.len) :
    (k.sliceFrom m).childKey pageSize ≠ (r.sliceFrom m).childKey pageSize := by
  intro e
  have hpaged := h.paged (h.ne_root_of_parentOf hf.parent) hf.key
  have hk : m + pageSize ≤ k.len :=
    not_lt.mp fun hl => absurd (Nat.le_of_lt_add_of_dvd hl (by simpa using hpaged.2) hf.page_dvd)
      (not_le.mpr hlt)
  rw [childKey_eq_iff _ _ hp (by rw [len_sliceFrom]; omega) (by rw [len_sliceFrom]; omega),
    units_sliceFrom, units_sliceFrom] at e
  have hle : m + pageSize ≤ commonPrefix k.units r.units := by
    refine (take_eq_take_iff_le_commonPrefix (by simpa using hk) (by simpa using hr)).mp ?_
    rw [take_add, take_add, hf.agree, e]
  have hlt' := Nat.lt_div_mul_add (a := commonPrefix k.units r.units) hp
  rw [← hf.eq] at hlt'
  omega

/-- What the path to a node spells whose segment matches entirely. -/
theorem Found.spellTo_eq (heq : m = k.len) :
    T.spellTo (ops pageSize hp) i = T.spellTo (ops pageSize hp) q ++ r.units.take m := by
  rw [h.spellTo_cons hf.parent hf.key, ← hf.agree, heq, ← length_units, take_length, ops_units]

/-- Below a segment that matches entirely, the longest continuation goes on. -/
theorem Found.extend (heq : m = k.len)
    {t : Nat} (ht : LongestAlong hp T (T.spellTo (ops pageSize hp) i) (r.units.drop m) t) :
    LongestAlong hp T (T.spellTo (ops pageSize hp) q) r.units (m + t) := by
  obtain ⟨hle, hd, hiff⟩ := ht
  have hrm := hf.le_rest
  rw [length_drop, length_units] at hle
  refine ⟨by rw [length_units]; omega, dvd_add hf.page_dvd hd, fun n hn hdn hnle => ?_⟩
  rw [length_units] at hnle
  rcases le_or_gt n m with hnm | hnm
  · exact ⟨fun _ => by omega, fun _ => ⟨i, n, hf.at hn hdn hnm⟩⟩
  have e : T.spellTo (ops pageSize hp) q ++ r.units.take n =
      T.spellTo (ops pageSize hp) i ++ (r.units.drop m).take (n - m) := by
    rw [hf.spellTo_eq h heq, append_assoc, ← take_add, Nat.add_sub_cancel' hnm.le]
  rw [e, hiff (n - m) (by omega) (Nat.dvd_sub hdn hf.page_dvd)
    (by rw [length_drop, length_units]; omega)]
  omega

end

end

end RadixKey

end SglangRuntime
