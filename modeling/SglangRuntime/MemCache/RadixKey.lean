import SglangRuntime.Foundation.CommonPrefix
import SglangRuntime.Foundation.Trie

/-!
# Memory cache — radix keys

`RadixKey` of `mem_cache/radix_cache.py`: a run of token ids, the namespace it belongs to
(`extra_key` and `cache_salt`), whether it is read as overlapping token pairs (bigram mode), and
an optional cap on the raw tokens.  The model is of key objects, so the constructor's replacement
of an empty `cache_salt` by `None` has already happened.

What a key stands for is the list of its logical units, each tagged with the namespace
(`RadixKey.units`): two keys address the same cache line exactly when these lists agree.  Slicing,
page alignment, `match` and `child_key` are the source's, over raw tokens; the results of this
file say what they do to the units:

* `units_getSlice`: a slice of the key spells that slice of the units;
* `matchLen_eq`: `match` is the common prefix of the units, rounded down to whole pages;
* `childKey_eq_iff`: two child keys are equal exactly when the first pages of units are, so the
  namespace is part of the dictionary key;
* `RadixKey.ops`: radix keys are segments in the sense of `Foundation.KeyOps`.
-/

namespace SglangRuntime

open Foundation List

/-- A namespace of the cache: `(extra_key, cache_salt)`. -/
abbrev Namespace := Option String × Option String

/-- A logical unit: a token, or a pair of neighbouring tokens in bigram mode. -/
inductive LogicalUnit where
  | token (t : Int)
  | bigram (t u : Int)
deriving DecidableEq, Repr

structure RadixKey where
  tokenIds : List Int
  extraKey : Option String
  cacheSalt : Option String
  isBigram : Bool
  limit : Option Nat
deriving DecidableEq, Repr

/-- The dictionary key of the first page before the namespace is added: an int, a tuple of ints,
or a tuple of int pairs. -/
inductive PlainKey where
  | int (t : Int)
  | ints (ts : List Int)
  | pairs (ts : List (Int × Int))
deriving DecidableEq, Repr

/-- The Python values `child_key` returns: `plain`, `(extra_key, plain)` and
`((extra_key, cache_salt), plain)`. -/
inductive ChildKey where
  | plain (p : PlainKey)
  | keyed (extraKey : String) (p : PlainKey)
  | salted (extraKey : Option String) (cacheSalt : String) (p : PlainKey)
deriving DecidableEq, Repr

namespace RadixKey

variable (k : RadixKey)

def namespaceOf : Namespace := (k.extraKey, k.cacheSalt)

def rawLen : Nat :=
  match k.limit with
  | some limit => if limit < k.tokenIds.length then limit else k.tokenIds.length
  | none => k.tokenIds.length

def rawTokenIds : List Int := k.tokenIds.take k.rawLen

/-- `__len__`. -/
def len : Nat := if k.isBigram then k.rawLen - 1 else k.rawLen

/-- `__getitem__` on `key[start:stop]`; the slice carries no `limit`. -/
def getSlice (start stop : Nat) : RadixKey :=
  let start := min start k.len
  let stop := min stop k.len
  if k.isBigram then
    -- pairs [start, stop) span raw tokens [start, stop + 1)
    let raw := if stop > start then slice k.tokenIds start (stop + 1) else []
    { k with tokenIds := raw, limit := none }
  else { k with tokenIds := slice k.tokenIds start stop, limit := none }

variable (n : Nat) {pageSize : Nat}

/-- `key[:n]`. -/
def sliceTo : RadixKey := k.getSlice 0 n

/-- `key[n:]`. -/
def sliceFrom : RadixKey := k.getSlice n k.len

def pageAligned (pageSize : Nat) : RadixKey :=
  if pageSize = 1 then k else k.sliceTo (k.len / pageSize * pageSize)

/-- `maybe_to_bigram_view`, on the key. -/
def maybeToBigramView (isEagle : Bool) : RadixKey :=
  if isEagle && !k.isBigram then { k with isBigram := true } else k

/-- `match`; `none` is the `ValueError` of `_check_compatible`. -/
def matchLen (other : RadixKey) (pageSize : Nat) : Option Nat :=
  if k.extraKey ≠ other.extraKey ∨ k.cacheSalt ≠ other.cacheSalt then none
  else
    let matchedTokens := gallop k.tokenIds other.tokenIds
    if k.isBigram then
      let matched := min (matchedTokens - 1) (min k.len other.len)
      some (if pageSize > 1 then matched / pageSize * pageSize else matched)
    else
      let matchedTokens := min matchedTokens (min k.len other.len)
      some (if pageSize = 1 then matchedTokens else matchedTokens / pageSize * pageSize)

variable (t : List Int)

/-- The first `n` overlapping pairs of `t`; `none` when there are fewer (`IndexError`). -/
def firstPairs (n : Nat) : Option (List (Int × Int)) :=
  if n < t.length then some ((t.zip t.tail).take n) else none

/-- The part of `child_key` that does not depend on the namespace. -/
def plainKey (pageSize : Nat) : Option PlainKey :=
  let t := k.tokenIds
  if k.isBigram then
    if pageSize = 1 then
      match t with
      | a :: b :: _ => some (.ints [a, b])
      | _ => none
    else (firstPairs t pageSize).map .pairs
  else if pageSize = 1 then t.head?.map .int
  else some (.ints (t.take pageSize))

variable (ns : Namespace)

/-- The namespace wrapped around a plain key. -/
def wrapNamespace (plain : PlainKey) : ChildKey :=
  match ns.2, ns.1 with
  | some salt, extra => .salted extra salt plain
  | none, some extra => .keyed extra plain
  | none, none => .plain plain

/-- `child_key`; `none` is the `IndexError` of a key shorter than a page. -/
def childKey (pageSize : Nat) : Option ChildKey :=
  (k.plainKey pageSize).map (wrapNamespace k.namespaceOf)

/-- The logical units of the key, each with the key's namespace. -/
def units : List (Namespace × LogicalUnit) :=
  if k.isBigram then
    (k.rawTokenIds.zip k.rawTokenIds.tail).map fun p => (k.namespaceOf, .bigram p.1 p.2)
  else k.rawTokenIds.map fun t => (k.namespaceOf, .token t)

/-- The logical units of the key: its tokens, or its overlapping token pairs in bigram mode. -/
def logicalUnits : List LogicalUnit :=
  if k.isBigram then (k.rawTokenIds.zip k.rawTokenIds.tail).map fun p => .bigram p.1 p.2
  else k.rawTokenIds.map .token

theorem units_eq_map : k.units = k.logicalUnits.map (Prod.mk k.namespaceOf) := by
  rw [units, logicalUnits]
  split_ifs <;> simp [Function.comp_def]

/-! ### Lengths and slices -/

theorem rawLen_le : k.rawLen ≤ k.tokenIds.length := by
  unfold rawLen
  split
  · split_ifs <;> omega
  · exact le_rfl

@[simp] theorem length_rawTokenIds : k.rawTokenIds.length = k.rawLen := by
  simp [rawTokenIds, k.rawLen_le]

@[simp] theorem length_units : k.units.length = k.len := by
  unfold units len
  split_ifs <;> simp

theorem zip_tail_take (n : Nat) :
    (t.take (n + 1)).zip (t.take (n + 1)).tail = (t.zip t.tail).take n := by
  induction t generalizing n with
  | nil => simp
  | cons a t ih =>
    cases n with
    | zero => simp
    | succ n =>
      cases t with
      | nil => simp
      | cons b t => simpa using ih n

theorem zip_tail_drop (n : Nat) :
    (t.drop n).zip (t.drop n).tail = (t.zip t.tail).drop n := by
  rw [tail_drop, ← drop_tail]
  exact drop_zipWith.symm

/-- The units of a key whose tokens are `t`. -/
def unitsOf (isBigram : Bool) (t : List Int) : List (Namespace × LogicalUnit) :=
  if isBigram then (t.zip t.tail).map fun p => (ns, .bigram p.1 p.2)
  else t.map fun a => (ns, .token a)

theorem units_eq : k.units = unitsOf k.namespaceOf k.isBigram k.rawTokenIds := rfl

/-- **A slice of the key spells that slice of the units.** -/
theorem units_getSlice {start stop : Nat} (h : stop ≤ k.len) :
    (k.getSlice start stop).units = slice k.units start stop := by
  cases hb : k.isBigram with
  | false =>
    have hlen : k.len = k.rawLen := by simp [len, hb]
    rw [hlen] at h
    have hstop : min stop k.len = stop := by omega
    have hcut : slice k.tokenIds (min start k.len) stop = slice k.rawTokenIds start stop := by
      rw [slice, slice, rawTokenIds, take_take, min_eq_left h, hlen]
      rcases le_total start k.rawLen with hs | hs
      · rw [min_eq_left hs]
      · rw [min_eq_right hs, drop_eq_nil_of_le, drop_eq_nil_of_le] <;>
          rw [length_take] <;> omega
    simp only [getSlice, hb, hstop, hcut, units, rawTokenIds, rawLen, Bool.false_eq_true, if_false,
      take_length, namespaceOf]
    simp only [slice, map_drop, map_take]
  | true =>
    have hlen : k.len = k.rawLen - 1 := by simp [len, hb]
    have hstop : min stop k.len = stop := by omega
    simp only [getSlice, hb, hstop, units, rawTokenIds, rawLen, if_true, take_length,
      namespaceOf]
    simp only [slice, ← map_take, ← map_drop]
    congr 1
    by_cases hs : stop > min start k.len
    · have hstart : min start k.len = start := by omega
      rw [if_pos hs, hstart, zip_tail_drop, zip_tail_take]
      have e : k.rawLen = (k.rawLen - 1) + 1 := by omega
      change _ = List.drop start (List.take stop
        ((k.tokenIds.take k.rawLen).zip (k.tokenIds.take k.rawLen).tail))
      rw [e, zip_tail_take, take_take, min_eq_left (by omega)]
    · rw [if_neg hs, drop_eq_nil_of_le]
      · rfl
      · simp only [length_take]
        omega

theorem units_sliceTo : (k.sliceTo n).units = k.units.take n := by
  have e : k.getSlice 0 n = k.getSlice 0 (min n k.len) := by simp [getSlice]
  rw [sliceTo, e, units_getSlice k (min_le_right _ _), slice, drop_zero,
    take_eq_take_iff, length_units, min_assoc, min_self]

theorem units_sliceFrom : (k.sliceFrom n).units = k.units.drop n := by
  rw [sliceFrom, units_getSlice k le_rfl, slice, ← length_units, take_length]

theorem units_pageAligned (hp : 0 < pageSize) :
    (k.pageAligned pageSize).units = k.units.take (k.len / pageSize * pageSize) := by
  unfold pageAligned
  split_ifs with h
  · subst h
    rw [Nat.div_one, Nat.mul_one, ← length_units, take_length]
  · exact units_sliceTo k _

theorem len_sliceTo : (k.sliceTo n).len = min n k.len := by
  rw [← length_units, units_sliceTo, length_take, length_units]

theorem len_sliceFrom : (k.sliceFrom n).len = k.len - n := by
  rw [← length_units, units_sliceFrom, length_drop, length_units]

theorem len_pageAligned (hp : 0 < pageSize) :
    (k.pageAligned pageSize).len = k.len / pageSize * pageSize := by
  rw [← length_units, units_pageAligned k hp, length_take, length_units,
    min_eq_left (Nat.div_mul_le_self _ _)]

/-! ### `match` -/

theorem commonPrefix_zip_tail (s t : List Int) :
    commonPrefix (s.zip s.tail) (t.zip t.tail) = commonPrefix s t - 1 := by
  induction s generalizing t with
  | nil => simp [commonPrefix]
  | cons a s ih =>
    rcases s with - | ⟨a', s⟩ <;> rcases t with - | ⟨b, - | ⟨b', t⟩⟩
    case cons.cons.cons =>
      have ih' := ih (b' :: t)
      simp only [tail_cons, commonPrefix, zip_cons_cons, Prod.mk.injEq] at ih' ⊢
      by_cases e : a = b
      · by_cases e' : a' = b'
        · rw [if_pos e'] at ih'
          rw [if_pos ⟨e, e'⟩, if_pos e, if_pos e', ih']
          omega
        · rw [if_neg (fun h => e' h.2), if_pos e, if_neg e']
      · rw [if_neg (fun h => e h.1), if_neg e]
    all_goals
      simp only [tail_cons, zip_nil_right, zip_nil_left, zip_cons_cons, commonPrefix]
      try split_ifs <;> rfl

theorem commonPrefix_unitsOf (b : Bool) (s t : List Int) :
    commonPrefix (unitsOf ns b s) (unitsOf ns b t) =
      if b then commonPrefix s t - 1 else commonPrefix s t := by
  cases b with
  | false =>
    exact commonPrefix_map (fun x y h => by simpa using h) s t
  | true =>
    simp only [unitsOf, if_true]
    rw [commonPrefix_map (f := fun p : Int × Int => (ns, LogicalUnit.bigram p.1 p.2)),
      commonPrefix_zip_tail]
    intro x y h
    simpa [Prod.ext_iff] using h

/-- **`match` is the common prefix of the units, rounded down to whole pages**, for two keys of one
namespace that are read the same way. -/
theorem matchLen_eq {k other : RadixKey} (hns : k.namespaceOf = other.namespaceOf)
    (hb : k.isBigram = other.isBigram) (hp : 0 < pageSize) :
    k.matchLen other pageSize =
      some (commonPrefix k.units other.units / pageSize * pageSize) := by
  have hcompat : ¬ (k.extraKey ≠ other.extraKey ∨ k.cacheSalt ≠ other.cacheSalt) := by
    simpa [namespaceOf] using hns
  have hunits : commonPrefix k.units other.units =
      if k.isBigram then min (commonPrefix k.tokenIds other.tokenIds) (min k.rawLen other.rawLen) - 1
      else min (commonPrefix k.tokenIds other.tokenIds) (min k.rawLen other.rawLen) := by
    rw [units_eq, units_eq, ← hns, ← hb, commonPrefix_unitsOf, rawTokenIds, rawTokenIds,
      commonPrefix_take]
  simp only [matchLen, if_neg hcompat, gallop_eq, hunits]
  cases hk : k.isBigram with
  | false =>
    have ho : other.isBigram = false := by rw [← hb, hk]
    simp only [len, hk, ho, Bool.false_eq_true, if_false]
    split_ifs with h1
    · subst h1; simp
    · rfl
  | true =>
    have ho : other.isBigram := by rw [← hb, hk]
    have e : min (commonPrefix k.tokenIds other.tokenIds - 1) (min (k.rawLen - 1) (other.rawLen - 1))
        = min (commonPrefix k.tokenIds other.tokenIds) (min k.rawLen other.rawLen) - 1 := by omega
    simp only [len, hk, ho, if_true, e]
    split_ifs with h1
    · rfl
    · obtain rfl : pageSize = 1 := by omega
      simp

/-- Whole pages of logical units on which the two keys agree. -/
def Shared (k other : RadixKey) (pageSize n : Nat) : Prop :=
  pageSize ∣ n ∧ n ≤ k.len ∧ n ≤ other.len ∧ k.logicalUnits.take n = other.logicalUnits.take n

theorem shared_iff {k other : RadixKey} (hns : k.namespaceOf = other.namespaceOf) :
    Shared k other pageSize n ↔ pageSize ∣ n ∧ n ≤ commonPrefix k.units other.units := by
  have hmap := map_injective_iff.mpr (Prod.mk_right_injective (β := LogicalUnit) k.namespaceOf)
  have hl := commonPrefix_le k.units other.units
  rw [length_units, length_units] at hl
  refine and_congr_right fun _ => ⟨fun ⟨h, h', e⟩ => ?_, fun h => ⟨by omega, by omega, hmap ?_⟩⟩
  · rw [← take_eq_take_iff_le_commonPrefix (by simpa using h) (by simpa using h'), units_eq_map,
      units_eq_map, ← hns, ← map_take, e, map_take]
  · rw [map_take, map_take, ← units_eq_map, hns, ← units_eq_map]
    exact (take_eq_take_iff_le_commonPrefix (by simp; omega) (by simp; omega)).mpr h

/-- **`match` is the longest run of shared pages**, and the rests of the keys share no page. -/
theorem matchLen_greatest {k other : RadixKey} (hns : k.namespaceOf = other.namespaceOf)
    (hb : k.isBigram = other.isBigram) (hp : 0 < pageSize) :
    ∃ m, k.matchLen other pageSize = some m ∧ IsGreatest {n | Shared k other pageSize n} m ∧
      (k.sliceFrom m).matchLen (other.sliceFrom m) pageSize = some 0 := by
  have hle := Nat.div_mul_le_self (commonPrefix k.units other.units) pageSize
  refine ⟨_, matchLen_eq hns hb hp, ⟨(shared_iff _ hns).mpr ⟨Nat.dvd_mul_left _ _, hle⟩, ?_⟩, ?_⟩
  · intro n hn
    obtain ⟨⟨q, rfl⟩, h⟩ := (shared_iff n hns).mp hn
    rw [mul_comm]
    exact Nat.mul_le_mul_right _ ((Nat.le_div_iff_mul_le hp).mpr (by rwa [mul_comm]))
  · have view : ∀ (k : RadixKey) n, (k.sliceFrom n).namespaceOf = k.namespaceOf ∧
        (k.sliceFrom n).isBigram = k.isBigram := fun k n => by
      unfold sliceFrom getSlice
      split <;> exact ⟨rfl, rfl⟩
    rw [matchLen_eq (by simp [view, hns]) (by simp [view, hb]) hp, units_sliceFrom, units_sliceFrom,
      commonPrefix_drop hle, Nat.div_eq_of_lt]
    · simp
    · have := Nat.mod_lt (commonPrefix k.units other.units) hp
      have := Nat.div_add_mod' (commonPrefix k.units other.units) pageSize
      omega

theorem matchLen_greatest_limit :
    let k : RadixKey := ⟨[1, 2, 3], none, none, true, some 2⟩
    ∃ m, k.matchLen k 1 = some m ∧ IsGreatest {n | Shared k k 1 n} m ∧
      (k.sliceFrom m).matchLen (k.sliceFrom m) 1 = some 0 :=
  matchLen_greatest rfl rfl Nat.one_pos

/-- A key of pairs against a key of tokens: `match` counts the tokens, and no unit is shared. -/
theorem matchLen_mixed :
    let k : RadixKey := ⟨[1, 2, 3], none, none, true, none⟩
    let other := { k with isBigram := false }
    k.matchLen other 1 = some 2 ∧ ¬ Shared k other 1 2 := by
  refine ⟨by decide, fun h => ?_⟩
  revert h
  unfold Shared
  decide

/-! ### `child_key` -/

theorem wrapNamespace_inj {ns ns' : Namespace} {a b : PlainKey} :
    wrapNamespace ns a = wrapNamespace ns' b ↔ ns = ns' ∧ a = b := by
  obtain ⟨extra, salt⟩ := ns
  obtain ⟨extra', salt'⟩ := ns'
  cases salt <;> cases salt' <;> cases extra <;> cases extra' <;> simp [wrapNamespace, and_assoc]

/-- The first page of units, read off the raw tokens. -/
theorem take_units (h : pageSize ≤ k.len) : k.units.take pageSize =
      if k.isBigram then
        ((k.tokenIds.zip k.tokenIds.tail).take pageSize).map fun p =>
          (k.namespaceOf, .bigram p.1 p.2)
      else (k.tokenIds.take pageSize).map fun t => (k.namespaceOf, .token t) := by
  cases hb : k.isBigram with
  | false =>
    have hlen : pageSize ≤ k.rawLen := by simpa [len, hb] using h
    simp only [units, rawTokenIds, hb, Bool.false_eq_true, if_false, ← map_take,
      take_take, min_eq_left hlen]
  | true =>
    have hlen : pageSize ≤ k.rawLen - 1 := by simpa [len, hb] using h
    rcases Nat.eq_zero_or_pos pageSize with rfl | hpos
    · simp
    obtain ⟨n, hn⟩ : ∃ n, k.rawLen = n + 1 := ⟨k.rawLen - 1, by omega⟩
    simp only [units, rawTokenIds, hb, if_true, ← map_take, hn, zip_tail_take,
      take_take]
    rw [min_eq_left (by omega)]

theorem length_le_of_le_len {n : Nat} (hpos : 0 < n) (h : n ≤ k.len) :
    if k.isBigram then n < k.tokenIds.length else n ≤ k.tokenIds.length := by
  have hraw := k.rawLen_le
  simp only [len] at h
  split_ifs at h ⊢ <;> omega

theorem tokenIds_of_le_len (hp : 0 < pageSize) (h : pageSize ≤ k.len) :
    ∃ a t, k.tokenIds = a :: t ∧ (k.isBigram → ∃ b t', t = b :: t') := by
  have hlen := k.length_le_of_le_len hp h
  rcases ht : k.tokenIds with - | ⟨a, - | ⟨b, t⟩⟩
  · simp [ht] at hlen
    omega
  · refine ⟨a, [], rfl, fun hb => ?_⟩
    simp [ht, hb] at hlen
    omega
  · exact ⟨a, _, rfl, fun _ => ⟨b, t, rfl⟩⟩

/-- What `child_key` computes once the key holds a page. -/
theorem plainKey_eq (hp : 0 < pageSize) (h : pageSize ≤ k.len) :
    k.plainKey pageSize = some (
      if k.isBigram then
        let ps := (k.tokenIds.zip k.tokenIds.tail).take pageSize
        if pageSize = 1 then .ints (ps.flatMap fun p => [p.1, p.2]) else .pairs ps
      else
        let ts := k.tokenIds.take pageSize
        if pageSize = 1 then .int ts.sum else .ints ts) := by
  have hlen := k.length_le_of_le_len hp h
  obtain ⟨a, t, ht, hk⟩ := k.tokenIds_of_le_len hp h
  unfold plainKey
  cases hb : k.isBigram with
  | false => by_cases h1 : pageSize = 1 <;> simp [h1, ht]
  | true =>
    obtain ⟨b, t, rfl⟩ := hk hb
    by_cases h1 : pageSize = 1
    · simp [h1, ht]
    · rw [hb, if_pos rfl] at hlen
      simp [h1, firstPairs, hlen]

theorem childKey_isSome (hp : 0 < pageSize)
    (h : pageSize ≤ k.len) : (k.childKey pageSize).isSome := by
  rw [childKey, k.plainKey_eq hp h]
  rfl

/-- **Equal child keys are equal first pages**, namespace included. -/
theorem childKey_eq_iff (k' : RadixKey) (hp : 0 < pageSize)
    (h : pageSize ≤ k.len) (h' : pageSize ≤ k'.len) :
    k.childKey pageSize = k'.childKey pageSize ↔ k.units.take pageSize = k'.units.take pageSize := by
  obtain ⟨a, t, ht, hk⟩ := k.tokenIds_of_le_len hp h
  obtain ⟨a', t', ht', hk'⟩ := k'.tokenIds_of_le_len hp h'
  rw [childKey, childKey, k.plainKey_eq hp h, k'.plainKey_eq hp h', Option.map_some,
    Option.map_some, Option.some.injEq, wrapNamespace_inj, k.take_units h, k'.take_units h', ht, ht']
  obtain ⟨n, rfl⟩ : ∃ n, pageSize = n + 1 := ⟨pageSize - 1, by omega⟩
  cases hb : k.isBigram <;> cases hb' : k'.isBigram
  · by_cases hns : k.namespaceOf = k'.namespaceOf
    · simp only [hns, Bool.false_eq_true, if_false]
      rw [List.map_inj_right (by simp)]
      rcases n with - | n <;> simp
    · simp [hns]
  · obtain ⟨b', t', rfl⟩ := hk' hb'
    rcases n with - | n <;> simp
  · obtain ⟨b, t, rfl⟩ := hk hb
    rcases n with - | n <;> simp
  · obtain ⟨b, t, rfl⟩ := hk hb
    obtain ⟨b', t', rfl⟩ := hk' hb'
    by_cases hns : k.namespaceOf = k'.namespaceOf
    · simp only [hns, if_true]
      rw [List.map_inj_right (by simp [Prod.ext_iff])]
      rcases n with - | n <;> simp
    · simp [hns]

/-- Keys whose first pages agree are of one namespace and read the same way. -/
theorem same_view_of_take_units_eq {k k' : RadixKey} (hp : 0 < pageSize)
    (h : pageSize ≤ k.len) (h' : pageSize ≤ k'.len)
    (e : k.units.take pageSize = k'.units.take pageSize) :
    k.namespaceOf = k'.namespaceOf ∧ k.isBigram = k'.isBigram := by
  obtain ⟨a, t, ht, hk⟩ := k.tokenIds_of_le_len hp h
  obtain ⟨a', t', ht', hk'⟩ := k'.tokenIds_of_le_len hp h'
  rw [k.take_units h, k'.take_units h', ht, ht'] at e
  obtain ⟨n, rfl⟩ : ∃ n, pageSize = n + 1 := ⟨pageSize - 1, by omega⟩
  cases hb : k.isBigram <;> cases hb' : k'.isBigram <;> rw [hb, hb'] at e
  · simp_all
  · obtain ⟨b', t', rfl⟩ := hk' hb'
    simp at e
  · obtain ⟨b, t, rfl⟩ := hk hb
    simp at e
  · obtain ⟨b, t, rfl⟩ := hk hb
    obtain ⟨b', t', rfl⟩ := hk' hb'
    simp_all

/-- `match` against a segment whose first page agrees: no error, and at least that page. -/
theorem matchLen_of_childKey_eq {k k' : RadixKey} (hp : 0 < pageSize)
    (h : pageSize ≤ k.len) (h' : pageSize ≤ k'.len)
    (e : k.childKey pageSize = k'.childKey pageSize) :
    k.matchLen k' pageSize = some (commonPrefix k.units k'.units / pageSize * pageSize) ∧
      pageSize ≤ commonPrefix k.units k'.units / pageSize * pageSize := by
  have eu := (k.childKey_eq_iff k' hp h h').mp e
  obtain ⟨hns, hb⟩ := same_view_of_take_units_eq hp h h' eu
  refine ⟨matchLen_eq hns hb hp, ?_⟩
  have hle := (take_eq_take_iff_le_commonPrefix (by simpa using h) (by simpa using h')).mp eu
  have hdiv : 0 < commonPrefix k.units k'.units / pageSize := Nat.div_pos hle hp
  exact Nat.le_mul_of_pos_left _ hdiv

/-- Radix keys as the segments of a trie. -/
def ops (pageSize : Nat) (hp : 0 < pageSize) :
    KeyOps RadixKey (Namespace × LogicalUnit) ChildKey where
  page := pageSize
  units := units
  label := fun k => k.childKey pageSize
  take := fun n k => k.sliceTo n
  drop := fun n k => k.sliceFrom n
  page_pos := hp
  units_take := units_sliceTo
  units_drop := units_sliceFrom
  label_isSome := fun k h => k.childKey_isSome hp (by simpa using h)
  label_eq_iff := fun k k' h h' => k.childKey_eq_iff k' hp (by simpa using h) (by simpa using h')

section Ops

variable {pageSize : Nat} {hp : 0 < pageSize}

@[simp] theorem ops_page : (ops pageSize hp).page = pageSize := rfl

@[simp] theorem ops_units : (ops pageSize hp).units k = k.units := rfl

@[simp] theorem ops_label : (ops pageSize hp).label k = k.childKey pageSize := rfl

@[simp] theorem ops_take (k : RadixKey) : (ops pageSize hp).take n k = k.sliceTo n := rfl

@[simp] theorem ops_drop (k : RadixKey) : (ops pageSize hp).drop n k = k.sliceFrom n := rfl

end Ops

end RadixKey

end SglangRuntime
