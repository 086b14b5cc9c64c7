import Mathlib
import SglangRuntime.Foundation.CommonPrefix

/-!
# Paged prefix maps

What a prefix cache is for.  A paged map holds sequences of units in whole pages, with every
prefix of a sequence it holds, and gives each position of a sequence one slot; the slots are kept
page by page, at the sequence that ends with the page.

* `longest`, `slots`: the longest prefix of a sequence that is in the map, and its slots.
* `insert`: adds a sequence and its prefixes; positions that have a slot keep it.
* `M ≤ M'`: `M` is `M'` with some sequences dropped.
-/

namespace Foundation

open List Option

@[ext] structure PagedMap (U S : Type) (page : Nat) where
  /-- the slots of the last page of a sequence -/
  pageAt : List U → Option (List S)
  aligned : ∀ {us pg}, pageAt us = some pg →
    0 < us.length ∧ page ∣ us.length ∧ pg.length = page
  closed : ∀ {us v pg}, pageAt v = some pg → us <+: v → 0 < us.length → page ∣ us.length →
    (pageAt us).isSome

namespace PagedMap

variable {U S : Type} {page : Nat}

def empty : PagedMap U S page := ⟨fun _ => none, nofun, nofun⟩

instance : LE (PagedMap U S page) :=
  ⟨fun M M' => ∀ us pg, M.pageAt us = some pg → M'.pageAt us = some pg⟩

/-- The length of the longest prefix of `r` in the map. -/
def longest (M : PagedMap U S page) (r : List U) : Nat :=
  Nat.findGreatest (fun n => page ∣ n ∧ (M.pageAt (r.take n)).isSome) r.length

/-- The slots of the longest prefix of `r` in the map. -/
def slots (M : PagedMap U S page) (r : List U) : List S :=
  (List.range (M.longest r / page)).flatMap fun j => (M.pageAt (r.take ((j + 1) * page))).getD []

/-- The page that inserting `r` with `value` offers at `us`. -/
def offer [DecidableEq U] (page : Nat) (r us : List U) (value : List S) : Option (List S) :=
  if 0 < us.length ∧ page ∣ us.length ∧ us <+: r ∧ us.length ≤ value.length then
    some (slice value (us.length - page) us.length)
  else none

section Insert

variable [DecidableEq U] {r us : List U} {value pg : List S}

theorem offer_eq_some : offer page r us value = some pg ↔
    (0 < us.length ∧ page ∣ us.length ∧ us <+: r ∧ us.length ≤ value.length) ∧
      pg = slice value (us.length - page) us.length := by
  rw [offer]
  split_ifs with h
  · rw [some.injEq, eq_comm]
    exact (and_iff_right h).symm
  · exact ⟨nofun, fun h' => absurd h'.1 h⟩

variable (M : PagedMap U S page)

theorem aligned_or_offer (h : (M.pageAt us).or (offer page r us value) = some pg) :
    0 < us.length ∧ page ∣ us.length ∧ pg.length = page := by
  rcases or_eq_some_iff.mp h with h | ⟨-, h⟩
  · exact M.aligned h
  obtain ⟨⟨hpos, hd, -, hle⟩, rfl⟩ := offer_eq_some.mp h
  refine ⟨hpos, hd, ?_⟩
  have := Nat.le_of_dvd hpos hd
  rw [slice, length_drop, length_take, min_eq_left hle]
  omega

theorem closed_or_offer {v : List U} (h : (M.pageAt us).or (offer page r us value) = some pg)
    (hpre : v <+: us) (hpos : 0 < v.length) (hd : page ∣ v.length) :
    ((M.pageAt v).or (offer page r v value)).isSome := by
  rw [isSome_or, Bool.or_eq_true]
  rcases or_eq_some_iff.mp h with h | ⟨-, h⟩
  · exact .inl (M.closed h hpre hpos hd)
  · obtain ⟨⟨-, -, hr, hle⟩, -⟩ := offer_eq_some.mp h
    refine .inr (isSome_iff_exists.mpr ⟨_, offer_eq_some.mpr ⟨⟨hpos, hd, ?_, ?_⟩, rfl⟩⟩)
    · exact hpre.trans hr
    · exact hpre.length_le.trans hle

/-- The map with `r` added; a position that has a slot keeps it, the others take theirs from
`value`. -/
def insert (r : List U) (value : List S) : PagedMap U S page where
  pageAt us := (M.pageAt us).or (offer page r us value)
  aligned := M.aligned_or_offer
  closed := M.closed_or_offer

theorem pageAt_insert (M : PagedMap U S page) (r us : List U) (value : List S) :
    (M.insert r value).pageAt us = (M.pageAt us).or (offer page r us value) := rfl

end Insert

variable {M : PagedMap U S page} {r : List U} {vals : List S} {m : Nat}

/-- **The longest prefix, from what is in the map along `r`.** -/
theorem longest_eq (hle : m ≤ r.length) (hd : page ∣ m)
    (h : ∀ n, 0 < n → page ∣ n → n ≤ r.length → ((M.pageAt (r.take n)).isSome ↔ n ≤ m)) :
    M.longest r = m := by
  refine le_antisymm (not_lt.mp fun hlt => ?_) ?_
  · have hpos : M.longest r ≠ 0 := by omega
    obtain ⟨hdvd, hs⟩ := Nat.findGreatest_of_ne_zero rfl hpos
    exact absurd ((h _ (Nat.pos_of_ne_zero hpos) hdvd (Nat.findGreatest_le _)).mp hs) (not_le.mpr hlt)
  · rcases Nat.eq_zero_or_pos m with rfl | hpos
    · exact Nat.zero_le _
    · exact Nat.le_findGreatest hle ⟨hd, (h m hpos hd hle).mpr le_rfl⟩

/-- A list is the concatenation of its pages. -/
theorem flatMap_slice (vals : List S) (page q : Nat) :
    ((List.range q).flatMap fun j => slice vals (j * page) ((j + 1) * page)) =
      vals.take (q * page) := by
  induction q with
  | zero => simp
  | succ q ih =>
    have hle : q * page ≤ (q + 1) * page := Nat.mul_le_mul_right _ (Nat.le_succ q)
    have e := take_append_drop (q * page) (vals.take ((q + 1) * page))
    rw [take_take, min_eq_left hle] at e
    rw [range_succ, flatMap_append, ih, flatMap_singleton]
    exact e

/-- **The slots of the longest prefix, from the pages along `r`.** -/
theorem slots_eq (hlen : M.longest r = vals.length) (hd : page ∣ vals.length)
    (h : ∀ n, 0 < n → page ∣ n → n ≤ vals.length →
      M.pageAt (r.take n) = some (slice vals (n - page) n)) : M.slots r = vals := by
  have hq : vals.length / page * page = vals.length := Nat.div_mul_cancel hd
  have hpages : ∀ j ∈ List.range (vals.length / page),
      (M.pageAt (r.take ((j + 1) * page))).getD [] = slice vals (j * page) ((j + 1) * page) := by
    intro j hj
    have hj := mem_range.mp hj
    have hle : (j + 1) * page ≤ vals.length :=
      hq ▸ Nat.mul_le_mul_right page (Nat.succ_le_of_lt hj)
    have hpos : 0 < page := Nat.pos_of_ne_zero fun e => by simp [e] at hj
    rw [h _ (Nat.mul_pos (Nat.succ_pos j) hpos) (dvd_mul_left _ _) hle, getD_some,
      Nat.succ_mul, Nat.add_sub_cancel]
  rw [slots, hlen, flatMap_congr hpages, flatMap_slice, hq, take_length]

end PagedMap

end Foundation
