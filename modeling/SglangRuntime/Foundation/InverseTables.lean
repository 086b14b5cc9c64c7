import Mathlib.Data.List.Forall2
import Mathlib.Data.List.Nodup
import Mathlib.Data.List.Zip
import Mathlib.Logic.Function.Basic

/-!
# Foundation — inverse tables

Two lookup tables that are kept mutually inverse while they are written in batches.  A batch write
is a scatter (`t[ks] = vs`), a batch read a gather (`t[ks]`), and `wipe` writes the empty entry.

Binding distinct free keys, unbinding keys with the keys they map to, and moving bindings to free
places each keep a pair of tables inverse (`MutuallyInverse.bind`, `.unbind`, `.move`).
-/

namespace Foundation

open List Function Option

variable {α β : Type*} {t : α → Option β} {ks : List α} {vs : List β} {k : α} {v : β}

/-- `t[ks]`, undefined when an entry is empty. -/
def gather (t : α → Option β) : List α → Option (List β)
  | [] => some []
  | k :: ks => (t k).bind fun v => (gather t ks).map (v :: ·)

theorem exists_mem_zip (hlen : ks.length = vs.length) (hk : k ∈ ks) : ∃ v, (k, v) ∈ ks.zip vs := by
  rw [← map_fst_zip (Nat.le_of_eq hlen)] at hk
  obtain ⟨⟨k', v⟩, hm, rfl⟩ := mem_map.mp hk
  exact ⟨v, hm⟩

theorem gather_eq_some_iff :
    gather t ks = some vs ↔ List.Forall₂ (fun k v => t k = some v) ks vs := by
  induction ks generalizing vs with
  | nil => simp [gather, eq_comm]
  | cons k ks ih =>
    simp only [gather, bind_eq_some_iff, map_eq_some_iff, forall₂_cons_left_iff]
    constructor
    · rintro ⟨v, hv, vs', h, rfl⟩
      exact ⟨v, vs', hv, ih.mp h, rfl⟩
    · rintro ⟨v, vs', hv, h, rfl⟩
      exact ⟨v, hv, vs', ih.mpr h, rfl⟩

theorem length_of_gather (h : gather t ks = some vs) : ks.length = vs.length :=
  (gather_eq_some_iff.mp h).length_eq

theorem exists_of_forall₂ {γ δ : Type*} {R : γ → δ → Prop} {xs : List γ} {ys : List δ}
    (h : List.Forall₂ R xs ys) {y : δ} (hy : y ∈ ys) : ∃ x ∈ xs, R x y := by
  induction h with
  | nil => cases hy
  | cons hxy _ ih =>
    rcases mem_cons.mp hy with rfl | hy
    · exact ⟨_, mem_cons_self, hxy⟩
    · obtain ⟨x, hx, e⟩ := ih hy
      exact ⟨x, mem_cons_of_mem _ hx, e⟩

theorem exists_of_mem_gather (h : gather t ks = some vs) (hv : v ∈ vs) : ∃ k ∈ ks, t k = some v :=
  exists_of_forall₂ (gather_eq_some_iff.mp h) hv

theorem exists_of_mem_keys (h : gather t ks = some vs) (hk : k ∈ ks) : ∃ v ∈ vs, t k = some v :=
  exists_of_forall₂ (gather_eq_some_iff.mp h).flip hk

theorem exists_gather (h : ∀ k ∈ ks, t k ≠ none) : ∃ vs, gather t ks = some vs := by
  induction ks with
  | nil => exact ⟨[], rfl⟩
  | cons k ks ih =>
    obtain ⟨v, hv⟩ := ne_none_iff_exists'.mp (h k mem_cons_self)
    obtain ⟨vs, hvs⟩ := ih fun k hk => h k (mem_cons_of_mem _ hk)
    exact ⟨v :: vs, by rw [gather, hv, hvs]; rfl⟩

/-- Each table looks up the other's entries. -/
def MutuallyInverse (f : α → Option β) (g : β → Option α) : Prop :=
  ∀ a b, f a = some b ↔ g b = some a

namespace MutuallyInverse

variable {f : α → Option β} {g : β → Option α} {as : List α} {bs : List β}

section

variable (h : MutuallyInverse f g)
include h

theorem symm : MutuallyInverse g f := fun b a => (h a b).symm

theorem inj {a a' : α} {b : β} (e : f a = some b) (e' : f a' = some b) : a = a' :=
  some.inj (((h a b).mp e).symm.trans ((h a' b).mp e'))

theorem nodup_gather (hnd : as.Nodup) (hg : gather f as = some bs) : bs.Nodup := by
  rw [gather_eq_some_iff] at hg
  induction hg with
  | nil => exact nodup_nil
  | cons hab hrest ih =>
    obtain ⟨ha, hnd⟩ := nodup_cons.mp hnd
    refine nodup_cons.mpr ⟨fun hb => ha ?_, ih hnd⟩
    obtain ⟨a', ha', e⟩ := exists_of_mem_gather (gather_eq_some_iff.mpr hrest) hb
    exact h.inj hab e ▸ ha'

end

end MutuallyInverse

variable [DecidableEq α]

/-- `t[ks] = vs`, where a later write wins. -/
def scatter (t : α → Option β) : List α → List β → α → Option β
  | k :: ks, v :: vs => scatter (update t k (some v)) ks vs
  | [], _ | _ :: _, [] => t

/-- `t[ks] = -1`. -/
def wipe (t : α → Option β) (ks : List α) : α → Option β :=
  fun k => if k ∈ ks then none else t k

theorem wipe_eq_some_iff : wipe t ks k = some v ↔ k ∉ ks ∧ t k = some v := by
  unfold wipe
  split_ifs with h
  · simp [h]
  · simp [h]

theorem scatter_of_notMem (h : k ∉ ks) : scatter t ks vs k = t k := by
  induction ks generalizing t vs with
  | nil => rfl
  | cons x ks ih =>
    cases vs with
    | nil => rfl
    | cons y vs =>
      rw [mem_cons, not_or] at h
      rw [scatter, ih h.2, update_of_ne h.1]

/-- What a scatter over distinct keys leaves at a key. -/
theorem scatter_eq_some_iff (hnd : ks.Nodup) (hlen : ks.length = vs.length) :
    scatter t ks vs k = some v ↔ (k, v) ∈ ks.zip vs ∨ k ∉ ks ∧ t k = some v := by
  induction ks generalizing t vs with
  | nil => simp [scatter]
  | cons x ks ih =>
    cases vs with
    | nil => cases hlen
    | cons y vs =>
      obtain ⟨hx, hnd⟩ := nodup_cons.mp hnd
      rw [scatter, ih hnd (Nat.succ.inj hlen), zip_cons_cons, mem_cons, Prod.mk.injEq,
        mem_cons, not_or]
      by_cases hk : k = x
      · subst hk
        have hz : (k, v) ∉ ks.zip vs := fun h => hx (of_mem_zip h).1
        simp only [hz, hx, not_false_eq_true, true_and, update_self, some.injEq,
          false_or, true_and, not_true_eq_false, false_and, or_false]
        exact eq_comm
      · simp only [hk, false_and, false_or, not_false_eq_true, true_and,
          update_of_ne hk]

theorem scatter_wipe (hlen : ks.length = vs.length) :
    scatter (wipe t ks) ks vs = scatter t ks vs := by
  -- every wiped key is written again
  have general : ∀ (ks : List α) (vs : List β) (t t' : α → Option β), ks.length = vs.length →
      (∀ k, k ∉ ks → t k = t' k) → scatter t ks vs = scatter t' ks vs := by
    intro ks
    induction ks with
    | nil => intro vs t t' _ h; exact funext fun k => h k not_mem_nil
    | cons x ks ih =>
      intro vs t t' hlen h
      cases vs with
      | nil => cases hlen
      | cons y vs =>
        refine ih vs _ _ (Nat.succ.inj hlen) fun k hk => ?_
        by_cases e : k = x
        · rw [e, update_self, update_self]
        · rw [update_of_ne e, update_of_ne e]
          exact h k (by simp [e, hk])
  exact general ks vs _ _ hlen fun k hk => by simp [wipe, hk]

theorem wipe_scatter {xs : List α}
    (hdis : ∀ k ∈ ks, k ∉ xs) : wipe (scatter t ks vs) xs = scatter (wipe t xs) ks vs := by
  induction ks generalizing t vs with
  | nil => rfl
  | cons x ks ih =>
    cases vs with
    | nil => rfl
    | cons y vs =>
      rw [scatter, scatter, ih fun k hk => hdis k (mem_cons_of_mem _ hk)]
      congr 1
      funext k
      by_cases e : k = x
      · rw [e, update_self, wipe, if_neg (hdis x mem_cons_self),
          update_self]
      · rw [update_of_ne e, wipe, wipe, update_of_ne e]

namespace MutuallyInverse

variable [DecidableEq β] {f : α → Option β} {g : β → Option α} (h : MutuallyInverse f g)
include h

/-- Bind distinct free keys to distinct free places. -/
theorem bind {as : List α} {bs : List β} (ha : as.Nodup) (hb : bs.Nodup)
    (hlen : as.length = bs.length) (hfa : ∀ a ∈ as, f a = none) (hgb : ∀ b ∈ bs, g b = none) :
    MutuallyInverse (scatter f as bs) (scatter g bs as) := by
  intro a b
  rw [scatter_eq_some_iff ha hlen, scatter_eq_some_iff hb hlen.symm]
  refine or_congr ?_ ?_
  · rw [← zip_swap as bs]
    constructor
    · intro hm
      exact mem_map.mpr ⟨(a, b), hm, rfl⟩
    · intro hm
      obtain ⟨⟨a', b'⟩, hm', e⟩ := mem_map.mp hm
      cases e
      exact hm'
  · rw [h a b]
    refine and_congr_left fun e => ?_
    have hb' : b ∉ bs := fun hm => by rw [hgb b hm] at e; cases e
    have ha' : a ∉ as := fun hm => by
      have e' := (h a b).mpr e
      rw [hfa a hm] at e'
      cases e'
    exact iff_of_true ha' hb'

/-- Unbind keys together with the places they map to. -/
theorem unbind {as : List α} {bs : List β} (hg : gather f as = some bs) : MutuallyInverse (wipe f as) (wipe g bs) := by
  intro a b
  rw [wipe_eq_some_iff, wipe_eq_some_iff, h a b]
  refine and_congr_left fun e => not_congr ⟨fun ha => ?_, fun hb => ?_⟩
  · obtain ⟨b', hb', e'⟩ := exists_of_mem_keys hg ha
    rw [(h a b).mpr e] at e'
    exact some.inj e' ▸ hb'
  · obtain ⟨a', ha', e'⟩ := exists_of_mem_gather hg hb
    exact h.inj e' ((h a b).mpr e) ▸ ha'

/-- Move the bindings at `srcs` to the free places `dsts`. -/
theorem move {srcs dsts : List β} {vs : List α} (hs : srcs.Nodup) (hd : dsts.Nodup) (hg : gather g srcs = some vs)
    (hlen : srcs.length = dsts.length) (hfree : ∀ b ∈ dsts, g b = none) :
    MutuallyInverse (scatter f vs dsts) (wipe (scatter g dsts vs) srcs) := by
  have hvs : vs.length = dsts.length := (length_of_gather hg).symm.trans hlen
  have hdis : ∀ b ∈ dsts, b ∉ srcs := by
    intro b hb hm
    obtain ⟨v, -, e⟩ := exists_of_mem_keys hg hm
    rw [hfree b hb] at e
    cases e
  have hcut : MutuallyInverse (wipe f vs) (wipe g srcs) := (h.symm.unbind hg).symm
  have hbind := hcut.bind (h.symm.nodup_gather hs hg) hd hvs
    (fun a ha => by simp [wipe, ha]) fun b hb => by
      rw [wipe, if_neg (hdis b hb)]
      exact hfree b hb
  rwa [scatter_wipe hvs, ← wipe_scatter hdis] at hbind

end MutuallyInverse

end Foundation
