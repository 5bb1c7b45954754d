import Mathlib.Data.List.Basic
import Mathlib.Logic.Function.Basic
import Mathlib.Data.Nat.Basic
import Mathlib.Order.Basic

/-!
# Trees of tables in a flat memory

A memory gives every table its entries; an entry may name a child table. A
path of indices leads from a root to at most one table. When no table is
reached by two paths, writing one entry affects only the paths through it:
linking an empty table under a vacant entry adds exactly one path and leaves
every leaf alone, and writing an entry of a table on the last level changes
exactly one leaf. A descent that links a fresh table wherever it meets a vacant
entry is a sequence of such links.
-/

set_option autoImplicit false

namespace BruhOS.TableTree

variable {K I E : Type}

abbrev Mem (K I E : Type) := K → I → E

def write [DecidableEq K] [DecidableEq I] (m : Mem K I E) (t : K) (i : I) (e : E) : Mem K I E :=
  Function.update m t (Function.update (m t) i e)

def fill [DecidableEq K] (m : Mem K I E) (t : K) (e : E) : Mem K I E := Function.update m t (fun _ => e)

/-- The table that a path of indices leads to. -/
def descend (child : E → Option K) (m : Mem K I E) : K → List I → Option K
  | t, [] => some t
  | t, i::p => (child (m t i)).bind (fun u => descend child m u p)

/-- No table is reached by two paths of length `n` or less. -/
def Unshared (child : E → Option K) (m : Mem K I E) (root : K) (n : ℕ) : Prop :=
  ∀ p q t, p.length ≤ n → q.length ≤ n → descend child m root p = some t →
    descend child m root q = some t → p = q

/-- The entry at the end of a path, where there is a table. -/
def leaf (child : E → Option K) (m : Mem K I E) (root : K) (p : List I) (i : I) : Option E :=
  (descend child m root p).map (fun t => m t i)

section Descend

variable {m : Mem K I E} {child : E → Option K} {root t u : K} {p q : List I} {i : I} {n : ℕ}

theorem descend_append (p q : List I) : descend child m t (p++q) =
    (descend child m t p).bind (fun u => descend child m u q) := by
  induction p generalizing t with
  | nil => rfl
  | cons i p ih =>
    rw [List.cons_append, descend, descend]
    cases child (m t i) with
    | none => rfl
    | some u => exact ih

theorem descend_snoc (h : descend child m root p = some t) :
    descend child m root (p++[i]) = child (m t i) := by
  rw [descend_append, h]
  show (child (m t i)).bind some = _
  cases child (m t i) <;> rfl

/-- Memories that agree on the entries along the paths from `u` agree there. -/
theorem descend_congr {m' : Mem K I E} (q : List I)
    (h : ∀ r x j s, q = r++j::s → descend child m u r = some x → m' x j = m x j) :
    descend child m' u q = descend child m u q := by
  induction q generalizing u with
  | nil => rfl
  | cons j q ih =>
    have hj := h [] u j q rfl rfl
    rw [descend, descend, hj]
    cases hc : child (m u j) with
    | none => rfl
    | some v =>
      show descend child m' v q = descend child m v q
      apply ih
      intro r x k s hq hr
      refine h (j::r) x k s (by rw [hq]; rfl) ?_
      rw [descend, hc]
      exact hr

end Descend

section Vacant

variable {m : Mem K I E} {child : E → Option K} {root t u : K} {p q : List I} {i : I} {n : ℕ} {e z : E}

/-- A fresh table of vacant entries is linked under a vacant entry. -/
structure Link (child : E → Option K) (m : Mem K I E) (root : K) (n : ℕ) (p : List I) (t : K)
    (i : I) (e : E) (u : K) (z : E) : Prop where
  unshared : Unshared child m root n
  table : descend child m root p = some t
  inner : p.length < n
  vacant : child (m t i) = none
  entry : child e = some u
  empty : child z = none
  fresh : ∀ q, q.length ≤ n → descend child m root q ≠ some u

theorem Link.ne (h : Link child m root n p t i e u z) : t ≠ u := by
  rintro rfl
  exact h.fresh p h.inner.le h.table

theorem Link.before (h : Link child m root n p t i e u z) (hq : p++[i] <+: q) :
    descend child m root q = none := by
  obtain ⟨s, rfl⟩ := hq
  rw [descend_append, descend_snoc h.table, h.vacant]
  rfl

end Vacant

section Fill

variable {m : Mem K I E} {t u : K} [DecidableEq K]

theorem fill_same (m : Mem K I E) (t : K) (e : E) (i : I) : fill m t e t i = e := by
  simp [fill]

theorem fill_other (e : E) (h : u ≠ t) (j : I) : fill m t e u j = m u j := by
  simp [fill, h]

end Fill

variable [DecidableEq K] [DecidableEq I]

section Read

variable {m : Mem K I E} {t u : K} {i j : I}

@[simp] theorem write_same (m : Mem K I E) (t : K) (i : I) (e : E) : write m t i e t i = e := by
  simp [write]

theorem write_other (e : E) (h : u ≠ t ∨ j ≠ i) : write m t i e u j = m u j := by
  unfold write
  by_cases hu : u = t
  · subst hu
    rcases h with h | h
    · exact absurd rfl h
    · simp [h]
  · simp [hu]

end Read

section Write

variable {m : Mem K I E} {child : E → Option K} {root t : K} {p q : List I} {i : I} {n : ℕ}

/-- A write affects only the paths through the entry written. -/
theorem descend_write (hu : Unshared child m root n) (hp : descend child m root p = some t)
    (hn : p.length ≤ n) (e : E) (hq : q.length ≤ n+1) (hnot : ¬ p++[i] <+: q) :
    descend child (write m t i e) root q = descend child m root q := by
  apply descend_congr
  intro r x j s hsplit hr
  apply write_other
  by_cases hx : x = t
  · right
    intro hj
    have hlen : r.length ≤ n := by
      rw [hsplit, List.length_append, List.length_cons] at hq
      omega
    have hrp : r = p := hu r p t hlen hn (by rw [hr, hx]) hp
    apply hnot
    rw [hsplit, hrp, hj]
    exact ⟨s, by simp⟩
  · exact Or.inl hx

theorem descend_write_self (hu : Unshared child m root n) (hp : descend child m root p = some t)
    (hn : p.length ≤ n) (e : E) : descend child (write m t i e) root p = some t := by
  rw [descend_write hu hp hn e (by omega), hp]
  intro hpre
  have hlen := hpre.length_le
  rw [List.length_append, List.length_cons] at hlen
  omega

end Write

section Link

variable {m : Mem K I E} {child : E → Option K} {root t u : K} {p q : List I} {i j : I} {n : ℕ}
  {e z : E}

/-- The memory after the link. -/
def link (m : Mem K I E) (t : K) (i : I) (e : E) (u : K) (z : E) : Mem K I E :=
  write (fill m u z) t i e

theorem link_read (hne : t ≠ u) (x : K) (j : I) : link m t i e u z x j =
    if x = u then z else if x = t ∧ j = i then e else m x j := by
  unfold link
  by_cases hx : x = u
  · subst hx
    rw [if_pos rfl, write_other e (Or.inl (Ne.symm hne)), fill_same]
  · rw [if_neg hx]
    by_cases hy : x = t ∧ j = i
    · rw [if_pos hy, hy.1, hy.2, write_same]
    · rw [if_neg hy, write_other e (by tauto), fill_other z hx]

theorem Link.off (h : Link child m root n p t i e u z) (hlen : q.length ≤ n)
    (hq : ¬ p++[i] <+: q) :
    descend child (link m t i e u z) root q = descend child m root q := by
  apply descend_congr
  intro r x j s hsplit hr
  have hrlen : r.length ≤ n := by
    rw [hsplit, List.length_append] at hlen
    omega
  have hxu : x ≠ u := by
    rintro rfl
    exact h.fresh r hrlen hr
  rw [link_read h.ne, if_neg hxu, if_neg]
  rintro ⟨rfl, rfl⟩
  have hrp : r = p := h.unshared r p x hrlen h.inner.le hr h.table
  apply hq
  rw [hsplit, hrp]
  exact ⟨s, by simp⟩

theorem Link.at (h : Link child m root n p t i e u z) :
    descend child (link m t i e u z) root (p++[i]) = some u := by
  have hp : descend child (link m t i e u z) root p = some t := by
    rw [h.off h.inner.le, h.table]
    rintro ⟨s, hs⟩
    have := congrArg List.length hs
    simp at this
  rw [descend_snoc hp, link_read h.ne, if_neg h.ne, if_pos ⟨rfl, rfl⟩, h.entry]

theorem Link.below (h : Link child m root n p t i e u z) (j : I) (s : List I) :
    descend child (link m t i e u z) root (p++[i]++j::s) = none := by
  rw [descend_append, h.at]
  show (child (link m t i e u z u j)).bind _ = none
  rw [link_read h.ne, if_pos rfl, h.empty]
  rfl

/-- Exactly one path is added. -/
theorem Link.descend_iff (h : Link child m root n p t i e u z) (hlen : q.length ≤ n) (x : K) :
    descend child (link m t i e u z) root q = some x ↔
      (q = p++[i] ∧ x = u) ∨ descend child m root q = some x := by
  by_cases hq : p++[i] <+: q
  · rw [h.before hq]
    obtain ⟨s, rfl⟩ := hq
    cases s with
    | nil =>
      rw [List.append_nil, h.at]
      simp [eq_comm]
    | cons j s =>
      rw [h.below]
      simp
  · rw [h.off hlen hq]
    constructor
    · exact Or.inr
    · rintro (⟨rfl, -⟩ | hx)
      · exact absurd (List.prefix_refl _) hq
      · exact hx

theorem Link.unshared_after (h : Link child m root n p t i e u z) :
    Unshared child (link m t i e u z) root n := by
  intro q r x hq hr hdq hdr
  rw [h.descend_iff hq] at hdq
  rw [h.descend_iff hr] at hdr
  rcases hdq with ⟨rfl, rfl⟩ | hdq
  · rcases hdr with ⟨rfl, -⟩ | hdr
    · rfl
    · exact absurd hdr (h.fresh r hr)
  · rcases hdr with ⟨rfl, rfl⟩ | hdr
    · exact absurd hdq (h.fresh q hq)
    · exact h.unshared q r x hq hr hdq hdr

/-- The entries of tables that were there stay, the vacant one apart. -/
theorem Link.entry_of_table (h : Link child m root n p t i e u z) (hlen : q.length ≤ n) {x : K}
    (hx : descend child m root q = some x) (hnot : q ≠ p ∨ j ≠ i) :
    link m t i e u z x j = m x j := by
  have hxu : x ≠ u := by
    rintro rfl
    exact h.fresh q hlen hx
  rw [link_read h.ne, if_neg hxu, if_neg]
  rintro ⟨rfl, rfl⟩
  rcases hnot with hnot | hnot
  · exact hnot (h.unshared q p x hlen h.inner.le hx h.table)
  · exact hnot rfl

/-- A present leaf is as it was; a leaf of the new table is vacant. -/
theorem Link.leaf_cases (h : Link child m root n p t i e u z) (hlen : q.length = n) (j : I) :
    leaf child (link m t i e u z) root q j = leaf child m root q j ∨
    (leaf child m root q j = none ∧ leaf child (link m t i e u z) root q j = some z) := by
  unfold leaf
  cases hd : descend child m root q with
  | some x =>
    left
    have hafter := (h.descend_iff hlen.le x).mpr (Or.inr hd)
    rw [hafter, Option.map_some, Option.map_some,
      h.entry_of_table hlen.le hd (Or.inl (by rintro rfl; have := h.inner; omega))]
  | none =>
    cases hd' : descend child (link m t i e u z) root q with
    | none => exact Or.inl rfl
    | some x =>
      right
      rcases (h.descend_iff hlen.le x).mp hd' with ⟨-, rfl⟩ | hx
      · rw [Option.map_some, link_read h.ne, if_pos rfl]
        exact ⟨rfl, rfl⟩
      · rw [hd] at hx
        cases hx

end Link

section LeafWrite

variable {m : Mem K I E} {child : E → Option K} {root t : K} {p q : List I} {i j : I} {n : ℕ}

/-- A write on the last level moves no path of that length. -/
theorem descend_leaf_write (hu : Unshared child m root n) (hp : descend child m root p = some t)
    (hn : p.length = n) (e : E) (hq : q.length ≤ n) :
    descend child (write m t i e) root q = descend child m root q := by
  apply descend_write hu hp hn.le e (by omega)
  intro hpre
  have := hpre.length_le
  simp at this
  omega

theorem unshared_leaf_write (hu : Unshared child m root n) (hp : descend child m root p = some t)
    (hn : p.length = n) (e : E) : Unshared child (write m t i e) root n := by
  intro q r x hq hr hdq hdr
  rw [descend_leaf_write hu hp hn e hq] at hdq
  rw [descend_leaf_write hu hp hn e hr] at hdr
  exact hu q r x hq hr hdq hdr

/-- Exactly one leaf changes. -/
theorem leaf_write (hu : Unshared child m root n) (hp : descend child m root p = some t)
    (hn : p.length = n) (e : E) (hq : q.length = n) (j : I) :
    leaf child (write m t i e) root q j =
      if q = p ∧ j = i then some e else leaf child m root q j := by
  unfold leaf
  rw [descend_leaf_write hu hp hn e hq.le]
  by_cases hqp : q = p
  · subst hqp
    rw [hp, Option.map_some, Option.map_some]
    by_cases hj : j = i
    · rw [if_pos ⟨rfl, hj⟩, hj, write_same]
    · rw [if_neg (by simp [hj]), write_other e (Or.inr hj)]
  · rw [if_neg (by simp [hqp])]
    cases hd : descend child m root q with
    | none => rfl
    | some x =>
      have hx : x ≠ t := by
        rintro rfl
        exact hqp (hu q p x hq.le hn.le hd hp)
      rw [Option.map_some, Option.map_some, write_other e (Or.inl hx)]

end LeafWrite

section Grow

/-- Some fresh tables are linked one after another along the path `P`. -/
inductive Links (child : E → Option K) (mk : K → E) (z : E) (root : K) (n : ℕ) (P : List I) :
    Mem K I E → Mem K I E → List K → Prop
  | none (m : Mem K I E) : Links child mk z root n P m m []
  | more {m m' : Mem K I E} {p : List I} {t : K} {i : I} {u : K} {us : List K} :
      Link child m root n p t i (mk u) u z → p++[i] <+: P →
      Links child mk z root n P (link m t i (mk u) u z) m' us →
      Links child mk z root n P m m' (u::us)

variable {child : E → Option K} {mk : K → E} {z : E} {root : K} {n : ℕ} {P : List I}
  {m m' : Mem K I E} {us : List K} {r : List I} {j : I}

theorem Links.unshared (h : Links child mk z root n P m m' us) (hu : Unshared child m root n) :
    Unshared child m' root n := by
  induction h with
  | none m => exact hu
  | more hl _ _ ih => exact ih hl.unshared_after

/-- The tables that were there stay where they were. -/
theorem Links.keeps (h : Links child mk z root n P m m' us) (hr : r.length ≤ n) {x : K}
    (hx : descend child m root r = some x) : descend child m' root r = some x := by
  induction h with
  | none m => exact hx
  | more hl _ _ ih => exact ih ((hl.descend_iff hr x).mpr (Or.inr hx))

theorem Links.tables (h : Links child mk z root n P m m' us) (hr : r.length ≤ n) {x : K}
    (hx : descend child m' root r = some x) :
    descend child m root r = some x ∨ (x ∈ us ∧ r <+: P) := by
  induction h with
  | none m => exact Or.inl hx
  | more hl hP _ ih =>
    rcases ih hx with hx | ⟨hx, hrP⟩
    · rcases (hl.descend_iff hr x).mp hx with ⟨rfl, rfl⟩ | hx
      · exact Or.inr ⟨List.mem_cons_self, hP⟩
      · exact Or.inl hx
    · exact Or.inr ⟨List.mem_cons_of_mem _ hx, hrP⟩

theorem Links.reached (h : Links child mk z root n P m m' us) {u : K} (hu : u ∈ us) :
    ∃ r, r.length ≤ n ∧ descend child m' root r = some u := by
  induction h with
  | none m => cases hu
  | @more m m' p t i v us hl hP hs ih =>
    rcases List.mem_cons.mp hu with rfl | hu
    · have hlen : (p++[i]).length ≤ n := by
        have := hl.inner
        simp
        omega
      exact ⟨p++[i], hlen, hs.keeps hlen hl.at⟩
    · exact ih hu

theorem Links.leaf_cases (h : Links child mk z root n P m m' us) (hr : r.length = n) (j : I) :
    leaf child m' root r j = leaf child m root r j ∨
    (leaf child m root r j = Option.none ∧ leaf child m' root r j = some z) := by
  induction h with
  | none m => exact Or.inl rfl
  | more hl _ _ ih =>
    rcases ih with h1 | ⟨h1, h2⟩ <;> rcases hl.leaf_cases hr j with h3 | ⟨h3, h4⟩
    · exact Or.inl (h1.trans h3)
    · exact Or.inr ⟨h3, h1.trans h4⟩
    · exact Or.inr ⟨h3.symm.trans h1, h2⟩
    · rw [h4] at h1
      cases h1

/-- An entry that names a table is not written. -/
theorem Links.entry (h : Links child mk z root n P m m' us) (hr : r.length ≤ n) {x y : K}
    (hx : descend child m root r = some x) (hy : child (m x j) = some y) : m' x j = m x j := by
  induction h with
  | none m => rfl
  | @more m m' p t i v us hl hP hs ih =>
    have hkeep : link m t i (mk v) v z x j = m x j := by
      apply hl.entry_of_table hr hx
      by_cases hrp : r = p
      · right
        rintro rfl
        have hxt : x = t := by
          rw [hrp, hl.table] at hx
          exact (Option.some.inj hx).symm
        rw [hxt, hl.vacant] at hy
        cases hy
      · exact Or.inl hrp
    have hy' : child (link m t i (mk v) v z x j) = some y := by rw [hkeep, hy]
    rw [ih ((hl.descend_iff hr x).mpr (Or.inr hx)) hy', hkeep]

/-- An entry that names a table was there before, or is one made for a new table. -/
theorem Links.upper (h : Links child mk z root n P m m' us) (hr : r.length < n) {x y : K}
    (hx : descend child m' root r = some x) (hy : child (m' x j) = some y) :
    (descend child m root r = some x ∧ m' x j = m x j) ∨ (r++[j] <+: P ∧ m' x j = mk y) := by
  induction h with
  | none m => exact Or.inl ⟨hx, rfl⟩
  | @more m m' p t i v us hl hP hs ih =>
    rcases ih hx hy with ⟨h1, h2⟩ | h1
    · rw [h2] at hy ⊢
      by_cases hat : r = p ∧ j = i
      · obtain ⟨rfl, rfl⟩ := hat
        have hsnoc := (descend_snoc h1).symm.trans hl.at
        have hxt : x = t := by
          rcases (hl.descend_iff hr.le x).mp h1 with ⟨hlen, -⟩ | hx'
          · have := congrArg List.length hlen
            simp at this
          · rw [hl.table] at hx'
            exact (Option.some.inj hx').symm
        rw [hxt] at hsnoc hy ⊢
        rw [hsnoc] at hy
        rw [link_read hl.ne, if_neg hl.ne, if_pos ⟨rfl, rfl⟩, Option.some.inj hy]
        exact Or.inr ⟨hP, rfl⟩
      · left
        rcases (hl.descend_iff hr.le x).mp h1 with ⟨-, rfl⟩ | hx'
        · rw [link_read hl.ne, if_pos rfl, hl.empty] at hy
          cases hy
        · exact ⟨hx', hl.entry_of_table hr.le hx' (by tauto)⟩
    · exact Or.inr h1

/-- A memory of tables and the number of tables taken from the supply so far. -/
structure Heap (K I E : Type) where
  mem : Mem K I E
  taken : ℕ

/-- A descent that takes a fresh table for every vacant entry it meets. -/
def grow (child : E → Option K) (mk : K → E) (z : E) (fresh : ℕ → K) :
    List I → K → Heap K I E → K × Heap K I E
  | [], t, h => (t, h)
  | i::p, t, h =>
    match child (h.mem t i) with
    | some u => grow child mk z fresh p u h
    | none =>
      let u := fresh h.taken
      grow child mk z fresh p u ⟨link h.mem t i (mk u) u z, h.taken+1⟩

/-- The tables `fresh k`, …, `fresh (l-1)` are new and different from each other. -/
structure Supply (child : E → Option K) (mk : K → E) (root : K) (n : ℕ) (fresh : ℕ → K)
    (m : Mem K I E) (k l : ℕ) : Prop where
  absent : ∀ a, k ≤ a → a < l → ∀ q, q.length ≤ n → descend child m root q ≠ some (fresh a)
  entry : ∀ a, k ≤ a → a < l → child (mk (fresh a)) = some (fresh a)
  distinct : ∀ a b, k ≤ a → a < b → b < l → fresh a ≠ fresh b

variable {fresh : ℕ → K} {k l : ℕ}

theorem Supply.link {p : List I} {t : K} {i : I} (hs : Supply child mk root n fresh m k l)
    (hl : Link child m root n p t i (mk (fresh k)) (fresh k) z) :
    Supply child mk root n fresh (link m t i (mk (fresh k)) (fresh k) z) (k+1) l := by
  constructor
  · intro a ha hal q hq hd
    rcases (hl.descend_iff hq _).mp hd with ⟨-, hx⟩ | hx
    · exact hs.distinct k a (le_refl k) ha hal hx.symm
    · exact hs.absent a (by omega) hal q hq hx
  · exact fun a ha hal => hs.entry a (by omega) hal
  · exact fun a b ha hab hbl => hs.distinct a b (by omega) hab hbl

theorem grow_taken (q : List I) (t : K) (h : Heap K I E) :
    h.taken ≤ (grow child mk z fresh q t h).2.taken := by
  induction q generalizing t h with
  | nil => exact le_refl _
  | cons i q ih =>
    rw [grow]
    cases child (h.mem t i) with
    | some u => exact ih u h
    | none =>
      have := ih (fresh h.taken) ⟨TableTree.link h.mem t i (mk (fresh h.taken)) (fresh h.taken) z, h.taken+1⟩
      exact Nat.le_of_succ_le this

/-- The descent links the tables it takes, in order, and ends where the path leads. -/
theorem grow_links (q : List I) (p : List I) (t : K) (h : Heap K I E) (hz : child z = Option.none)
    (hu : Unshared child h.mem root n) (ht : descend child h.mem root p = some t)
    (hlen : p.length+q.length ≤ n) (hP : p++q <+: P)
    (hs : Supply child mk root n fresh h.mem h.taken (grow child mk z fresh q t h).2.taken) :
    Links child mk z root n P h.mem (grow child mk z fresh q t h).2.mem
      ((List.range' h.taken ((grow child mk z fresh q t h).2.taken-h.taken)).map fresh) ∧
    descend child (grow child mk z fresh q t h).2.mem root (p++q) =
      some (grow child mk z fresh q t h).1 := by
  induction q generalizing p t h with
  | nil =>
    rw [grow, Nat.sub_self, List.append_nil]
    exact ⟨Links.none _, ht⟩
  | cons i q ih =>
    have hsplit : p++i::q = p++[i]++q := by simp
    have hlen' : (p++[i]).length+q.length ≤ n := by
      simp at hlen ⊢
      omega
    rw [hsplit] at hP
    rw [grow] at hs ⊢
    cases hc : child (h.mem t i) with
    | some u =>
      rw [hc] at hs
      rw [hsplit]
      exact ih (p++[i]) u h hu (by rw [descend_snoc ht, hc]) hlen' hP hs
    | none =>
      rw [hc] at hs
      rw [hsplit]
      set u := fresh h.taken with hfresh
      set h1 : Heap K I E := ⟨TableTree.link h.mem t i (mk u) u z, h.taken+1⟩ with hh1
      have hmono : h.taken+1 ≤ (grow child mk z fresh q u h1).2.taken :=
        grow_taken q u h1
      have hlink : Link child h.mem root n p t i (mk u) u z :=
        { unshared := hu
          table := ht
          inner := by
            simp at hlen
            omega
          vacant := hc
          entry := hs.entry h.taken (le_refl _) hmono
          empty := hz
          fresh := hs.absent h.taken (le_refl _) hmono }
      have hrest := ih (p++[i]) u h1 hlink.unshared_after hlink.at hlen' hP
        (hs.link hlink)
      refine ⟨?_, hrest.2⟩
      have hrange : List.range' h.taken ((grow child mk z fresh q u h1).2.taken-h.taken) =
          h.taken :: List.range' (h.taken+1) ((grow child mk z fresh q u h1).2.taken-(h.taken+1)) := by
        rw [← List.range'_succ]
        congr 1
        omega
      show Links child mk z root n P h.mem (grow child mk z fresh q u h1).2.mem
        ((List.range' h.taken ((grow child mk z fresh q u h1).2.taken-h.taken)).map fresh)
      rw [hrange, List.map_cons]
      exact Links.more hlink (List.IsPrefix.trans ⟨q, rfl⟩ hP) hrest.1

omit [DecidableEq K] [DecidableEq I] in
theorem Supply.weaken {l' : ℕ} (hs : Supply child mk root n fresh m k l) (hl : l' ≤ l) :
    Supply child mk root n fresh m k l' :=
  ⟨fun a ha hal => hs.absent a ha (by omega), fun a ha hal => hs.entry a ha (by omega),
    fun a b ha hab hbl => hs.distinct a b ha hab (by omega)⟩

/-- What is left of the supply after the first tables are linked. -/
theorem Supply.rest {k' : ℕ} (hs : Supply child mk root n fresh m k l)
    (h : Links child mk z root n P m m' ((List.range' k (k'-k)).map fresh)) (hk : k ≤ k') :
    Supply child mk root n fresh m' k' l := by
  constructor
  · intro a ha hal q hq hd
    rcases h.tables hq hd with hd | ⟨hmem, -⟩
    · exact hs.absent a (by omega) hal q hq hd
    · obtain ⟨b, hb, hba⟩ := List.mem_map.mp hmem
      rw [List.mem_range'_1] at hb
      exact hs.distinct b a hb.1 (by omega) hal hba
  · exact fun a ha hal => hs.entry a (by omega) hal
  · exact fun a b ha hab hbl => hs.distinct a b (by omega) hab hbl

theorem Supply.leaf_write {p : List I} {t : K} (hs : Supply child mk root n fresh m k l)
    (hu : Unshared child m root n) (hp : descend child m root p = some t) (hn : p.length = n)
    (i : I) (e : E) : Supply child mk root n fresh (write m t i e) k l := by
  refine ⟨fun a ha hal q hq => ?_, hs.entry, hs.distinct⟩
  rw [descend_leaf_write hu hp hn e hq]
  exact hs.absent a ha hal q hq

end Grow

section Assign

variable {child : E → Option K} {mk : K → E} {z : E} {fresh : ℕ → K} {root : K} {n l : ℕ}
  {q r : List I} {i j : I} {e : E} {h : Heap K I E} {x y : K}

/-- The descent along a path, then a write of the entry at its end. -/
def assign (child : E → Option K) (mk : K → E) (z : E) (fresh : ℕ → K) (root : K) (q : List I) (i : I)
    (e : E) (h : Heap K I E) : Heap K I E :=
  let s := grow child mk z fresh q root h
  { s.2 with mem := write s.2.mem s.1 i e }

/-- What an assignment at a path of full length needs. -/
structure Assigns (child : E → Option K) (mk : K → E) (z : E) (fresh : ℕ → K) (root : K) (n : ℕ)
    (q : List I) (i : I) (e : E) (h : Heap K I E) : Prop where
  vacant : child z = none
  unshared : Unshared child h.mem root n
  full : q.length = n
  supply : Supply child mk root n fresh h.mem h.taken (assign child mk z fresh root q i e h).taken

theorem assign_taken : h.taken ≤ (assign child mk z fresh root q i e h).taken :=
  grow_taken _ _ _

theorem Assigns.links (ha : Assigns child mk z fresh root n q i e h) :
    Links child mk z root n q h.mem (grow child mk z fresh q root h).2.mem
      ((List.range' h.taken ((assign child mk z fresh root q i e h).taken-h.taken)).map fresh) ∧
    descend child (grow child mk z fresh q root h).2.mem root q =
      some (grow child mk z fresh q root h).1 :=
  grow_links q [] root h ha.vacant ha.unshared rfl (by simp [ha.full]) (List.prefix_refl q) ha.supply

theorem Assigns.after (ha : Assigns child mk z fresh root n q i e h) :
    Unshared child (assign child mk z fresh root q i e h).mem root n :=
  unshared_leaf_write (ha.links.1.unshared ha.unshared) ha.links.2 ha.full e

/-- What is left of a larger supply. -/
theorem Assigns.rest (ha : Assigns child mk z fresh root n q i e h)
    (hs : Supply child mk root n fresh h.mem h.taken l) :
    Supply child mk root n fresh (assign child mk z fresh root q i e h).mem
      (assign child mk z fresh root q i e h).taken l :=
  (hs.rest ha.links.1 assign_taken).leaf_write (ha.links.1.unshared ha.unshared) ha.links.2
    ha.full i e

theorem Assigns.leaf_same (ha : Assigns child mk z fresh root n q i e h) :
    leaf child (assign child mk z fresh root q i e h).mem root q i = some e := by
  have hw := leaf_write (ha.links.1.unshared ha.unshared) ha.links.2 ha.full e ha.full i (i := i)
  rw [if_pos ⟨rfl, rfl⟩] at hw
  exact hw

theorem Assigns.leaf_other (ha : Assigns child mk z fresh root n q i e h) (hr : r.length = n)
    (hne : ¬ (r = q ∧ j = i)) :
    leaf child (assign child mk z fresh root q i e h).mem root r j = leaf child h.mem root r j ∨
    (leaf child h.mem root r j = none ∧
      leaf child (assign child mk z fresh root q i e h).mem root r j = some z) := by
  have hw := leaf_write (ha.links.1.unshared ha.unshared) ha.links.2 ha.full e hr j (i := i)
  rw [if_neg hne] at hw
  have hw' : leaf child (assign child mk z fresh root q i e h).mem root r j =
      leaf child (grow child mk z fresh q root h).2.mem root r j := hw
  rw [hw']
  exact ha.links.1.leaf_cases hr j

theorem Assigns.descend_eq (ha : Assigns child mk z fresh root n q i e h) (hr : r.length ≤ n) :
    descend child (assign child mk z fresh root q i e h).mem root r =
      descend child (grow child mk z fresh q root h).2.mem root r :=
  descend_leaf_write (ha.links.1.unshared ha.unshared) ha.links.2 ha.full e hr

/-- The tables afterwards are those before and the ones taken. -/
theorem Assigns.tables_iff (ha : Assigns child mk z fresh root n q i e h) (x : K) :
    (∃ r, r.length ≤ n ∧ descend child (assign child mk z fresh root q i e h).mem root r = some x) ↔
    (∃ r, r.length ≤ n ∧ descend child h.mem root r = some x) ∨
      ∃ a, h.taken ≤ a ∧ a < (assign child mk z fresh root q i e h).taken ∧ fresh a = x := by
  have htaken : h.taken ≤ (assign child mk z fresh root q i e h).taken := assign_taken
  have hmem : ∀ u, u ∈ (List.range' h.taken
      ((assign child mk z fresh root q i e h).taken-h.taken)).map fresh ↔
      ∃ a, h.taken ≤ a ∧ a < (assign child mk z fresh root q i e h).taken ∧ fresh a = u := by
    intro u
    rw [List.mem_map]
    constructor
    · rintro ⟨a, ha, rfl⟩
      rw [List.mem_range'_1] at ha
      exact ⟨a, ha.1, by omega, rfl⟩
    · rintro ⟨a, h1, h2, rfl⟩
      exact ⟨a, List.mem_range'_1.mpr ⟨h1, by omega⟩, rfl⟩
  constructor
  · rintro ⟨r, hr, hx⟩
    rw [ha.descend_eq hr] at hx
    rcases ha.links.1.tables hr hx with hx | ⟨hx, -⟩
    · exact Or.inl ⟨r, hr, hx⟩
    · exact Or.inr ((hmem x).mp hx)
  · rintro (⟨r, hr, hx⟩ | hx)
    · exact ⟨r, hr, by rw [ha.descend_eq hr, ha.links.1.keeps hr hx]⟩
    · obtain ⟨r, hr, hx⟩ := ha.links.1.reached ((hmem x).mpr hx)
      exact ⟨r, hr, by rw [ha.descend_eq hr, hx]⟩

/-- Above the last level the write changes nothing. -/
theorem Assigns.above (ha : Assigns child mk z fresh root n q i e h) (hr : r.length < n)
    (hx : descend child (grow child mk z fresh q root h).2.mem root r = some x) (j : I) :
    (assign child mk z fresh root q i e h).mem x j =
      (grow child mk z fresh q root h).2.mem x j := by
  apply write_other
  left
  rintro rfl
  have hlen := congrArg List.length (ha.links.1.unshared ha.unshared r q _ hr.le ha.full.le hx
    ha.links.2)
  rw [ha.full] at hlen
  omega

/-- An upper entry that names a table is as it was, or was made for a table taken. -/
theorem Assigns.upper (ha : Assigns child mk z fresh root n q i e h) (hr : r.length < n)
    (hx : descend child (assign child mk z fresh root q i e h).mem root r = some x)
    (hy : child ((assign child mk z fresh root q i e h).mem x j) = some y) :
    (descend child h.mem root r = some x ∧
      (assign child mk z fresh root q i e h).mem x j = h.mem x j) ∨
    (r++[j] <+: q ∧ (assign child mk z fresh root q i e h).mem x j = mk y) := by
  rw [ha.descend_eq hr.le] at hx
  rw [ha.above hr hx] at hy ⊢
  exact ha.links.1.upper hr hx hy

/-- An upper entry that names a table stays. -/
theorem Assigns.entry (ha : Assigns child mk z fresh root n q i e h) (hr : r.length < n)
    (hx : descend child h.mem root r = some x) (hy : child (h.mem x j) = some y) :
    descend child (assign child mk z fresh root q i e h).mem root r = some x ∧
      (assign child mk z fresh root q i e h).mem x j = h.mem x j := by
  have hkeep := ha.links.1.keeps hr.le hx
  exact ⟨(ha.descend_eq hr.le).trans hkeep,
    (ha.above hr hkeep j).trans (ha.links.1.entry hr.le hx hy)⟩

end Assign

end BruhOS.TableTree
