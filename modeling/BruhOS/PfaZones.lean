import BruhOS.BuddySafety
import BruhOS.PfaInit

/-!
# The zone arrays of `pfa_init`

Each phase writes to a bounded array with a 16-bit counter. `Writes cap len`
says what a phase does when it brings the array to `len` entries: it succeeds
when they fit and overflows when they do not. Splitting at the boundaries is a
traversal of a growing list; it ends with as many entries as the first zones
have pieces, every byte stays in as many zones as before, and no boundary is
left inside a zone.
-/

set_option autoImplicit false

namespace BruhOS.PfaZones
open BruhOS.BuddyMachine BruhOS.BuddySafety BruhOS.PfaInit

/-- A phase that brings an array of capacity `cap` to `len` entries. -/
def Ends {α : Type} (cap len : ℕ) (P : Except Fault α → Prop) (r : Except Fault α) : Prop :=
  (len ≤ cap → len < 2^16 → P r) ∧ (cap < len → cap < 2^16 → r = .error .overflow)

abbrev Writes {α : Type} (cap len : ℕ) (P : α → Prop) (r : Except Fault α) : Prop :=
  Ends cap len (fun r => ∃ x, r = .ok x ∧ P x) r

section Writes

variable {α β : Type} {cap len len' : ℕ} {P : α → Prop} {Q : β → Prop} {r : Except Fault α}

theorem bind_ok (x : α) (f : α → Except Fault β) : (Except.ok x : Except Fault α).bind f = f x :=
  rfl

theorem bind_error (e : Fault) (f : α → Except Fault β) :
    (Except.error e : Except Fault α).bind f = .error e :=
  rfl

theorem writes_ok {x : α} (hx : P x) (h : len ≤ cap) : Writes cap len P (.ok x) :=
  ⟨fun _ _ => ⟨x, rfl, hx⟩, fun hlt _ => absurd h (by omega)⟩

theorem Writes.bind (h : Writes cap len P r) (hle : len ≤ len') {R : Except Fault β → Prop}
    {f : α → Except Fault β}
    (hf : ∀ x, P x → len ≤ cap → len < 2^16 → Ends cap len' R (f x)) :
    Ends cap len' R (r.bind f) := by
  constructor
  · intro h1 h2
    obtain ⟨x, rfl, hx⟩ := h.1 (by omega) (by omega)
    exact (hf x hx (by omega) (by omega)).1 h1 h2
  · intro h1 h2
    by_cases hlt : cap < len
    · rw [h.2 hlt h2]
      rfl
    · obtain ⟨x, rfl, hx⟩ := h.1 (by omega) (by omega)
      exact (hf x hx (by omega) (by omega)).2 h1 h2

theorem Writes.map (h : Writes cap len P r) {f : α → β} (hf : ∀ x, P x → Q (f x)) :
    Writes cap len Q (r.map f) := by
  constructor
  · intro h1 h2
    obtain ⟨x, rfl, hx⟩ := h.1 h1 h2
    exact ⟨f x, rfl, hf x hx⟩
  · intro h1 h2
    rw [h.2 h1 h2]
    rfl

theorem Writes.imp (h : Writes cap len P r) {P' : α → Prop} (hP : ∀ x, P x → P' x) :
    Writes cap len P' r := by
  constructor
  · intro h1 h2
    obtain ⟨x, hr, hx⟩ := h.1 h1 h2
    exact ⟨x, hr, hP x hx⟩
  · exact h.2

end Writes

section Array

variable {a : ZoneArray} {xs ys : List MemZone} {z : MemZone}

@[simp] theorem list_length (a : ZoneArray) : a.list.length = a.count := by
  simp [ZoneArray.list]

theorem zone_eq (h : a.list = xs++z::ys) : a.zone xs.length = z := by
  have hc : a.count = xs.length+(ys.length+1) := by
    rw [← list_length, h]
    simp
  have hk : a.list[xs.length]? = some (a.zone xs.length) := by
    simp [ZoneArray.list, hc]
  rw [h] at hk
  simpa using hk.symm

theorem list_update (h : a.list = xs++z::ys) (z' : MemZone) :
    (⟨Function.update a.zone xs.length z', a.count⟩ : ZoneArray).list = xs++z'::ys := by
  have hset : (⟨Function.update a.zone xs.length z', a.count⟩ : ZoneArray).list =
      a.list.set xs.length z' := by
    apply List.ext_getElem
    · simp
    · intro k h1 h2
      by_cases hx : k = xs.length
      · subst hx
        simp [ZoneArray.list]
      · simp [ZoneArray.list, Ne.symm hx, Function.update_of_ne hx]
  rw [hset, h]
  simp

theorem list_append (a : ZoneArray) (z : MemZone) :
    (⟨Function.update a.zone a.count z, a.count+1⟩ : ZoneArray).list = a.list++[z] := by
  simp only [ZoneArray.list, List.range_succ, List.map_append, List.map_cons, List.map_nil,
    Function.update_self]
  congr 1
  apply List.map_congr_left
  intro k hk
  have hne : k ≠ a.count := (List.mem_range.mp hk).ne
  rw [Function.update_of_ne hne]

theorem push_writes {cap : ℕ} (z : MemZone) (h : a.count ≤ cap) :
    Writes cap (a.count+1) (fun a' => a'.list = a.list++[z]) (a.push cap z) := by
  constructor
  · intro h1 h2
    refine ⟨_, ?_, list_append a z⟩
    rw [ZoneArray.push, if_pos (by omega), Nat.mod_eq_of_lt h2]
  · intro h1 h2
    rw [ZoneArray.push, if_neg (by omega)]

end Array

/-- What the traversal relies on: zones are page-aligned and do not wrap. -/
structure ZoneOk (z : MemZone) : Prop where
  aligned : z.mem%2^12 = 0
  bound : z.mem+z.pages*2^12 < 2^64

theorem zoneEnd_eq {z : MemZone} (h : ZoneOk z) : zoneEnd z = z.mem+z.pages*2^12 :=
  Nat.mod_eq_of_lt h.bound

def Inside (z : MemZone) (b : ℕ) : Prop := z.mem < b ∧ b < zoneEnd z

instance (z : MemZone) (b : ℕ) : Decidable (Inside z b) := inferInstanceAs (Decidable (_ ∧ _))

def leftOf (z : MemZone) (b : ℕ) : MemZone := ⟨z.mem, (b-z.mem)/2^12⟩

def rightOf (z : MemZone) (b : ℕ) : MemZone := ⟨b, z.pages-(b-z.mem)/2^12⟩

section Cut

variable {z : MemZone} {b : ℕ}

theorem leftOf_mem (z : MemZone) (b : ℕ) : (leftOf z b).mem = z.mem := rfl

theorem rightOf_mem (z : MemZone) (b : ℕ) : (rightOf z b).mem = b := rfl

theorem leftOf_end (hz : ZoneOk z) (hb : b%2^12 = 0) (h : Inside z b) :
    (leftOf z b).mem+(leftOf z b).pages*2^12 = b := by
  have h1 := h.1
  have h2 := hz.aligned
  simp only [leftOf]
  omega

theorem rightOf_end (hz : ZoneOk z) (hb : b%2^12 = 0) (h : Inside z b) :
    (rightOf z b).mem+(rightOf z b).pages*2^12 = z.mem+z.pages*2^12 := by
  have h1 := h.1
  have h2 := h.2
  have h3 := hz.aligned
  rw [zoneEnd_eq hz] at h2
  simp only [rightOf]
  omega

theorem leftOf_ok (hz : ZoneOk z) (hb : b%2^12 = 0) (h : Inside z b) : ZoneOk (leftOf z b) := by
  have h1 := leftOf_end hz hb h
  have h2 := h.2
  have h3 := hz.bound
  rw [zoneEnd_eq hz] at h2
  exact ⟨hz.aligned, by omega⟩

theorem rightOf_ok (hz : ZoneOk z) (hb : b%2^12 = 0) (h : Inside z b) : ZoneOk (rightOf z b) :=
  ⟨hb, by rw [rightOf_end hz hb h]; exact hz.bound⟩

/-- A byte of the zone lies in exactly one of the two parts. -/
theorem cut_holds (hz : ZoneOk z) (hb : b%2^12 = 0) (h : Inside z b) (a : ℕ) :
    (if ZoneHolds z a then 1 else 0) =
      (if ZoneHolds (leftOf z b) a then 1 else 0)+(if ZoneHolds (rightOf z b) a then 1 else 0) := by
  have h1 := leftOf_end hz hb h
  have h2 := rightOf_end hz hb h
  have h3 := h.1
  have h4 := h.2
  rw [zoneEnd_eq hz] at h4
  have hl : ZoneHolds (leftOf z b) a ↔ z.mem ≤ a ∧ a < b := by
    rw [ZoneHolds, h1]
    rfl
  have hr : ZoneHolds (rightOf z b) a ↔ b ≤ a ∧ a < z.mem+z.pages*2^12 := by
    rw [ZoneHolds, h2]
    rfl
  have hzh : ZoneHolds z a ↔ z.mem ≤ a ∧ a < z.mem+z.pages*2^12 := Iff.rfl
  simp only [hl, hr, hzh]
  by_cases h7 : a < b
  · have h8 : ¬ b ≤ a := by omega
    have h9 : (z.mem ≤ a ∧ a < z.mem+z.pages*2^12) ↔ z.mem ≤ a := by omega
    simp only [h7, h8, h9, and_true, false_and, if_false, add_zero]
  · have h8 : b ≤ a := by omega
    have h9 : (z.mem ≤ a ∧ a < z.mem+z.pages*2^12) ↔ a < z.mem+z.pages*2^12 := by omega
    simp only [h7, h8, h9, and_false, true_and, if_false, zero_add]

end Cut

theorem memBoundary_aligned (j : ℕ) : memBoundary j%2^12 = 0 := by
  unfold memBoundary managedMem
  omega

theorem memBoundary_lt {j k : ℕ} (h : j < k) : memBoundary j < memBoundary k := by
  unfold memBoundary managedMem
  omega

theorem memBoundary_le {j k : ℕ} (h : j ≤ k) : memBoundary j ≤ memBoundary k := by
  unfold memBoundary managedMem
  omega

def cuts (n : ℕ) (z : MemZone) : ℕ :=
  (List.range (n+1)).countP (fun j => Inside z (memBoundary j))

/-- The number of entries a zone of `freeZones` ends up as. -/
def pieces (n : ℕ) (z : MemZone) : ℕ := 1+cuts n z

def totalPieces (n : ℕ) (zones : List MemZone) : ℕ := (zones.map (pieces n)).sum

theorem length_le_totalPieces (n : ℕ) (zones : List MemZone) :
    zones.length ≤ totalPieces n zones := by
  induction zones with
  | nil => simp
  | cons z zones ih =>
    simp only [totalPieces, List.map_cons, List.sum_cons, List.length_cons, pieces] at ih ⊢
    omega

/-- The first boundary inside a zone, with the boundaries around it. -/
theorem first_cut {n : ℕ} {z : MemZone} (h : cuts n z ≠ 0) :
    ∃ js j ks, List.range (n+1) = js++j::ks ∧ Inside z (memBoundary j) ∧
      (∀ k ∈ js, ¬ Inside z (memBoundary k) ∧ k < j) ∧ (∀ k ∈ ks, j < k) := by
  obtain ⟨j₀, hm, hj₀⟩ := List.countP_pos_iff.mp (Nat.pos_of_ne_zero h)
  have hsome : ((List.range (n+1)).find? (fun j => Inside z (memBoundary j))).isSome := by
    rw [List.find?_isSome]
    exact ⟨j₀, hm, hj₀⟩
  obtain ⟨j, hj⟩ := Option.isSome_iff_exists.mp hsome
  obtain ⟨hin, js, ks, heq, hjs⟩ := List.find?_eq_some_iff_append.mp hj
  have hsort := List.pairwise_lt_range (n := n+1)
  rw [heq, List.pairwise_append, List.pairwise_cons] at hsort
  refine ⟨js, j, ks, heq, by simpa using hin, ?_, hsort.2.1.1⟩
  intro k hk
  exact ⟨by simpa using hjs k hk, hsort.2.2 k hk j (by simp)⟩

section Cuts

variable {n j : ℕ} {z : MemZone} {js ks : List ℕ}

theorem leftOf_inside_iff {b c : ℕ} (hz : ZoneOk z) (hb : b%2^12 = 0) (hin : Inside z b) :
    Inside (leftOf z b) c ↔ Inside z c ∧ c < b := by
  have h1 := hin.2
  rw [Inside, zoneEnd_eq (leftOf_ok hz hb hin), leftOf_end hz hb hin]
  simp only [leftOf, Inside]
  omega

theorem leftOf_cuts (hz : ZoneOk z) (hin : Inside z (memBoundary j))
    (heq : List.range (n+1) = js++j::ks)
    (hjs : ∀ k ∈ js, ¬ Inside z (memBoundary k) ∧ k < j) (hks : ∀ k ∈ ks, j < k) :
    cuts n (leftOf z (memBoundary j)) = 0 := by
  rw [cuts, List.countP_eq_zero]
  intro k hk
  rw [heq] at hk
  rw [decide_eq_true_iff, leftOf_inside_iff hz (memBoundary_aligned j) hin]
  rcases List.mem_append.mp hk with hk | hk
  · intro hbad
    exact (hjs k hk).1 hbad.1
  · intro hbad
    have hle : j ≤ k := by
      rcases List.mem_cons.mp hk with rfl | hk
      · exact le_rfl
      · exact (hks k hk).le
    have hmono := memBoundary_le hle
    have hlt := hbad.2
    omega

theorem rightOf_cuts (hz : ZoneOk z) (hin : Inside z (memBoundary j))
    (heq : List.range (n+1) = js++j::ks)
    (hjs : ∀ k ∈ js, ¬ Inside z (memBoundary k) ∧ k < j) (hks : ∀ k ∈ ks, j < k) :
    cuts n z = cuts n (rightOf z (memBoundary j))+1 := by
  have hright : ∀ k, Inside (rightOf z (memBoundary j)) (memBoundary k) ↔
      memBoundary j < memBoundary k ∧ memBoundary k < zoneEnd z := by
    intro k
    rw [Inside, zoneEnd_eq (rightOf_ok hz (memBoundary_aligned j) hin),
      rightOf_end hz (memBoundary_aligned j) hin, zoneEnd_eq hz]
    rfl
  have h1 : js.countP (fun k => Inside z (memBoundary k)) = 0 := by
    rw [List.countP_eq_zero]
    intro k hk
    simpa using (hjs k hk).1
  have h2 : js.countP (fun k => Inside (rightOf z (memBoundary j)) (memBoundary k)) = 0 := by
    rw [List.countP_eq_zero]
    intro k hk
    have := memBoundary_lt (hjs k hk).2
    simp only [decide_eq_true_eq, hright]
    omega
  have h3 : ks.countP (fun k => Inside z (memBoundary k)) =
      ks.countP (fun k => Inside (rightOf z (memBoundary j)) (memBoundary k)) := by
    apply List.countP_congr
    intro k hk
    have h4 := memBoundary_lt (hks k hk)
    have h5 := hin.1
    simp only [decide_eq_true_eq, hright]
    unfold Inside
    omega
  have h6 : ¬ Inside (rightOf z (memBoundary j)) (memBoundary j) := by
    rw [hright]
    omega
  simp only [cuts, heq, List.countP_append, List.countP_cons, h1, h2, h3, hin, h6, decide_true,
    decide_false, if_true]
  simp

end Cuts

section Pass

variable {cap n j : ℕ} {a : ZoneArray} {z : MemZone} {done rest : List MemZone}

theorem splitPass_none {js : List ℕ} (h : a.list = done++z::rest)
    (hjs : ∀ k ∈ js, ¬ Inside z (memBoundary k)) :
    splitPass cap done.length js a = .ok a := by
  induction js with
  | nil => rfl
  | cons k js ih =>
    have hk : ¬ Inside z (memBoundary k) := hjs k (by simp)
    have hstep : splitAtBoundary cap done.length a k = .ok a := by
      rw [splitAtBoundary, zone_eq h]
      exact if_neg hk
    rw [splitPass, hstep]
    exact ih (fun m hm => hjs m (by simp [hm]))

theorem splitPass_append (js ks : List ℕ) (i : ℕ) (a : ZoneArray) :
    splitPass cap i (js++ks) a = (splitPass cap i js a).bind (splitPass cap i ks) := by
  induction js generalizing a with
  | nil => rfl
  | cons k js ih =>
    rw [List.cons_append, splitPass, splitPass]
    cases splitAtBoundary cap i a k with
    | error e => rfl
    | ok a' => exact ih a'

/-- One pass cuts a zone at the first boundary inside it. -/
theorem splitPass_cut (cap : ℕ) {js ks : List ℕ} (h : a.list = done++z::rest) (hz : ZoneOk z)
    (hin : Inside z (memBoundary j)) (hjs : ∀ k ∈ js, ¬ Inside z (memBoundary k))
    (hks : ∀ k ∈ ks, j < k) (hc : a.count ≤ cap) :
    Writes cap (a.count+1)
      (fun a' => a'.list = done++leftOf z (memBoundary j)::(rest++[rightOf z (memBoundary j)]))
      (splitPass cap done.length (js++j::ks) a) := by
  have hcut : splitAtBoundary cap done.length a j =
      ZoneArray.push cap ⟨Function.update a.zone done.length (leftOf z (memBoundary j)), a.count⟩
        (rightOf z (memBoundary j)) := by
    rw [splitAtBoundary, zone_eq h]
    exact if_pos hin
  rw [splitPass_append, splitPass_none h hjs]
  show Writes cap (a.count+1) _ ((splitAtBoundary cap done.length a j).bind _)
  rw [hcut]
  have hpush := push_writes
    (a := ⟨Function.update a.zone done.length (leftOf z (memBoundary j)), a.count⟩)
    (rightOf z (memBoundary j)) hc
  refine hpush.bind le_rfl ?_
  intro a' ha' hcap _
  rw [list_update h, List.append_assoc, List.cons_append] at ha'
  rw [splitPass_none ha']
  · exact writes_ok ha' hcap
  · intro k hk hbad
    rw [leftOf_inside_iff hz (memBoundary_aligned j) hin] at hbad
    have hlt := memBoundary_lt (hks k hk)
    have hgt := hbad.2
    omega

end Pass

/-- What splitting at the first `n` boundaries makes of a list of zones. -/
structure Pieces (n : ℕ) (zones out : List MemZone) : Prop where
  count : ∀ a, out.countP (fun z => ZoneHolds z a) = zones.countP (fun z => ZoneHolds z a)
  whole : ∀ z ∈ out, ∀ j ≤ n, ¬ Inside z (memBoundary j)
  ok : ∀ z ∈ out, ZoneOk z
  origin : ∀ z ∈ out, ∃ z₀ ∈ zones, z₀.mem ≤ z.mem ∧
    z.mem+z.pages*2^12 ≤ z₀.mem+z₀.pages*2^12 ∧ (z.mem = z₀.mem ∨ ∃ j ≤ n, z.mem = memBoundary j)

section Pieces

variable {n j : ℕ} {z : MemZone} {rest out : List MemZone}

theorem Pieces.keep (hz : ZoneOk z) (hc : cuts n z = 0) (h : Pieces n rest out) :
    Pieces n (z::rest) (z::out) where
  count a := by rw [List.countP_cons, List.countP_cons, h.count]
  whole := by
    intro x hx k hk
    rcases List.mem_cons.mp hx with rfl | hx
    · have := List.countP_eq_zero.mp hc k (List.mem_range.mpr (by omega))
      simpa using this
    · exact h.whole x hx k hk
  ok := by
    intro x hx
    rcases List.mem_cons.mp hx with rfl | hx
    · exact hz
    · exact h.ok x hx
  origin := by
    intro x hx
    rcases List.mem_cons.mp hx with rfl | hx
    · exact ⟨x, by simp, le_rfl, le_rfl, Or.inl rfl⟩
    · obtain ⟨z₀, hm, hrest⟩ := h.origin x hx
      exact ⟨z₀, by simp [hm], hrest⟩

theorem Pieces.cut (hz : ZoneOk z) (hj : j ≤ n) (hin : Inside z (memBoundary j))
    (hc : cuts n (leftOf z (memBoundary j)) = 0)
    (h : Pieces n (rest++[rightOf z (memBoundary j)]) out) :
    Pieces n (z::rest) (leftOf z (memBoundary j)::out) where
  count a := by
    have hsum := cut_holds hz (memBoundary_aligned j) hin a
    rw [List.countP_cons, List.countP_cons, h.count, List.countP_append, List.countP_singleton]
    simp only [decide_eq_true_eq]
    omega
  whole := by
    intro x hx k hk
    rcases List.mem_cons.mp hx with rfl | hx
    · have := List.countP_eq_zero.mp hc k (List.mem_range.mpr (by omega))
      simpa using this
    · exact h.whole x hx k hk
  ok := by
    intro x hx
    rcases List.mem_cons.mp hx with rfl | hx
    · exact leftOf_ok hz (memBoundary_aligned j) hin
    · exact h.ok x hx
  origin := by
    intro x hx
    have hend := hin.2
    rw [zoneEnd_eq hz] at hend
    rcases List.mem_cons.mp hx with rfl | hx
    · rw [leftOf_end hz (memBoundary_aligned j) hin, leftOf_mem]
      exact ⟨z, by simp, le_rfl, hend.le, Or.inl rfl⟩
    · obtain ⟨z₀, hm, h1, h2, h3⟩ := h.origin x hx
      rcases List.mem_append.mp hm with hm | hm
      · exact ⟨z₀, by simp [hm], h1, h2, h3⟩
      · have heq := List.mem_singleton.mp hm
        subst heq
        rw [rightOf_end hz (memBoundary_aligned j) hin] at h2
        have hlt := hin.1
        rw [rightOf_mem] at h1 h3
        refine ⟨z, by simp, by omega, h2, Or.inr ?_⟩
        rcases h3 with h3 | h3
        · exact ⟨j, hj, h3⟩
        · exact h3

end Pieces

/-- The traversal of the growing array. -/
theorem splitZones_writes (cap : ℕ) {n : ℕ} (hn : n+1 < 2^16) (fuel : ℕ) (done todo : List MemZone)
    (a : ZoneArray) (h : a.list = done++todo) (hfuel : fuel+done.length = 2^16)
    (hz : ∀ z ∈ todo, ZoneOk z) (hc : a.count ≤ cap) (hw : a.count < 2^16) :
    Writes cap (done.length+totalPieces n todo)
      (fun a' => ∃ out, a'.list = done++out ∧ Pieces n todo out ∧ out.length = totalPieces n todo)
      (splitZones cap n fuel done.length a) := by
  have hlen : a.count = done.length+todo.length := by
    rw [← list_length, h, List.length_append]
  induction fuel generalizing done todo a with
  | zero => omega
  | succ fuel ih =>
    cases todo with
    | nil =>
      rw [splitZones, if_neg (by simp at hlen; omega)]
      refine writes_ok ⟨[], h, ⟨by simp, by simp, by simp, by simp⟩, rfl⟩ ?_
      simp [totalPieces] at hlen ⊢
      omega
    | cons z rest =>
      have hzz := hz z (by simp)
      have hlt : done.length < a.count := by
        simp at hlen
        omega
      have hzone : splitZone cap n done.length a =
          splitPass cap done.length (List.range (n+1)) a := by
        rw [splitZone, min_eq_left hn.le]
        cases splitPass cap done.length (List.range (n+1)) a with
        | error e => rfl
        | ok a' => exact if_neg (by omega)
      rw [splitZones, if_pos hlt, hzone]
      by_cases hcut : cuts n z = 0
      · -- No boundary lies inside: the pass changes nothing.
        have hpass : splitPass cap done.length (List.range (n+1)) a = .ok a := by
          apply splitPass_none h
          intro k hk
          simpa using List.countP_eq_zero.mp hcut k hk
        have hlen' : (done++[z]).length = done.length+1 := by simp
        have hnext := ih (done++[z]) rest a (by simpa using h) (by rw [hlen']; omega)
          (fun x hx => hz x (by simp [hx])) hc hw (by simp at hlen ⊢; omega)
        rw [hlen'] at hnext
        rw [hpass]
        have htotal : done.length+totalPieces n (z::rest) =
            done.length+1+totalPieces n rest := by
          simp [totalPieces, pieces, hcut]
          omega
        rw [htotal]
        refine hnext.imp ?_
        rintro a' ⟨out, ho, hP, hl⟩
        refine ⟨z::out, by simpa using ho, hP.keep hzz hcut, ?_⟩
        rw [List.length_cons, hl]
        omega
      · obtain ⟨js, j, ks, heq, hin, hjs, hks⟩ := first_cut hcut
        have hj : j ≤ n := by
          have : j ∈ List.range (n+1) := by rw [heq]; simp
          rw [List.mem_range] at this
          omega
        have hl := leftOf_cuts hzz hin heq hjs hks
        have hr := rightOf_cuts hzz hin heq hjs hks
        have htotal : done.length+totalPieces n (z::rest) =
            done.length+1+totalPieces n (rest++[rightOf z (memBoundary j)]) := by
          simp [totalPieces, pieces, hr]
          omega
        rw [heq, htotal]
        refine (splitPass_cut cap h hzz hin (fun k hk => (hjs k hk).1) hks hc).bind ?_ ?_
        · have hle := length_le_totalPieces n (rest++[rightOf z (memBoundary j)])
          simp only [List.length_cons, List.length_append, List.length_nil] at hlen hle
          omega
        intro a' ha' hcap hword
        have hcount : a'.count = a.count+1 := by
          rw [← list_length, ha', hlen]
          simp
          omega
        have hlen' : (done++[leftOf z (memBoundary j)]).length = done.length+1 := by simp
        have hnext := ih (done++[leftOf z (memBoundary j)])
          (rest++[rightOf z (memBoundary j)]) a' (by simpa using ha') (by rw [hlen']; omega)
          ?_ (by omega) (by omega) (by simp at hlen ⊢; omega)
        · rw [hlen'] at hnext
          refine hnext.imp ?_
          rintro b ⟨out, ho, hP, hout⟩
          refine ⟨leftOf z (memBoundary j)::out, by simpa using ho, hP.cut hzz hj hin hl, ?_⟩
          rw [List.length_cons, hout]
          omega
        · intro x hx
          rcases List.mem_append.mp hx with hx | hx
          · exact hz x (by simp [hx])
          · rw [List.mem_singleton.mp hx]
            exact rightOf_ok hzz (memBoundary_aligned j) hin

end BruhOS.PfaZones
