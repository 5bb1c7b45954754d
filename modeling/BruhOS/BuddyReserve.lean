import BruhOS.BuddySummaries

/-!
# Carving one block out

`reserveBlock` climbs from a block to the free node that covers it and splits that node along the
recorded path. A free block of the requested size itself is left on its list: the loop that takes
nodes off does not run. From the second pass on the loop unlinks the node once more. Its links
still fit the list, so nothing changes but the size, which is counted down again as long as other
blocks of that level are free.
-/

set_option autoImplicit false

namespace BruhOS.BuddyReserve
open BruhOS.LinkedRing BruhOS.BlockTree BruhOS.StdMath BruhOS.BuddyMachine BruhOS.BuddyLists
open BruhOS.BuddyOperations BruhOS.BuddyInit BruhOS.BuddyRuns BruhOS.BuddySafety
open BruhOS.BuddyRegions BruhOS.BuddySummaries

section Climb

/-- `c` is the node of level `l` above `o`. -/
structure OnPath (o l c : ℕ) : Prop where
  level_eq : level c = l
  under : Under c o

theorem OnPath.unique {o l c d : ℕ} (hc : OnPath o l c) (hd : OnPath o l d) : c = d :=
  under_unique hc.under hd.under (hc.level_eq.trans hd.level_eq.symm)

theorem OnPath.ne_zero {o l c : ℕ} (h : OnPath o (l+1) c) : c ≠ 0 := by
  rintro rfl
  have := (level_zero_iff 0).mpr rfl
  have := h.level_eq
  omega

theorem OnPath.parent {o l c : ℕ} (h : OnPath o (l+1) c) : OnPath o l ((c-1)/2) := by
  have hlev := level_parent c h.ne_zero
  have hc := h.level_eq
  exact ⟨by omega, under_trans (under_parent h.ne_zero) h.under⟩

theorem OnPath.of_under {o a : ℕ} (h : Under a o) : OnPath o (level a) a := ⟨rfl, h⟩

/-- The array holds the path from level `m` down to the block. -/
def Recorded (o m : ℕ) (indices : ℕ → ℕ) : Prop :=
  ∀ k, m ≤ k → k ≤ level o → OnPath o k (indices k)

/-- The climb stops at the lowest node above the block that is not used, or at the root. -/
theorem climbLoop_spec (s : BuddyAllocator) {o : ℕ} (ho : o < 2^32) (lvl c : ℕ) (indices : ℕ → ℕ)
    (hc : OnPath o lvl c) (hrec : Recorded o lvl indices) :
    ∃ m d path, climbLoop s lvl c indices = (m, d, path) ∧ m ≤ lvl ∧ OnPath o m d ∧
      Recorded o m path ∧ (∀ k x, m < k → k ≤ lvl → OnPath o k x → s.state x = 0) ∧
      (s.state d = 0 → m = 0) := by
  induction lvl generalizing c indices with
  | zero =>
    exact ⟨0, c, indices, rfl, le_rfl, hc, hrec, fun k x h1 h2 => by omega, fun _ => rfl⟩
  | succ lvl ih =>
    by_cases hused : s.state c = 0
    · have hp := hc.parent
      have hsmall : ((c-1)/2)%2^32 = (c-1)/2 := by
        have := under_le hp.under
        exact Nat.mod_eq_of_lt (by omega)
      have hrec' : Recorded o lvl (Function.update indices lvl (((c-1)/2)%2^32)) := by
        intro k h1 h2
        by_cases hk : k = lvl
        · subst hk
          rw [Function.update_self, hsmall]
          exact hp
        · rw [Function.update_of_ne hk]
          exact hrec k (by omega) h2
      obtain ⟨m, d, path, heq, hm, hd, hpath, hz, hstop⟩ := ih _ _ hp hrec'
      refine ⟨m, d, path, ?_, by omega, hd, hpath, ?_, hstop⟩
      · rw [climbLoop, if_pos hused]
        exact heq
      · intro k x h1 h2 hx
        obtain rfl | hk : k = lvl+1 ∨ k ≤ lvl := by omega
        · rw [hx.unique hc]
          exact hused
        · exact hz k x h1 hk hx
    · refine ⟨lvl+1, c, indices, ?_, le_rfl, hc, hrec, fun k x h1 h2 => by omega,
        fun h => absurd h hused⟩
      rw [climbLoop, if_neg hused]

end Climb

section Frame

variable {B : Build} {s t : BuddyAllocator} {F : ℕ → List ℕ} {l e : ℕ} {xs : List ℕ}

/-- The lists of the other levels, and the cells on them, are as they were. -/
structure Kept (B : Build) (l : ℕ) (s t : BuddyAllocator) : Prop where
  next : ∀ x, level x ≠ l → x ≠ B.head l → t.next x = s.next x
  prev : ∀ x, level x ≠ l → x ≠ B.head l → t.prev x = s.prev x
  state : ∀ x, level x ≠ l → t.state x = s.state x
  free : ∀ m, m ≠ l → t.free m = s.free m
  size : ∀ m, m ≠ l → t.size m = s.size m

theorem Kept.trans {u : BuddyAllocator} (h : Kept B l s t) (h' : Kept B l t u) : Kept B l s u where
  next x h1 h2 := (h'.next x h1 h2).trans (h.next x h1 h2)
  prev x h1 h2 := (h'.prev x h1 h2).trans (h.prev x h1 h2)
  state x h1 := (h'.state x h1).trans (h.state x h1)
  free m hm := (h'.free m hm).trans (h.free m hm)
  size m hm := (h'.size m hm).trans (h.size m hm)

theorem ring_ne (h : Links B s F) (hl : l ≤ B.depth) {x y : ℕ} (hx : level x ≠ l)
    (hh : x ≠ B.head l) (hy : y ∈ B.head l::F l) : x ≠ y := by
  rintro rfl
  rcases List.mem_cons.mp hy with hy | hy
  · exact hh hy
  · exact hx (h.level l hl x hy)

theorem push_kept (h : Lists B s F) (hl : l ≤ B.depth) (he : level e = l) (hn : e ∉ F l) :
    Kept B l s (pushEntry B s l e) := by
  have htail := h.tail_mem hl
  have hne : e ≠ s.free l := by
    rintro rfl
    rcases List.mem_cons.mp htail with hx | hx
    · exact (offset_lt_head B l (he.le.trans hl)).ne hx
    · exact hn hx
  have hnext : s.next (s.free l)%2^B.linkBits = B.head l := by
    rw [h.tail l hl, (linked_arrival _ _ _ _ _ (h.ring l hl)).1, head_fits B hl]
  have hoff : ∀ x, level x ≠ l → x ≠ e := fun x hx heq => hx (heq ▸ he)
  constructor
  · intro x hx hh
    rw [pushEntry_next, Function.update_of_ne (ring_ne h.toLinks hl hx hh htail),
      Function.update_of_ne (hoff x hx)]
  · intro x hx hh
    rw [pushEntry_prev hne, hnext, Function.update_of_ne hh, Function.update_of_ne (hoff x hx)]
  · intro x hx
    rw [pushEntry_state, Function.update_of_ne (hoff x hx)]
  · intro m hm
    rw [pushEntry_free, Function.update_of_ne hm]
  · intro m hm
    rw [pushEntry_size, Function.update_of_ne hm]

theorem pop_kept (hlog : Log2Contract B.log2ui) (h : Lists B s F) (hl : l ≤ B.depth)
    (hF : F l = xs++[e]) : Kept B l s (popEntry B s l).2 := by
  obtain ⟨hpm, hnm, hpe, -⟩ := h.toLinks.neighbours hl hF
  have hlev := h.level l hl e (by simp [hF])
  have hget : B.getLevel e = l := (getLevel_eq B hlog (hlev.le.trans hl)).trans hlev
  rw [popEntry_eq h hl hF]
  constructor
  · intro x hx hh
    rw [setFree_next, removeEntry_next, Function.update_of_ne (ring_ne h.toLinks hl hx hh hpm)]
  · intro x hx hh
    rw [setFree_prev, removeEntry_prev hpe, Function.update_of_ne (ring_ne h.toLinks hl hx hh hnm)]
  · intro x hx
    rw [setFree_state, removeEntry_state, Function.update_of_ne]
    rintro rfl
    exact hx hlev
  · intro m hm
    rw [setFree_free, Function.update_of_ne hm, removeEntry_free]
  · intro m hm
    rw [setFree_size, removeEntry_size, hget, Function.update_of_ne hm]

end Frame

section Size

variable {B : Build} {s : BuddyAllocator} {l m e : ℕ}

theorem setSize_same (v w : ℕ) : setSize (setSize s m v) m w = setSize s m w := by
  unfold setSize
  rw [Function.update_idem]

theorem setSize_self (h : s.size m < 2^32) : setSize s m (s.size m) = s := by
  unfold setSize
  rw [Nat.mod_eq_of_lt h, Function.update_eq_self]

theorem allocator_ext {t : BuddyAllocator} (h1 : s.start = t.start)
    (h2 : s.linkedmap = t.linkedmap) (h3 : s.free = t.free) (h4 : s.size = t.size) : s = t := by
  cases s
  cases t
  congr

/-- A push on one level does not look at the size of another. -/
theorem pushEntry_setSize (hne : l ≠ m) (v : ℕ) :
    pushEntry B (setSize s m v) l e = setSize (pushEntry B s l e) m v := by
  refine allocator_ext rfl rfl rfl ?_
  rw [setSize_size, pushEntry_size, pushEntry_size, setSize_size, Function.update_of_ne hne,
    Function.update_comm hne]

theorem removeEntry_setSize (hne : B.getLevel e ≠ m) (v : ℕ) :
    removeEntry B (setSize s m v) e = setSize (removeEntry B s e) m v := by
  refine allocator_ext rfl rfl rfl ?_
  rw [setSize_size, removeEntry_size, removeEntry_size, setSize_size, Function.update_of_ne hne,
    Function.update_comm hne]

theorem setFree_setSize (o v : ℕ) : setFree (setSize s m v) l o = setSize (setFree s l o) m v := rfl

theorem popEntry_setSize (hne : l ≠ m) (hget : B.getLevel (s.free l) ≠ m) (v : ℕ) :
    popEntry B (setSize s m v) l = ((popEntry B s l).1, setSize (popEntry B s l).2 m v) := by
  have hsize : (setSize s m v).size l = s.size l := by
    rw [setSize_size, Function.update_of_ne hne]
  rw [popEntry, popEntry, hsize]
  by_cases hz : s.size l = 0
  · rw [if_pos hz, if_pos hz]
  · have hremove := removeEntry_setSize (s := s) hget v
    have hfree : (setSize s m v).free = s.free := setSize_free s m v
    rw [if_neg hz, if_neg hz]
    simp only [hfree, hremove]
    generalize removeEntry B s (s.free l) = u
    rw [setSize_prev, setFree_setSize]

end Size

section Detached

variable {B : Build} {s t : BuddyAllocator} {F : ℕ → List ℕ} {l a : ℕ} {xs ys : List ℕ}

/-- A node that was unlinked from the list of its level, while the list is as it was then: its own
links still name the two neighbours that were joined. -/
structure Detached (B : Build) (s : BuddyAllocator) (a : ℕ) : Prop where
  bound : level a ≤ B.depth
  used : s.state a = USED
  forward : s.next (s.prev a) = s.next a
  backward : s.prev (s.next a) = s.prev a
  near_prev : s.prev a = B.head (level a) ∨ level (s.prev a) = level a
  near_next : s.next a = B.head (level a) ∨ level (s.next a) = level a
  tail : a ≠ s.free (level a)

/-- A cell of one level is not touched by an operation on another. -/
theorem off_level (ha : level a ≤ B.depth) (hl : l ≤ B.depth) (hne : level a ≠ l) {x : ℕ}
    (hx : x = B.head (level a) ∨ level x = level a) : level x ≠ l ∧ x ≠ B.head l := by
  rcases hx with rfl | hx
  · have hhead : ¬ level (B.head (level a)) ≤ B.depth := by
      intro hle
      exact absurd rfl (offset_lt_head B (level a) hle).ne
    refine ⟨by omega, ?_⟩
    unfold Build.head
    omega
  · exact ⟨by omega, (offset_lt_head B l (hx.le.trans ha)).ne⟩

theorem Detached.kept (h : Detached B s a) (hk : Kept B l s t) (hl : l ≤ B.depth)
    (hne : level a ≠ l) : Detached B t a := by
  obtain ⟨h1, h2⟩ := off_level h.bound hl hne (Or.inr rfl)
  obtain ⟨h3, h4⟩ := off_level h.bound hl hne h.near_prev
  obtain ⟨h5, h6⟩ := off_level h.bound hl hne h.near_next
  have hprev := hk.prev a h1 h2
  have hnext := hk.next a h1 h2
  constructor
  · exact h.bound
  · rw [hk.state a h1]
    exact h.used
  · rw [hprev, hnext, hk.next _ h3 h4]
    exact h.forward
  · rw [hprev, hnext, hk.prev _ h5 h6]
    exact h.backward
  · rw [hprev]
    exact h.near_prev
  · rw [hnext]
    exact h.near_next
  · rw [hk.free _ hne]
    exact h.tail

theorem Detached.resized (h : Detached B s a) (m v : ℕ) : Detached B (setSize s m v) a :=
  ⟨h.bound, h.used, h.forward, h.backward, h.near_prev, h.near_next, h.tail⟩

/-- Unlinking such a node once more changes the size of the level and nothing else. -/
theorem removeEntry_detached (hlog : Log2Contract B.log2ui) (h : Detached B s a) :
    removeEntry B s a = setSize s (level a) (s.size (level a)+(2^32-1)) := by
  have hfit : ∀ x, x = B.head (level a) ∨ level x = level a → x%2^B.linkBits = x := by
    rintro x (rfl | hx)
    · exact head_fits B h.bound
    · exact offset_fits B (hx.le.trans h.bound)
  have hstate : setState s a USED = s := by
    refine allocator_ext rfl ?_ rfl rfl
    rw [setState, ← h.used]
    exact Function.update_eq_self a s.linkedmap
  have hforward : setNext B s (s.prev a) (s.next a) = s := by
    refine allocator_ext rfl ?_ rfl rfl
    rw [setNext, hfit _ h.near_next, ← h.forward]
    exact Function.update_eq_self _ s.linkedmap
  have hbackward : setPrev B s (s.next a) (s.prev a) = s := by
    refine allocator_ext rfl ?_ rfl rfl
    rw [setPrev, hfit _ h.near_prev, ← h.backward]
    exact Function.update_eq_self _ s.linkedmap
  rw [removeEntry, hstate, hforward, hbackward, getLevel_eq B hlog h.bound]

/-- The removal at the start of a pass of the split loop. -/
def unlist (B : Build) (s : BuddyAllocator) (lvl a : ℕ) : BuddyAllocator :=
  if a = s.free lvl then (popEntry B s lvl).2
  else if 0 < s.size lvl then removeEntry B s a else s

theorem detached_of_links (h : Lists B s F) (hl : level a ≤ B.depth)
    (hF : F (level a) = xs++a::ys)
    (hnext : t.next = Function.update s.next (s.prev a) (s.next a%2^B.linkBits))
    (hprev : t.prev = Function.update s.prev (s.next a) (s.prev a%2^B.linkBits))
    (hstate : t.state = Function.update s.state a USED) (htail : a ≠ t.free (level a)) :
    Detached B t a := by
  obtain ⟨hpm, hnm, hpe, hne⟩ := h.toLinks.neighbours hl hF
  have hnear : ∀ x ∈ B.head (level a)::F (level a), x = B.head (level a) ∨ level x = level a := by
    intro x hx
    exact (List.mem_cons.mp hx).imp_right (h.level _ hl x)
  have hfit : ∀ x ∈ B.head (level a)::F (level a), x%2^B.linkBits = x := by
    intro x hx
    rcases hnear x hx with rfl | hlev
    · exact head_fits B hl
    · exact offset_fits B (hlev.le.trans hl)
  have hta : t.prev a = s.prev a := by rw [hprev, Function.update_of_ne hne.symm]
  have htn : t.next a = s.next a := by rw [hnext, Function.update_of_ne hpe.symm]
  constructor
  · exact hl
  · rw [hstate, Function.update_self]
  · rw [hta, htn, hnext, Function.update_self, hfit _ hnm]
  · rw [hta, htn, hprev, Function.update_self, hfit _ hpm]
  · rw [hta]
    exact hnear _ hpm
  · rw [htn]
    exact hnear _ hnm
  · exact htail

/-- The first removal takes the node off its list. -/
theorem unlist_free {A P : Set ℕ} (hlog : Log2Contract B.log2ui) (h : Inv B s A P)
    (ha : a ∈ freeNodes B s) :
    let t := unlist B s (level a) a
    t.start = s.start ∧ Inv B t A P ∧ owned B t A = insert a (owned B s A) ∧
      t.size (level a) = s.size (level a)-1 ∧ 0 < s.size (level a) ∧ Detached B t a := by
  intro t
  obtain ⟨F, hR⟩ := h.rep
  have hl : level a ≤ B.depth := ha.1
  obtain ⟨xs, ys, hF⟩ := List.append_of_mem (hR.mem_free_iff.mp ha).2
  obtain ⟨-, -, hpe, hne⟩ := hR.toLinks.neighbours hl hF
  have hcount := hR.size (level a) hl
  rw [hF, List.length_append, List.length_cons] at hcount
  have hsize : ∀ G, Rep B t G → G (level a) = xs++ys → t.size (level a) = s.size (level a)-1 := by
    intro G hG hGl
    rw [hG.size _ hl, hGl, List.length_append]
    omega
  cases ys with
  | nil =>
    have htail := (hR.last_of_size hl hF).1
    have ht : t = (popEntry B s (level a)).2 := if_pos htail.symm
    obtain ⟨-, hRep, hstart⟩ := hR.pop hlog hl hF
    obtain ⟨hinv, hown, -⟩ := take_inv hlog h hR hl hF
    rw [← ht] at hRep hstart hinv hown
    refine ⟨hstart, hinv, hown, hsize _ hRep (by simp), by omega, ?_⟩
    rw [ht, popEntry_eq hR.toLists hl hF]
    refine detached_of_links hR.toLists hl hF removeEntry_next (removeEntry_prev hpe)
      removeEntry_state ?_
    rw [setFree_free, Function.update_self, removeEntry_prev hpe, Function.update_of_ne hne.symm]
    exact hpe.symm
  | cons y ys =>
    have htail : a ≠ s.free (level a) := by
      have hmem := lastOf_mem y ys
      have hnd := hR.nodup _ hl
      rw [hR.tail _ hl, hF, lastOf_append_cons]
      rw [hF, List.nodup_append, List.nodup_cons] at hnd
      show a ≠ lastOf y ys
      intro heq
      exact hnd.2.1.1 (heq ▸ hmem)
    have ht : t = removeEntry B s a := by
      show unlist B s (level a) a = _
      rw [unlist, if_neg htail, if_pos (by omega)]
    have hRep := hR.remove hlog hl hF (List.cons_ne_nil y ys)
    obtain ⟨hinv, hown, -⟩ := h.take ⟨_, hRep⟩ freeNodes_remove ha
    rw [← ht] at hRep hinv hown
    refine ⟨by rw [ht, removeEntry_start], hinv, hown, hsize _ hRep (by simp), by omega, ?_⟩
    rw [ht]
    exact detached_of_links hR.toLists hl hF removeEntry_next (removeEntry_prev hpe)
      removeEntry_state (by rwa [removeEntry_free])

theorem unlist_detached (hlog : Log2Contract B.log2ui) (h : Detached B s a) {v : ℕ}
    (hv : v < 2^32) :
    unlist B (setSize s (level a) v) (level a) a =
      setSize s (level a) (v-1) := by
  have hsize : (setSize s (level a) v).size (level a) = v := by
    rw [setSize_size, Function.update_self, Nat.mod_eq_of_lt hv]
  rw [unlist, if_neg (h.resized (level a) v).tail, hsize]
  by_cases hpos : 0 < v
  · have hless : (v+(2^32-1))%2^32 = (v-1)%2^32 := by omega
    rw [if_pos hpos, removeEntry_detached hlog (h.resized _ v), hsize, setSize_same]
    unfold setSize
    rw [hless]
  · have hzero : v-1 = v := by omega
    rw [if_neg hpos, hzero]

end Detached

section Carve

variable {B : Build} {s t : BuddyAllocator} {A P : Set ℕ}

/-- The rest of a pass: both children are pushed and the one on the path is popped. -/
def descend (B : Build) (s : BuddyAllocator) (i c : ℕ) : ℕ × BuddyAllocator :=
  popEntry B (pushEntry B (pushEntry B s (i+1) (getBuddy c)) (i+1) c) (i+1)

theorem carveLoop_succ (lvl : ℕ) (indices : ℕ → ℕ) (n i b : ℕ) :
    carveLoop B lvl indices (n+1) i b s =
      carveLoop B lvl indices n (i+1) (descend B (unlist B s lvl (indices lvl)) i (indices (i+1))).1
        (descend B (unlist B s lvl (indices lvl)) i (indices (i+1))).2 := rfl

theorem descend_setSize (hlog : Log2Contract B.log2ui) {i c m : ℕ} (hc : level c = i+1)
    (hi : i < B.depth) (hm : i+1 ≠ m) (v : ℕ) :
    descend B (setSize s m v) i c = ((descend B s i c).1, setSize (descend B s i c).2 m v) := by
  have hget : B.getLevel c = i+1 := (getLevel_eq B hlog (by omega)).trans hc
  unfold descend
  rw [pushEntry_setSize hm, pushEntry_setSize hm, popEntry_setSize hm]
  rw [pushEntry_free, Function.update_self, hget]
  exact hm

theorem descend_spec (hlog : Log2Contract B.log2ui) (h : Inv B s A P) {b c : ℕ}
    (hb : b ∈ owned B s A) (hc : level c = level b+1) (hbc : (c-1)/2 = b)
    (hl : level b < B.depth) :
    (descend B s (level b) c).1 = c ∧ (descend B s (level b) c).2.start = s.start ∧
      Inv B (descend B s (level b) c).2 (splitAt A b) P ∧
      owned B (descend B s (level b) c).2 (splitAt A b) = insert c (owned B s A \ {b}) ∧
      Kept B (level b+1) s (descend B s (level b) c).2 := by
  have hcD : level c ≤ B.depth := by omega
  have hc0 : c ≠ 0 := by
    rintro rfl
    rw [(level_zero_iff 0).mpr rfl] at hc
    omega
  obtain ⟨hdlev, hdc⟩ := buddy_level hcD hc0
  have hcd := buddy_cases hcD hc0
  rw [hbc] at hcd
  obtain ⟨h1, h2, h3, h4⟩ := split_step hlog h hcd hb hl
  refine ⟨h1, h2, h3, h4, ?_⟩
  obtain ⟨F, hR⟩ := h.rep
  have hnew : c ∉ freeNodes B s ∧ getBuddy c ∉ freeNodes B s := by
    have hnot : ∀ x, Under b x → b < x → x ∉ freeNodes B s := fun x hu hx hm => by
      have := h.tiling.antichain b hb.1 x (h.free_subset hm) hu
      omega
    rcases hcd with ⟨e1, e2⟩ | ⟨e1, e2⟩ <;> rw [e2] <;> constructor
    · exact hnot c (e1 ▸ under_left b) (by omega)
    · exact hnot _ (under_right b) (by omega)
    · exact hnot c (e1 ▸ under_right b) (by omega)
    · exact hnot _ (under_left b) (by omega)
  have hd : level (getBuddy c) = level b+1 := hdlev.trans hc
  have hR1 := hR.push (l := level b+1) (by omega) hd hnew.2
  have hfree1 : c ∉ freeNodes B (pushEntry B s (level b+1) (getBuddy c)) := by
    rw [freeNodes_push (by omega)]
    rintro (hx | hx)
    · exact hdc hx.symm
    · exact hnew.1 hx
  have hR2 := hR1.push (l := level b+1) (by omega) hc hfree1
  have hmem : ∀ {u : BuddyAllocator} {G : ℕ → List ℕ} {x : ℕ}, Rep B u G →
      x ∉ freeNodes B u → x ∉ G (level b+1) := fun hG hx hm => hx (hG.free_of_mem (by omega) hm)
  have hk1 := push_kept hR.toLists (l := level b+1) (by omega) hd (hmem hR hnew.2)
  have hk2 := push_kept hR1.toLists (l := level b+1) (by omega) hc (hmem hR1 hfree1)
  have hk3 := pop_kept hlog hR2.toLists (l := level b+1) (by omega) (Function.update_self _ _ _)
  exact (hk1.trans hk2).trans hk3

/-- The passes behind the first: only the size of the level of the node goes on falling. -/
theorem carve_rest (hlog : Log2Contract B.log2ui) {o a : ℕ} {indices : ℕ → ℕ}
    (hrec : Recorded o (level a) indices) (ha : Under a o) (ho : level o ≤ B.depth) (n i b v : ℕ)
    (h : Inv B t A P) (hb : b ∈ owned B t A) (hbp : OnPath o i b) (hd : Detached B t a)
    (hai : level a < i) (hn : i+n = level o) (hv : v < 2^32) :
    ∃ u A', carveLoop B (level a) indices n i b (setSize t (level a) v) =
        (o, setSize u (level a) (v-n)) ∧ u.start = t.start ∧ Inv B u A' P ∧
      owned B u A' = insert o (owned B t A \ {b}) ∧ u.size (level a) = t.size (level a) := by
  induction n generalizing i b t A v with
  | zero =>
    have hbo : b = o := by
      have hlev : level b = level o := by
        have := hbp.level_eq
        omega
      exact under_eq_of_level hbp.under hlev.ge
    subst hbo
    refine ⟨t, A, rfl, rfl, h, ?_, rfl⟩
    rw [Set.insert_sdiff_singleton, Set.insert_eq_of_mem hb]
  | succ n ih =>
    have hilev := hbp.level_eq
    have hc := hrec (i+1) (by omega) (by omega)
    have hclev : level (indices (i+1)) = level b+1 := by rw [hc.level_eq, hilev]
    have hbc : (indices (i+1)-1)/2 = b := hc.parent.unique hbp
    have hal : indices (level a) = a :=
      (hrec (level a) le_rfl (by omega)).unique (OnPath.of_under ha)
    subst hilev
    obtain ⟨h1, h2, h3, h4, h5⟩ := descend_spec hlog h hb hclev hbc (by omega)
    have hd' := hd.kept h5 (by omega) (by omega)
    have hout : indices (level b+1) ∉ owned B t A := fun hm => by
      have hu := under_parent hc.ne_zero
      rw [hbc] at hu
      have := h.tiling.antichain b hb.1 _ hm.1 hu
      rw [← this] at hclev
      omega
    obtain ⟨u, A', hloop, hstart, hinv, hown, hsize⟩ := ih (level b+1)
      (indices (level b+1)) (v-1) h3 (by rw [h4]; exact Or.inl rfl) hc hd' (by omega) (by omega)
      (by omega)
    refine ⟨u, A', ?_, hstart.trans h2, hinv, ?_, ?_⟩
    · rw [carveLoop_succ, hal, unlist_detached hlog hd hv,
        descend_setSize hlog hclev (by omega) (by omega)]
      dsimp only
      rw [h1, hloop, Nat.sub_sub, Nat.add_comm 1 n]
    · rw [hown, h4, Set.insert_sdiff_of_mem _ (Set.mem_singleton _),
        Set.sdiff_singleton_eq_self (fun hx => hout hx.1)]
    · rw [hsize, h5.size _ (by omega)]

/-- A free node is split down to the block; the size of its level falls with every pass. -/
theorem carve_spec (hlog : Log2Contract B.log2ui) (h : Inv B s A P) {o a : ℕ} {indices : ℕ → ℕ}
    (hrec : Recorded o (level a) indices) (ha : a ∈ freeNodes B s) (hao : Under a o) (hne : a ≠ o)
    (ho : level o ≤ B.depth) :
    ∃ u A', carveLoop B (level a) indices (level o-level a) (level a) a s =
        (o, setSize u (level a) (s.size (level a)-(level o-level a))) ∧ u.start = s.start ∧
      Inv B u A' P ∧ owned B u A' = insert o (owned B s A) ∧
      u.size (level a) = s.size (level a)-1 ∧ 0 < s.size (level a) := by
  have hlt : level a < level o := by
    by_contra hge
    exact hne (under_eq_of_level hao (by omega))
  obtain ⟨n, hn⟩ : ∃ n, level o-level a = n+1 := ⟨level o-level a-1, by omega⟩
  have hal : indices (level a) = a :=
    (hrec (level a) le_rfl hlt.le).unique (OnPath.of_under hao)
  have hc := hrec (level a+1) (by omega) (by omega)
  have hbc : (indices (level a+1)-1)/2 = a := hc.parent.unique (OnPath.of_under hao)
  obtain ⟨h1, h2, h3, h4, hpos, h5⟩ := unlist_free hlog h ha
  generalize hs : unlist B s (level a) a = t at h1 h2 h3 h4 h5
  obtain ⟨h6, h7, h8, h9, h10⟩ := descend_spec hlog h2 (b := a)
    (by rw [h3]; exact Or.inl rfl) hc.level_eq hbc (by omega)
  have ha' : a ∉ owned B s A := fun hx => hx.2 ha
  have hsmall : s.size (level a) < 2^32 := by
    obtain ⟨F, hR⟩ := h.rep
    have := hR.length_le ha.1
    rw [hR.size _ ha.1]
    omega
  obtain ⟨u, A', hloop, hstart, hinv, hown, hsize⟩ := carve_rest hlog hrec hao ho n (level a+1)
    (indices (level a+1)) (s.size (level a)-1) h8 (by rw [h9]; exact Or.inl rfl) hc
    (h5.kept h10 (by omega) (by omega)) (by omega) (by omega) (by omega)
  have hsame : (descend B t (level a) (indices (level a+1))).2.size (level a) =
      s.size (level a)-1 := by
    rw [h10.size _ (by omega), h4]
  rw [← hsame, setSize_self (by omega), hsame] at hloop
  refine ⟨u, A', ?_, hstart.trans (h7.trans h1), hinv, ?_, hsize.trans hsame, hpos⟩
  · rw [hn, carveLoop_succ, hal, hs, h6, hloop, Nat.sub_sub, Nat.add_comm 1 n]
  · have hout : indices (level a+1) ∉ owned B s A := fun hm => by
      have hu := under_parent hc.ne_zero
      rw [hbc] at hu
      have heq := h.tiling.antichain a (h.free_subset ha) _ hm.1 hu
      exact ha' (heq ▸ hm)
    rw [hown, h9, h3, Set.insert_sdiff_of_mem _ (Set.mem_singleton _),
      Set.insert_sdiff_of_mem _ (Set.mem_singleton _),
      Set.sdiff_singleton_eq_self (fun hx => hout hx.1), Set.sdiff_singleton_eq_self ha']

end Carve

section Pages

variable {B : Build} {s : BuddyAllocator} {A P : Set ℕ}

theorem freePageSet_setSize (l v : ℕ) : freePageSet B (setSize s l v) = freePageSet B s := rfl

/-- The lists fit the tree only with the true size. -/
theorem freeLists_setSize_iff (h : Inv B s A P) {l v : ℕ} (hl : l ≤ B.depth) (hv : v < 2^32) :
    FreeLists B (setSize s l v) ↔ v = s.size l := by
  obtain ⟨ring, -, hnd, hmem, -, hsize⟩ := (freeLists_of_inv h).ring l hl
  constructor
  · intro hF
    obtain ⟨ring', -, hnd', hmem', -, hsize'⟩ := hF.ring l hl
    have hperm : ring'.Perm ring := by
      rw [List.perm_ext_iff_of_nodup hnd' hnd]
      intro o
      rw [hmem, hmem']
      rfl
    rw [setSize_size, Function.update_self, Nat.mod_eq_of_lt hv] at hsize'
    rw [hsize', hperm.length_eq, hsize]
  · rintro rfl
    rw [setSize_self hv]
    exact freeLists_of_inv h

end Pages

section Reserve

variable {B : Build} {s : BuddyAllocator} {A P : Set ℕ} {addr count o : ℕ}

/-- `o` is the aligned block of the requested size that contains the address. -/
structure Around (B : Build) (s : BuddyAllocator) (addr count o : ℕ) : Prop where
  bound : level o ≤ B.depth
  size : B.blockSize (level o) = round2 count*2^12
  holds : BlockHolds B (blockOf B s o) addr

/-- What the documentation promises: a free block is carved out alone, and where no free node
covers the block nothing changes. -/
structure CarvesOne (B : Build) (s : BuddyAllocator) (addr count o : ℕ) : Prop where
  taken : pages B.depth o ⊆ freePageSet B s →
    (reserveBlock B s addr count).1 = getAddress B s o ∧
    freePageSet B (reserveBlock B s addr count).2 = freePageSet B s \ pages B.depth o ∧
    FreeLists B (reserveBlock B s addr count).2
  missed : (∀ a ∈ freeNodes B s, ¬ Under a o) → (reserveBlock B s addr count).1 = 0 →
    (reserveBlock B s addr count).2 = s

/-- A free node that covers the block lies above it, and only one level above unless it is the
only free node of its level. -/
def Carvable (B : Build) (s : BuddyAllocator) (o : ℕ) : Prop :=
  ∀ a ∈ freeNodes B s, Under a o → a ≠ o ∧ (level a+1 = level o ∨ s.size (level a) = 1)

theorem admitted_of_le (h1 : 1 ≤ count) (h2 : count ≤ 2^16) (hd : 2^Nat.clog 2 count ≤ 2^B.depth) :
    Admitted B count ∧ pageCount count = round2 count := by
  obtain ⟨hp, hr, -⟩ := pageCount_of_le h1 h2
  refine ⟨?_, hp.trans hr.symm⟩
  have hpos : 0 < 2^Nat.clog 2 count := by positivity
  rintro (hbig | hzero) <;> omega

theorem reserveOffset_eq (hlog : Log2Contract B.log2ui) (hs : s.start < 2^64) (ha : addr < 2^64)
    (ho : level o ≤ B.depth) (h : BlockHolds B (blockOf B s o) addr) :
    reserveOffset B s addr (level o) = o := by
  have hb := (level_bounds o).1
  have hsmall := offset_small B ho
  have hfp := firstPage_lt ho
  have hreg := region_bytes B
  have hbs := blockSize_eq (B := B) ho
  have hoff : firstPage B.depth o*2^12 = (o+1-2^level o)*B.blockSize (level o) := by
    rw [firstPage, hbs, Nat.mul_assoc]
  obtain ⟨h1, h2⟩ := h
  rw [blockOf, getAddress_eq hlog ho] at h1 h2
  dsimp only at h1 h2
  generalize hsz : B.blockSize (level o) = size at h2 hbs hoff
  have hsub : ∃ r < size, (addr+(2^64-s.start))%2^64 = firstPage B.depth o*2^12+r := by
    refine ⟨addr-(s.start+firstPage B.depth o*2^12)%2^64, by omega, ?_⟩
    omega
  obtain ⟨r, hr, hsub⟩ := hsub
  have hpos : 0 < size := by omega
  rw [reserveOffset, hsub, hoff, hsz, Nat.mul_comm, Nat.mul_add_div hpos, Nat.div_eq_of_lt hr,
    levelStart]
  have hone : 0 < 2^level o := by positivity
  clear hsub h1 h2 hfp hreg hoff
  omega

theorem Around.level_eq (hlog : Log2Contract B.log2ui) (h1 : 1 ≤ count) (h2 : count ≤ 2^16)
    (hadm : Admitted B count) (hpc : pageCount count = round2 count)
    (h : Around B s addr count o) : level o = B.requestLevel count := by
  obtain ⟨hl, hpow⟩ := requestLevel_spec hlog (by omega) hadm
  have hbound := h.bound
  have hsize := h.size
  rw [blockSize_eq hbound, ← hpc, ← hpow] at hsize
  have := Nat.pow_right_injective (le_refl 2) (Nat.eq_of_mul_eq_mul_right (by decide) hsize)
  omega

/-- The offset computed from an address inside the region is the block around it. -/
theorem around_iff (hlog : Log2Contract B.log2ui) (hs : s.start < 2^64) (ha : addr < 2^64)
    (hin : s.start ≤ addr ∧ addr < s.start+2^B.depth*2^12) (h1 : 1 ≤ count)
    (h2 : count ≤ 2^16) (hd : count ≤ 2^B.depth) :
    Around B s addr count o ↔ o = reserveOffset B s addr (B.requestLevel count) := by
  have hclog : 2^Nat.clog 2 count ≤ 2^B.depth :=
    Nat.pow_le_pow_right (by decide) ((Nat.clog_le_iff_le_pow (by decide)).mpr hd)
  obtain ⟨hadm, hpc⟩ := admitted_of_le (B := B) h1 h2 hclog
  have hlev := fun h : Around B s addr count o => h.level_eq hlog h1 h2 hadm hpc
  obtain ⟨hl, hpow⟩ := requestLevel_spec hlog (by omega) hadm
  generalize B.requestLevel count = l at hl hpow hlev
  have hbs := blockSize_eq (B := B) hl
  rw [hpow, hpc] at hbs
  constructor
  · intro h
    rw [← hlev h]
    exact (reserveOffset_eq hlog hs ha h.bound h.holds).symm
  · have hpos : 0 < B.blockSize l := by
      rw [Build.blockSize]
      positivity
    have hregion : 2^l*B.blockSize l = 2^B.depth*2^12 := by
      rw [blockSize_eq hl, ← Nat.mul_assoc, ← pow_add, Nat.add_sub_of_le hl]
    have hidx : (addr-s.start)/B.blockSize l < 2^l := by
      rw [Nat.div_lt_iff_lt_mul hpos, hregion]
      omega
    have hle := Nat.div_mul_le_self (addr-s.start) (B.blockSize l)
    have hlt := Nat.lt_div_mul_add hpos (a := addr-s.start)
    have hsub : (addr+(2^64-s.start))%2^64 = addr-s.start := by omega
    have hsmall : 2^l ≤ 2^16 := Nat.pow_le_pow_right (by decide) (by have := B.depth_le; omega)
    have hone : 0 < 2^l := by positivity
    rw [reserveOffset, hsub, levelStart]
    generalize (addr-s.start)/B.blockSize l = idx at hidx hle hlt
    have hmod : (idx+(2^l-1))%2^64 = idx+(2^l-1) := Nat.mod_eq_of_lt (by omega)
    rintro rfl
    rw [hmod]
    have hlev : level (idx+(2^l-1)) = l := by
      rw [level_eq_iff, pow_succ]
      omega
    have hfirst : firstPage B.depth (idx+(2^l-1))*2^12 = idx*B.blockSize l := by
      have hi : idx+(2^l-1)+1-2^l = idx := by omega
      rw [firstPage, hlev, hi, blockSize_eq hl, Nat.mul_assoc]
    refine ⟨hlev.le.trans hl, by rw [hlev, hbs], ?_⟩
    rw [BlockHolds, blockOf, getAddress_eq hlog (hlev.le.trans hl), hfirst, hlev]
    dsimp only
    omega

/-- The climb ends at the free node that covers the block, if there is one. -/
theorem climb_covered (h : Inv B s A P) (ho : level o ≤ B.depth) {a : ℕ} (ha : a ∈ freeNodes B s)
    (hao : Under a o) {indices : ℕ → ℕ} (hrec : Recorded o (level o) indices) :
    ∃ path, climbLoop s (level o) o indices = (level a, a, path) ∧ Recorded o (level a) path := by
  obtain ⟨F, hR⟩ := h.rep
  have hsmall := offset_small B ho
  obtain ⟨m, d, path, heq, hm, hd, hpath, hz, hstop⟩ := climbLoop_spec s (o := o) (by omega)
    (level o) o indices (OnPath.of_under (under_refl o)) hrec
  have hfree : s.state a ≠ 0 := by
    rw [ha.2]
    decide
  have hle := under_level hao
  have hma : level a ≤ m := by
    by_contra hgt
    exact hfree (hz (level a) a (by omega) hle (OnPath.of_under hao))
  have hda : d = a := by
    by_cases hused : s.state d = 0
    · have hm0 := hstop hused
      have hlev := hd.level_eq
      exact hd.unique ⟨by omega, hao⟩
    · have hdlev := hd.level_eq
      have hdf : d ∈ freeNodes B s :=
        (hR.state_ne_zero_iff (by omega)).mp (bne_iff_ne.mpr hused)
      rcases under_comparable hd.under hao with hu | hu
      · exact h.tiling.antichain d (h.free_subset hdf) a (h.free_subset ha) hu
      · exact (h.tiling.antichain a (h.free_subset ha) d (h.free_subset hdf) hu).symm
  subst hda
  rw [← hd.level_eq] at heq hpath
  exact ⟨path, heq, hpath⟩

theorem climb_uncovered (ho : level o ≤ B.depth) (hnone : ∀ a ∈ freeNodes B s, ¬ Under a o)
    (hR : ∃ F, Rep B s F) {indices : ℕ → ℕ} (hrec : Recorded o (level o) indices) :
    ∃ m d path, climbLoop s (level o) o indices = (m, d, path) ∧ s.state d = 0 := by
  obtain ⟨F, hR⟩ := hR
  have hsmall := offset_small B ho
  obtain ⟨m, d, path, heq, hm, hd, -, -, -⟩ := climbLoop_spec s (o := o) (by omega)
    (level o) o indices (OnPath.of_under (under_refl o)) hrec
  refine ⟨m, d, path, heq, ?_⟩
  by_contra hfree
  have hlev := hd.level_eq
  exact hnone d ((hR.state_ne_zero_iff (by omega)).mp (bne_iff_ne.mpr hfree)) hd.under

/-- A free block lies in one free node. -/
theorem covered_of_free (h : Inv B s A P) (ho : level o ≤ B.depth)
    (hfree : pages B.depth o ⊆ freePageSet B s) : ∃ a ∈ freeNodes B s, Under a o :=
  (h.tiling.part h.free_subset).block_in_tile h.twinFree o ho hfree

theorem free_of_covered {a : ℕ} (ha : a ∈ freeNodes B s) (hao : Under a o) :
    pages B.depth o ⊆ freePageSet B s :=
  fun _ hp => ⟨a, ha, pages_mono hao hp⟩

/-- The call, once its request has led to the block. -/
theorem reserveBlock_eq (hadm : Admitted B count) (hlev : level o = B.requestLevel count)
    (hoff : reserveOffset B s addr (level o) = o) (ho : level o ≤ B.depth) :
    ∃ indices, Recorded o (level o) indices ∧ reserveBlock B s addr count =
      let r := climbLoop s (level o) o indices
      if s.state r.2.1 = 0 then (0, s)
      else
        let c := carveLoop B r.1 r.2.2 (level o-r.1) r.1 r.2.1 s
        (getAddress B c.2 c.1, c.2) := by
  have hsmall := offset_small B ho
  refine ⟨Function.update (fun _ => 0) (level o) (o%2^32), ?_, ?_⟩
  · intro k h1 h2
    obtain rfl : k = level o := by omega
    rw [Function.update_self, Nat.mod_eq_of_lt (by omega)]
    exact OnPath.of_under (under_refl o)
  · rw [reserveBlock, if_neg hadm]
    dsimp only
    rw [← hlev, hoff]

theorem carvesOne_iff (hlog : Log2Contract B.log2ui) (h : Inv B s A P) (hs : s.start < 2^64)
    (ha : addr < 2^64) (h1 : 1 ≤ count) (h2 : count ≤ 2^16) (hd : count ≤ 2^B.depth)
    (ho : Around B s addr count o) : CarvesOne B s addr count o ↔ Carvable B s o := by
  have hclog : 2^Nat.clog 2 count ≤ 2^B.depth :=
    Nat.pow_le_pow_right (by decide) ((Nat.clog_le_iff_le_pow (by decide)).mpr hd)
  obtain ⟨hadm, hpc⟩ := admitted_of_le (B := B) h1 h2 hclog
  obtain ⟨indices, hrec, heq⟩ := reserveBlock_eq hadm (ho.level_eq hlog h1 h2 hadm hpc)
    (reserveOffset_eq hlog hs ha ho.bound ho.holds) ho.bound
  by_cases hcov : ∃ a ∈ freeNodes B s, Under a o
  · obtain ⟨a, haf, hao⟩ := hcov
    obtain ⟨path, hclimb, hpath⟩ := climb_covered h ho.bound haf hao hrec
    have hfree := free_of_covered (B := B) haf hao
    have hstate : s.state a ≠ 0 := by
      rw [haf.2]
      decide
    have honly : Carvable B s o ↔ a ≠ o ∧ (level a+1 = level o ∨ s.size (level a) = 1) := by
      refine ⟨fun hc => hc a haf hao, fun hc b hb hbo => ?_⟩
      have hba : b = a := by
        rcases under_comparable hbo hao with hu | hu
        · exact h.tiling.antichain b (h.free_subset hb) a (h.free_subset haf) hu
        · exact (h.tiling.antichain a (h.free_subset haf) b (h.free_subset hb) hu).symm
      rw [hba]
      exact hc
    rw [hclimb] at heq
    simp only [if_neg hstate] at heq
    rw [honly]
    by_cases hne : a = o
    · -- The loop does not run: the block keeps its place among the free ones.
      subst hne
      rw [Nat.sub_self, carveLoop] at heq
      refine ⟨fun hc => ?_, fun hc => absurd rfl hc.1⟩
      have hpages := (hc.taken hfree).2.1
      rw [heq] at hpages
      have hfirst := firstPage_mem B.depth a ho.bound
      have hstill := hfree hfirst
      rw [hpages] at hstill
      exact absurd hfirst hstill.2
    · obtain ⟨u, A', hcarve, hstart, hinv, hown, hsize, hpos⟩ :=
        carve_spec hlog h hpath haf hao hne ho.bound
      have hlt : level a < level o := by
        by_contra hge
        exact hne (under_eq_of_level hao (by omega))
      have hsmall : s.size (level a)-(level o-level a) < 2^32 := by
        obtain ⟨F, hR⟩ := h.rep
        have := hR.length_le haf.1
        rw [hR.size _ haf.1]
        omega
      rw [hcarve] at heq
      dsimp only at heq
      have hlists := freeLists_setSize_iff hinv haf.1 hsmall
      rw [hsize] at hlists
      constructor
      · intro hc
        have hF := (hc.taken hfree).2.2
        rw [heq, hlists] at hF
        exact ⟨hne, by omega⟩
      · rintro ⟨-, hone⟩
        refine ⟨fun _ => ?_, fun hnone => absurd hao (hnone a haf)⟩
        rw [heq]
        refine ⟨getAddress_start o hstart, ?_, hlists.mpr (by omega)⟩
        rw [freePageSet_setSize]
        exact freePages_taken h hinv hown
  · have hnone : ∀ a ∈ freeNodes B s, ¬ Under a o := fun a haf hao => hcov ⟨a, haf, hao⟩
    obtain ⟨m, d, path, hclimb, hstate⟩ := climb_uncovered ho.bound hnone h.rep hrec
    rw [hclimb] at heq
    simp only [if_pos hstate] at heq
    refine ⟨fun _ a haf hao => absurd hao (hnone a haf), fun _ => ⟨fun hfree => ?_, fun _ _ => ?_⟩⟩
    · exact absurd (covered_of_free h ho.bound hfree) hcov
    · rw [heq]

end Reserve

/-- In every state that the allocator reaches, for every address in its region: the block around
the address is carved out alone if and only if the free node that covers it lies above it, and is
either one level above or the only free node of its level. -/
theorem reserve_carves_iff (log2ui : ℕ → ℕ) (hlog : Log2Contract log2ui) (s : BuddyAllocator)
    (w : Session) (hs : Initial (buddy log2ui) (fun _ => True) s)
    (hw : Reachable (buddy log2ui) ⟨s, []⟩ w) (addr count : ℕ) (haddr : addr < 2^64)
    (hin : w.mman.start ≤ addr ∧ addr < w.mman.start+2^28) (h1 : 1 ≤ count) (h2 : count ≤ 65536) :
    ∃ o, (∀ b, Around (buddy log2ui) w.mman addr count b ↔ b = o) ∧
      (CarvesOne (buddy log2ui) w.mman addr count o ↔ Carvable (buddy log2ui) w.mman o) := by
  obtain ⟨start, P, A, hstart, hA⟩ := initial_inv hlog (fun s _ => blank_buddy log2ui s) hs
  obtain ⟨A', hA'⟩ := reachable_inv hlog hstart ⟨A, hA⟩ hw
  have hword : w.mman.start < 2^64 := by
    rw [hA'.start]
    exact hstart
  have hdepth : (buddy log2ui).depth = 16 := rfl
  have hd : count ≤ 2^(buddy log2ui).depth := by
    rw [hdepth]
    omega
  have hregion : addr < w.mman.start+2^(buddy log2ui).depth*2^12 := by
    rw [hdepth]
    omega
  have haround := fun b => around_iff (B := buddy log2ui) (o := b) hlog hword haddr
    ⟨hin.1, hregion⟩ h1 (by omega) hd
  exact ⟨_, haround, carvesOne_iff hlog hA'.inv hword haddr h1 (by omega) hd
    ((haround _).mpr rfl)⟩

theorem whole_carvable (log2ui : ℕ → ℕ) (s : BuddyAllocator) (start : ℕ) {o : ℕ} (ho : o ≠ 0) :
    Carvable (buddy log2ui) (buddyAllocInit (buddy log2ui) s start) o := by
  have hblank := blank_buddy log2ui s
  have h0 : level 0 = 0 := (level_zero_iff 0).mpr rfl
  have hsize := (init_rep s start hblank).1.size 0 (Nat.zero_le _)
  intro a ha _
  have ha0 : a = 0 := (init_inv s start hblank).1.free_subset ha
  subst ha0
  rw [h0, hsize, Function.update_self]
  exact ⟨ho.symm, Or.inr rfl⟩

/-- The first page of a region that is free as a whole, at 256 MiB. -/
theorem reserve_carves_page :
    ∃ o, Around (buddy Nat.log2) (buddyAllocInit (buddy Nat.log2) zeroMemory 0x10000000)
        0x10000000 1 o ∧
      CarvesOne (buddy Nat.log2) (buddyAllocInit (buddy Nat.log2) zeroMemory 0x10000000)
        0x10000000 1 o := by
  have hstart := (init_rep zeroMemory 0x10000000 (blank_buddy Nat.log2 zeroMemory)).2
  have hinitial : Initial (buddy Nat.log2) (fun _ => True)
      (buddyAllocInit (buddy Nat.log2) zeroMemory 0x10000000) := .whole trivial (by decide)
  obtain ⟨o, haround, hiff⟩ := reserve_carves_iff Nat.log2 log2_contract _ _ hinitial .start
    0x10000000 1 (by decide) (by rw [hstart]; decide) (by decide) (by decide)
  have ho := (haround o).mpr rfl
  refine ⟨o, ho, hiff.mpr (whole_carvable _ _ _ ?_)⟩
  rintro rfl
  have hsize := ho.size
  rw [(level_zero_iff 0).mpr rfl] at hsize
  exact absurd hsize (by decide)

/-- The whole of that region: it is returned, and stays free. -/
theorem reserve_leaves_free :
    ∃ o, Around (buddy Nat.log2) (buddyAllocInit (buddy Nat.log2) zeroMemory 0x10000000)
        0x10000000 65536 o ∧
      ¬ CarvesOne (buddy Nat.log2) (buddyAllocInit (buddy Nat.log2) zeroMemory 0x10000000)
        0x10000000 65536 o := by
  obtain ⟨hR, hstart⟩ := init_rep zeroMemory 0x10000000 (blank_buddy Nat.log2 zeroMemory)
  have hinv := (init_inv zeroMemory 0x10000000 (blank_buddy Nat.log2 zeroMemory)).1
  have h0 : level 0 = 0 := (level_zero_iff 0).mpr rfl
  have hbytes : (buddy Nat.log2).blockSize 0 = 2^28 := rfl
  have hround : round2 65536 = 65536 := by decide
  have haround : Around (buddy Nat.log2)
      (buddyAllocInit (buddy Nat.log2) zeroMemory 0x10000000) 0x10000000 65536 0 := by
    refine ⟨by rw [h0]; exact Nat.zero_le _, by rw [h0, hbytes, hround]; decide, ?_⟩
    have hfirst : firstPage (buddy Nat.log2).depth 0 = 0 := by rw [firstPage, h0]; rfl
    rw [BlockHolds, blockOf, getAddress_eq log2_contract (by rw [h0]; exact Nat.zero_le _), hstart,
      hfirst, h0, hbytes]
    decide
  refine ⟨0, haround, ?_⟩
  rw [carvesOne_iff log2_contract hinv (by rw [hstart]; decide) (by decide) (by decide) (by decide)
    (by decide) haround]
  intro hc
  have hfree := hR.free_of_mem (l := 0) (o := 0) (Nat.zero_le _) (by simp)
  exact (hc 0 hfree (under_refl 0)).1 rfl


end BruhOS.BuddyReserve
