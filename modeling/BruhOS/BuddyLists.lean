import BruhOS.LinkedRing
import BruhOS.BuddyMachine

/-!
# The free lists behind the link fields

`Links` reads the ring of each level out of the offset addressed store and
`Lists` adds the tail pointers. The primitives of the allocator are described
once, by what they do to the lists and to the state fields; the algorithms
above them never look at a link again. `remove_entry` leaves the tail pointer
alone, which is why the tail is a separate condition.
-/

set_option autoImplicit false

namespace BruhOS.BuddyLists
open BruhOS.LinkedRing BruhOS.BlockTree BruhOS.StdMath BruhOS.BuddyMachine

section Fields

variable (B : Build) (s : BuddyAllocator) (o v l : ℕ) (b : BlockState)

@[simp] theorem setState_next : (setState s o b).next = s.next := by
  funext i
  by_cases h : i = o <;> simp [setState, BuddyAllocator.next, h]

@[simp] theorem setState_prev : (setState s o b).prev = s.prev := by
  funext i
  by_cases h : i = o <;> simp [setState, BuddyAllocator.prev, h]

@[simp] theorem setState_state : (setState s o b).state = Function.update s.state o b := by
  funext i
  by_cases h : i = o <;> simp [setState, BuddyAllocator.state, h]

@[simp] theorem setNext_next :
    (setNext B s o v).next = Function.update s.next o (v%2^B.linkBits) := by
  funext i
  by_cases h : i = o <;> simp [setNext, BuddyAllocator.next, h]

@[simp] theorem setNext_prev : (setNext B s o v).prev = s.prev := by
  funext i
  by_cases h : i = o <;> simp [setNext, BuddyAllocator.prev, h]

@[simp] theorem setNext_state : (setNext B s o v).state = s.state := by
  funext i
  by_cases h : i = o <;> simp [setNext, BuddyAllocator.state, h]

@[simp] theorem setPrev_next : (setPrev B s o v).next = s.next := by
  funext i
  by_cases h : i = o <;> simp [setPrev, BuddyAllocator.next, h]

@[simp] theorem setPrev_prev :
    (setPrev B s o v).prev = Function.update s.prev o (v%2^B.linkBits) := by
  funext i
  by_cases h : i = o <;> simp [setPrev, BuddyAllocator.prev, h]

@[simp] theorem setPrev_state : (setPrev B s o v).state = s.state := by
  funext i
  by_cases h : i = o <;> simp [setPrev, BuddyAllocator.state, h]

@[simp] theorem setFree_next : (setFree s l o).next = s.next := rfl
@[simp] theorem setFree_prev : (setFree s l o).prev = s.prev := rfl
@[simp] theorem setFree_state : (setFree s l o).state = s.state := rfl
@[simp] theorem setSize_next : (setSize s l v).next = s.next := rfl
@[simp] theorem setSize_prev : (setSize s l v).prev = s.prev := rfl
@[simp] theorem setSize_state : (setSize s l v).state = s.state := rfl
@[simp] theorem setState_free : (setState s o b).free = s.free := rfl
@[simp] theorem setNext_free : (setNext B s o v).free = s.free := rfl
@[simp] theorem setPrev_free : (setPrev B s o v).free = s.free := rfl
@[simp] theorem setSize_free : (setSize s l v).free = s.free := rfl
@[simp] theorem setFree_free : (setFree s l o).free = Function.update s.free l o := rfl
@[simp] theorem setState_size : (setState s o b).size = s.size := rfl
@[simp] theorem setNext_size : (setNext B s o v).size = s.size := rfl
@[simp] theorem setPrev_size : (setPrev B s o v).size = s.size := rfl
@[simp] theorem setFree_size : (setFree s l o).size = s.size := rfl
@[simp] theorem setSize_size : (setSize s l v).size = Function.update s.size l (v%2^32) := rfl
@[simp] theorem setState_start : (setState s o b).start = s.start := rfl
@[simp] theorem setNext_start : (setNext B s o v).start = s.start := rfl
@[simp] theorem setPrev_start : (setPrev B s o v).start = s.start := rfl
@[simp] theorem setFree_start : (setFree s l o).start = s.start := rfl
@[simp] theorem setSize_start : (setSize s l v).start = s.start := rfl

end Fields

section Offsets

variable (B : Build)

theorem offset_lt_head {o : ℕ} (l : ℕ) (ho : level o ≤ B.depth) : o < B.head l := by
  have h1 := (lt_nodes_iff B.depth o).mpr ho
  have h2 := B.tree_fits
  unfold Build.head
  omega

theorem offset_fits {o : ℕ} (ho : level o ≤ B.depth) : o%2^B.linkBits = o := by
  apply Nat.mod_eq_of_lt
  have h1 := offset_lt_head B 0 ho
  have h2 := B.links_fit
  unfold Build.head at h1
  omega

theorem head_fits {l : ℕ} (hl : l ≤ B.depth) : B.head l%2^B.linkBits = B.head l := by
  apply Nat.mod_eq_of_lt
  have h2 := B.links_fit
  unfold Build.head
  omega

theorem nodes_le (B : Build) : nodes B.depth < 2^17 := by
  have h : 2^(B.depth+1) ≤ 2^17 := Nat.pow_le_pow_right (by decide) (by have := B.depth_le; omega)
  have hp : 0 < 2^(B.depth+1) := by positivity
  unfold nodes
  omega

theorem offset_small {o : ℕ} (ho : level o ≤ B.depth) : o < 2^17 :=
  ((lt_nodes_iff B.depth o).mpr ho).trans (nodes_le B)

theorem getLevel_eq (hlog : Log2Contract B.log2ui) {o : ℕ} (ho : level o ≤ B.depth) :
    B.getLevel o = level o := by
  have hs := offset_small B ho
  have hd := B.depth_le
  have harg : (1+o)%2^32 = o+1 := by omega
  rw [Build.getLevel, harg, hlog (o+1) (by omega) (by omega)]
  exact Nat.mod_eq_of_lt (by unfold level at ho; omega)

end Offsets

/-- `F l` is the list of offsets on the ring of level `l`. -/
structure Links (B : Build) (s : BuddyAllocator) (F : ℕ → List ℕ) : Prop where
  ring : ∀ l ≤ B.depth, Linked s.next s.prev (B.head l) (F l) (B.head l)
  nodup : ∀ l ≤ B.depth, (F l).Nodup
  level : ∀ l ≤ B.depth, ∀ o ∈ F l, level o = l
  size : ∀ l ≤ B.depth, s.size l = (F l).length

structure Lists (B : Build) (s : BuddyAllocator) (F : ℕ → List ℕ) : Prop
    extends Links B s F where
  tail : ∀ l ≤ B.depth, s.free l = lastOf (B.head l) (F l)

section Rings

variable {B : Build} {s : BuddyAllocator} {F : ℕ → List ℕ}

theorem Links.ring_nodup (h : Links B s F) {l : ℕ} (hl : l ≤ B.depth) :
    (B.head l::F l).Nodup := by
  rw [List.nodup_cons]
  refine ⟨fun hm => ?_, h.nodup l hl⟩
  have hlev := h.level l hl _ hm
  have := offset_lt_head B (o := B.head l) l (by omega)
  omega

/-- The rings of different levels have no address in common. -/
theorem Links.rings_disjoint (h : Links B s F) {l m x y : ℕ} (hl : l ≤ B.depth)
    (hm : m ≤ B.depth) (hne : l ≠ m) (hx : x ∈ B.head l::F l) (hy : y ∈ B.head m::F m) :
    x ≠ y := by
  rintro rfl
  rcases List.mem_cons.mp hx with rfl | hx <;> rcases List.mem_cons.mp hy with hy | hy
  · unfold Build.head at hy
    omega
  · have := offset_lt_head B l ((h.level m hm _ hy).le.trans hm)
    omega
  · have := offset_lt_head B m ((h.level l hl _ hx).le.trans hl)
    omega
  · exact hne ((h.level l hl x hx).symm.trans (h.level m hm x hy))

theorem Links.length_le (h : Links B s F) {l : ℕ} (hl : l ≤ B.depth) :
    (F l).length ≤ 2^16 := by
  have hsub : (F l).toFinset ⊆ Finset.Ico (2^l-1) (2^(l+1)-1) := by
    intro o ho
    have hlev := (level_eq_iff o l).mp (h.level l hl o (List.mem_toFinset.mp ho))
    rw [Finset.mem_Ico]
    omega
  have hcard := Finset.card_le_card hsub
  rw [List.toFinset_card_of_nodup (h.nodup l hl), Nat.card_Ico] at hcard
  have hd := B.depth_le
  have hpow : 2^l ≤ 2^16 := Nat.pow_le_pow_right (by decide) (by omega)
  have hpos : 0 < 2^l := by positivity
  rw [pow_succ] at hcard
  omega

/-- The lists when the ring of one level is another one and those of the others are untouched. -/
theorem Links.replace (h : Links B s F) {t : BuddyAllocator} {l : ℕ} {xs : List ℕ}
    (hring : Linked t.next t.prev (B.head l) xs (B.head l)) (hnodup : xs.Nodup)
    (hlevel : ∀ o ∈ xs, BlockTree.level o = l)
    (hsize : t.size = Function.update s.size l xs.length)
    (hother : ∀ m ≤ B.depth, m ≠ l → ∀ x ∈ B.head m::F m,
      t.next x = s.next x ∧ t.prev x = s.prev x) : Links B t (Function.update F l xs) := by
  refine ⟨?_, ?_, ?_, ?_⟩
  · intro m hm
    by_cases hml : m = l
    · rw [hml, Function.update_self]
      exact hring
    · rw [Function.update_of_ne hml]
      refine linked_congr s.next s.prev _ _ _ _ _ ?_ ?_ (h.ring m hm)
      · exact fun x hx => (hother m hm hml x hx).1
      · exact fun x hx => (hother m hm hml x hx).2
  · intro m hm
    by_cases hml : m = l
    · rw [hml, Function.update_self]
      exact hnodup
    · rw [Function.update_of_ne hml]
      exact h.nodup m hm
  · intro m hm o ho
    by_cases hml : m = l
    · rw [hml, Function.update_self] at ho
      exact (hlevel o ho).trans hml.symm
    · rw [Function.update_of_ne hml] at ho
      exact h.level m hm o ho
  · intro m hm
    rw [hsize]
    by_cases hml : m = l
    · rw [hml, Function.update_self, Function.update_self]
    · rw [Function.update_of_ne hml, Function.update_of_ne hml]
      exact h.size m hm

theorem Lists.tail_mem (h : Lists B s F) {l : ℕ} (hl : l ≤ B.depth) :
    s.free l ∈ B.head l::F l := by
  rw [h.tail l hl]
  exact lastOf_mem _ _

/-- The tail pointer is the head exactly when the list is empty. -/
theorem Lists.tail_eq_head_iff (h : Lists B s F) {l : ℕ} (hl : l ≤ B.depth) :
    s.free l = B.head l ↔ F l = [] := by
  rw [h.tail l hl]
  exact lastOf_eq_anchor _ _ (h.ring_nodup hl)

theorem Lists.size_eq_zero_iff (h : Lists B s F) {l : ℕ} (hl : l ≤ B.depth) :
    s.size l = 0 ↔ F l = [] := by
  rw [h.size l hl, List.length_eq_zero_iff]

end Rings

section Push

variable {B : Build} {s : BuddyAllocator} {F : ℕ → List ℕ} {l e : ℕ}

theorem pushEntry_next :
    (pushEntry B s l e).next = Function.update
      (Function.update s.next e (s.next (s.free l)%2^B.linkBits)) (s.free l) (e%2^B.linkBits) := by
  simp [pushEntry]

theorem pushEntry_prev (hne : e ≠ s.free l) :
    (pushEntry B s l e).prev = Function.update
      (Function.update s.prev e (s.free l%2^B.linkBits))
      (s.next (s.free l)%2^B.linkBits) (e%2^B.linkBits) := by
  simp [pushEntry, Function.update_of_ne hne]

theorem pushEntry_state : (pushEntry B s l e).state = Function.update s.state e FREE := by
  simp [pushEntry]

theorem pushEntry_free : (pushEntry B s l e).free = Function.update s.free l e := by
  simp [pushEntry]

theorem pushEntry_size :
    (pushEntry B s l e).size = Function.update s.size l ((s.size l+1)%2^32) := by
  simp [pushEntry]

@[simp] theorem pushEntry_start : (pushEntry B s l e).start = s.start := by
  simp [pushEntry]

/-- Pushing appends to the list of the level. -/
theorem push_lists (h : Lists B s F) (hl : l ≤ B.depth) (he : level e = l) (hn : e ∉ F l) :
    Lists B (pushEntry B s l e) (Function.update F l (F l++[e])) := by
  have heD : level e ≤ B.depth := he.le.trans hl
  have hmem := h.tail_mem hl
  have hhead : e ≠ B.head l := (offset_lt_head B l heD).ne
  have hering : e ∉ B.head l::F l := by
    simp only [List.mem_cons, not_or]
    exact ⟨hhead, hn⟩
  have hne : e ≠ s.free l := fun hx => hering (hx ▸ hmem)
  have hnext : s.next (s.free l)%2^B.linkBits = B.head l := by
    rw [h.tail l hl, (linked_arrival _ _ _ _ _ (h.ring l hl)).1, head_fits B hl]
  have htail : s.free l%2^B.linkBits = s.free l := by
    rcases List.mem_cons.mp hmem with hx | hx
    · rw [hx, head_fits B hl]
    · exact offset_fits B ((h.level l hl _ hx).le.trans hl)
  have hN := pushEntry_next (B := B) (s := s) (l := l) (e := e)
  have hP := pushEntry_prev (B := B) hne
  rw [hnext, offset_fits B heD] at hN hP
  rw [htail] at hP
  refine ⟨h.toLinks.replace ?_ ?_ ?_ ?_ ?_, ?_⟩
  · refine ring_append s.next s.prev _ _ _ e (F l) (h.ring_nodup hl) (h.ring l hl)
      ?_ ?_ ?_ ?_ ?_ ?_
    · intro x hx hxt
      rw [← h.tail l hl] at hxt
      rw [hN, Function.update_of_ne hxt, Function.update_of_ne]
      exact fun hxe => hering (hxe ▸ hx)
    · intro x hx
      have hxh : x ≠ B.head l := (offset_lt_head B l ((h.level l hl x hx).le.trans hl)).ne
      rw [hP, Function.update_of_ne hxh, Function.update_of_ne]
      exact fun hxe => hn (hxe ▸ hx)
    · rw [hN, ← h.tail l hl, Function.update_self]
    · rw [hP, Function.update_of_ne hhead, Function.update_self, h.tail l hl]
    · rw [hN, Function.update_of_ne hne, Function.update_self]
    · rw [hP, Function.update_self]
  · exact List.Nodup.append (h.nodup l hl) (List.nodup_singleton e)
      (List.disjoint_singleton.mpr hn)
  · intro o ho
    rw [List.mem_append, List.mem_singleton] at ho
    rcases ho with ho | rfl
    · exact h.level l hl o ho
    · exact he
  · have := h.length_le hl
    rw [pushEntry_size, h.size l hl, List.length_append, List.length_singleton,
      Nat.mod_eq_of_lt (by omega)]
  · intro m hm hml x hx
    have h1 : x ≠ s.free l := h.rings_disjoint hm hl hml hx hmem
    have h2 : x ≠ B.head l := h.rings_disjoint hm hl hml hx (by simp)
    have h3 : x ≠ e := by
      rintro rfl
      rcases List.mem_cons.mp hx with hx | hx
      · exact (offset_lt_head B m heD).ne hx
      · exact hml ((h.level m hm _ hx).symm.trans he)
    rw [hN, hP, Function.update_of_ne h1, Function.update_of_ne h3, Function.update_of_ne h2,
      Function.update_of_ne h3]
    exact ⟨rfl, rfl⟩
  · intro m hm
    rw [pushEntry_free]
    by_cases hml : m = l
    · subst hml
      simp [lastOf]
    · rw [Function.update_of_ne hml, Function.update_of_ne hml]
      exact h.tail m hm

end Push

section Remove

variable {B : Build} {s : BuddyAllocator} {F : ℕ → List ℕ} {l e : ℕ} {xs ys : List ℕ}

theorem removeEntry_next : (removeEntry B s e).next =
    Function.update s.next (s.prev e) (s.next e%2^B.linkBits) := by
  simp [removeEntry]

theorem removeEntry_prev (hne : s.prev e ≠ e) : (removeEntry B s e).prev =
    Function.update s.prev (s.next e) (s.prev e%2^B.linkBits) := by
  simp [removeEntry, Function.update_of_ne hne.symm]

theorem removeEntry_state : (removeEntry B s e).state = Function.update s.state e USED := by
  simp [removeEntry]

@[simp] theorem removeEntry_free : (removeEntry B s e).free = s.free := by
  simp [removeEntry]

theorem removeEntry_size : (removeEntry B s e).size =
    Function.update s.size (B.getLevel e) ((s.size (B.getLevel e)+(2^32-1))%2^32) := by
  simp [removeEntry]

@[simp] theorem removeEntry_start : (removeEntry B s e).start = s.start := by
  simp [removeEntry]

theorem Links.neighbours (h : Links B s F) (hl : l ≤ B.depth) (hF : F l = xs++e::ys) :
    s.prev e ∈ B.head l::F l ∧ s.next e ∈ B.head l::F l ∧ s.prev e ≠ e ∧ s.next e ≠ e := by
  have hd := h.ring_nodup hl
  have hring := h.ring l hl
  rw [hF] at hd hring ⊢
  obtain ⟨h1, h2⟩ := (linked_append _ _ _ _ _ _ _).mp hring
  have hp := (linked_arrival _ _ _ _ _ h1).2
  have hpm := lastOf_mem (B.head l) xs
  have hn : s.next e ∈ B.head l::ys := by
    cases ys with
    | nil => rw [h2.1]; simp
    | cons y ys => rw [h2.1]; simp
  rw [← hp] at hpm
  simp only [List.nodup_cons, List.nodup_append, List.mem_append, List.mem_cons] at hd hpm hn ⊢
  grind

/-- Unlinking takes the entry out of the list of its level and leaves the
tail pointers alone. -/
theorem remove_links (hlog : Log2Contract B.log2ui) (h : Links B s F) (hl : l ≤ B.depth)
    (hF : F l = xs++e::ys) :
    Links B (removeEntry B s e) (Function.update F l (xs++ys)) := by
  obtain ⟨hpm, hnm, hpe, -⟩ := h.neighbours hl hF
  have heF : e ∈ F l := by simp [hF]
  have hlev := h.level l hl e heF
  have hget : B.getLevel e = l := (getLevel_eq B hlog (hlev.le.trans hl)).trans hlev
  have hfit : ∀ x ∈ B.head l::F l, x%2^B.linkBits = x := by
    intro x hx
    rcases List.mem_cons.mp hx with rfl | hx
    · exact head_fits B hl
    · exact offset_fits B ((h.level l hl x hx).le.trans hl)
  have hN := removeEntry_next (B := B) (s := s) (e := e)
  have hP := removeEntry_prev (B := B) hpe
  rw [hfit _ hnm] at hN
  rw [hfit _ hpm] at hP
  have hsub : (xs++ys).Sublist (F l) := by
    rw [hF]
    exact List.Sublist.append (List.Sublist.refl xs) (List.sublist_cons_self e ys)
  have hd := h.ring_nodup hl
  have hring := h.ring l hl
  have hlen := h.length_le hl
  rw [hF] at hd hring hlen
  refine h.replace ?_ ((h.nodup l hl).sublist hsub) ?_ ?_ ?_
  · refine ring_remove s.next s.prev _ _ _ e xs ys hd hring ?_ ?_ ?_ ?_
    · intro x hx
      rw [hN, Function.update_of_ne hx]
    · intro x hx
      rw [hP, Function.update_of_ne hx]
    · rw [hN, Function.update_self]
    · rw [hP, Function.update_self]
  · exact fun o ho => h.level l hl o (hsub.subset ho)
  · have hcount : ((xs++e::ys).length+(2^32-1))%2^32 = (xs++ys).length := by
      simp only [List.length_append, List.length_cons] at hlen ⊢
      omega
    rw [removeEntry_size, hget, h.size l hl, hF, hcount]
  · intro m hm hml x hx
    rw [hN, hP, Function.update_of_ne (h.rings_disjoint hm hl hml hx hpm),
      Function.update_of_ne (h.rings_disjoint hm hl hml hx hnm)]
    exact ⟨rfl, rfl⟩

/-- An entry that is not the last of its list can be unlinked alone. -/
theorem remove_lists (hlog : Log2Contract B.log2ui) (h : Lists B s F) (hl : l ≤ B.depth)
    (hF : F l = xs++e::ys) (hys : ys ≠ []) :
    Lists B (removeEntry B s e) (Function.update F l (xs++ys)) := by
  refine ⟨remove_links hlog h.toLinks hl hF, ?_⟩
  intro m hm
  rw [removeEntry_free, h.tail m hm]
  by_cases hml : m = l
  · subst hml
    obtain ⟨y, ys, rfl⟩ := List.exists_cons_of_ne_nil hys
    rw [Function.update_self, hF, lastOf_append_cons, lastOf_append_cons]
    rfl
  · rw [Function.update_of_ne hml]

theorem pop_empty (h : Lists B s F) (hl : l ≤ B.depth) (hF : F l = []) :
    popEntry B s l = (B.head l, s) := by
  rw [popEntry, if_pos ((h.size_eq_zero_iff hl).mpr hF)]

theorem popEntry_eq (h : Lists B s F) (hl : l ≤ B.depth) (hF : F l = xs++[e]) :
    popEntry B s l =
      (e, setFree (removeEntry B s e) l ((removeEntry B s e).prev e)) := by
  have hne : F l ≠ [] := by simp [hF]
  have htail : s.free l = e := by
    rw [h.tail l hl, hF, lastOf_append_cons]
    rfl
  rw [popEntry, if_neg (fun hz => hne ((h.size_eq_zero_iff hl).mp hz)), htail]

/-- Popping a level takes the last entry of its list. -/
theorem pop_lists (hlog : Log2Contract B.log2ui) (h : Lists B s F) (hl : l ≤ B.depth)
    (hF : F l = xs++[e]) : (popEntry B s l).1 = e ∧
      Lists B (popEntry B s l).2 (Function.update F l xs) ∧
      (popEntry B s l).2.state = Function.update s.state e USED ∧
      (popEntry B s l).2.start = s.start := by
  obtain ⟨-, -, hpe, hne⟩ := h.toLinks.neighbours hl hF
  rw [popEntry_eq h hl hF]
  refine ⟨rfl, ⟨?_, ?_⟩, removeEntry_state, by simp⟩
  · have hL := remove_links hlog h.toLinks hl hF
    rw [List.append_nil] at hL
    exact ⟨hL.ring, hL.nodup, hL.level, hL.size⟩
  · intro m hm
    rw [setFree_free, removeEntry_free]
    by_cases hml : m = l
    · subst hml
      have hring := h.ring m hm
      rw [hF, linked_append] at hring
      rw [Function.update_self, Function.update_self, removeEntry_prev hpe,
        Function.update_of_ne hne.symm]
      exact (linked_arrival _ _ _ _ _ hring.1).2
    · rw [Function.update_of_ne hml, Function.update_of_ne hml]
      exact h.tail m hm

end Remove

end BruhOS.BuddyLists
