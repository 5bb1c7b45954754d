import Mathlib.Data.List.Pairwise
import Mathlib.Data.Nat.Bitwise
import Mathlib.Tactic.Tauto

/-!
# Search trees in memory

Memory is a map of 32-bit cells; a cell that nothing has stored to is
indeterminate, and a function that reads one has no result. A node of a tree
is three 64-bit words in some record: the left child, the right child, and the
parent with a balance factor in its low bits. `Rep` says which tree the words
at a root describe. An insertion compares its way down to a vacant place, links
the new node there and leaves the rest to the balancing, of which only the
order of the nodes matters here.
-/

set_option autoImplicit false

namespace BruhOS.PointerTree

abbrev Cells := ℕ → Option ℕ

def load32 (m : Cells) (a : ℕ) : Option ℕ := m a

def load64 (m : Cells) (a : ℕ) : Option ℕ :=
  match m a, m (a+4) with
  | some lo, some hi => some (lo+hi*2^32)
  | _, _ => none

def store32 (m : Cells) (a v : ℕ) : Cells := fun b => if b = a then some (v % 2^32) else m b

def store64 (m : Cells) (a v : ℕ) : Cells := store32 (store32 m a v) (a+4) (v/2^32)

section Memory

variable {m m' : Cells} {a b v : ℕ}

theorem store32_of_ne (h : b ≠ a) : store32 m a v b = m b := by
  simp [store32, h]

theorem store64_of_ne (h : b ≠ a) (h' : b ≠ a+4) : store64 m a v b = m b := by
  simp [store64, store32, h, h']

theorem load32_store32 (hv : v < 2^32) : load32 (store32 m a v) a = some v := by
  rw [load32, store32, if_pos rfl, Nat.mod_eq_of_lt hv]

theorem load64_store64 (hv : v < 2^64) : load64 (store64 m a v) a = some v := by
  have hlo : store64 m a v a = some (v % 2^32) := by simp [store64, store32]
  have hhi : store64 m a v (a+4) = some (v/2^32) := by
    rw [store64, store32, if_pos rfl, Nat.mod_eq_of_lt (by omega)]
  simp only [load64, hlo, hhi]
  congr 1
  omega

theorem load64_congr (h : m' a = m a) (h' : m' (a+4) = m (a+4)) : load64 m' a = load64 m a := by
  rw [load64, load64, h, h']

theorem load64_store64_of_ne (h : b+4 ≤ a ∨ a+4 ≤ b) (h' : b ≠ a+4) (h'' : a ≠ b+4) :
    load64 (store64 m a v) b = load64 m b := by
  apply load64_congr
  · exact store64_of_ne (by omega) h'
  · exact store64_of_ne (by omega) (by omega)

end Memory

inductive NodeTree where
  | nil
  | node (l : NodeTree) (x : ℕ) (r : NodeTree)
  deriving DecidableEq, Repr

def NodeTree.inorder : NodeTree → List ℕ
  | .nil => []
  | .node l x r => l.inorder++x::r.inorder

/-- The tree under the node that `q` points to, below the parent `p`. -/
def Rep (m : Cells) : ℕ → ℕ → NodeTree → Prop
  | _, q, .nil => q = 0
  | p, q, .node l x r => q = x ∧ x ≠ 0 ∧ ∃ ql qr b, b ≤ 2 ∧ load64 m x = some ql ∧
      load64 m (x+8) = some qr ∧ load64 m (x+16) = some (p+b) ∧ Rep m x ql l ∧ Rep m x qr r

/-- The words of the nodes lie apart, aligned, in the 64-bit address space. -/
structure Fit (xs : List ℕ) : Prop where
  aligned : ∀ x ∈ xs, x % 8 = 0
  bounded : ∀ x ∈ xs, x+24 ≤ 2^64
  apart : xs.Pairwise (fun x y => x+24 ≤ y ∨ y+24 ≤ x)

/-- A pointer variable of the tree: the root, or a child of a node. -/
inductive Place where
  | root
  | left (q : ℕ)
  | right (q : ℕ)
  deriving DecidableEq, Repr

def Place.owner : Place → ℕ
  | .root => 0
  | .left q => q
  | .right q => q

section Search

variable (c : ℕ → ℤ)

/-- The node that compares equal, or the vacant place where the search ends. -/
def NodeTree.find : NodeTree → Place → ℕ ⊕ Place
  | .nil, pl => .inr pl
  | .node l x r, _ =>
    if c x < 0 then l.find (.left x) else if 0 < c x then r.find (.right x) else .inl x

def NodeTree.insert (y : ℕ) : NodeTree → NodeTree
  | .nil => .node .nil y .nil
  | .node l x r =>
    if c x < 0 then .node (l.insert y) x r
    else if 0 < c x then .node l x (r.insert y) else .node l x r

end Search

/-- The loop of an insertion: `q` is what the pointer variable `pl` holds. -/
def walk (cmp : ℕ → Option ℤ) (m : Cells) : ℕ → Place → ℕ → Option (ℕ ⊕ Place)
  | 0, _, _ => none
  | fuel+1, pl, q =>
    if q = 0 then some (.inr pl)
    else match cmp q with
      | none => none
      | some c =>
        if c < 0 then (load64 m q).bind (walk cmp m fuel (.left q))
        else if 0 < c then (load64 m (q+8)).bind (walk cmp m fuel (.right q))
        else some (.inl q)

/-- The loop of a lookup. -/
def seek (cmp : ℕ → Option ℤ) (m : Cells) : ℕ → ℕ → Option ℕ
  | 0, _ => none
  | fuel+1, q =>
    if q = 0 then some 0
    else match cmp q with
      | none => none
      | some c =>
        if c < 0 then (load64 m q).bind (seek cmp m fuel)
        else if 0 < c then (load64 m (q+8)).bind (seek cmp m fuel)
        else some q

/-- The assignments after the loop of an insertion: `*cur_ptr = item` and
`item->parent_balance = cur | 1`. -/
def link (m : Cells) (root : ℕ) (pl : Place) (x : ℕ) : Cells × ℕ :=
  match pl with
  | .root => (store64 m (x+16) (0 ||| 1), x)
  | .left q => (store64 (store64 m q x) (x+16) (q ||| 1), root)
  | .right q => (store64 (store64 m (q+8) x) (x+16) (q ||| 1), root)

/-- The functions of a balanced tree library behind the insertion and the
removal, and what they keep of their balance factors. -/
structure Avl where
  rebalance : Cells → ℕ → ℕ → Cells × ℕ
  remove : Cells → ℕ → ℕ → Cells × ℕ
  Kept : Cells → ℕ → NodeTree → Prop

/-- The insertion is correct for every comparator: it keeps the order, and
writes to the words of the nodes only. -/
structure Avl.Correct (avl : Avl) : Prop where
  kept_nil : ∀ m, avl.Kept m 0 .nil
  kept_congr : ∀ {m m' : Cells} {root : ℕ} {T : NodeTree},
    (∀ x ∈ T.inorder, ∀ a, x ≤ a → a < x+24 → m' a = m a) → avl.Kept m root T → avl.Kept m' root T
  insert : ∀ {m : Cells} {root : ℕ} {T : NodeTree} {c : ℕ → ℤ} {y : ℕ} {pl : Place},
    Rep m 0 root T → avl.Kept m root T → y ≠ 0 → Fit (y::T.inorder) →
    T.find c .root = .inr pl →
    ∃ T', Rep (avl.rebalance (link m root pl y).1 (link m root pl y).2 y).1 0
        (avl.rebalance (link m root pl y).1 (link m root pl y).2 y).2 T' ∧
      avl.Kept (avl.rebalance (link m root pl y).1 (link m root pl y).2 y).1
        (avl.rebalance (link m root pl y).1 (link m root pl y).2 y).2 T' ∧
      T'.inorder = (T.insert c y).inorder ∧
      ∀ a, (∀ x ∈ y::T.inorder, a < x ∨ x+24 ≤ a) →
        (avl.rebalance (link m root pl y).1 (link m root pl y).2 y).1 a = m a

section Trees

variable {m m' : Cells} {c : ℕ → ℤ}

theorem rep_words (T : NodeTree) (p q : ℕ) (h : Rep m p q T)
    (hm : ∀ x ∈ T.inorder, ∀ w, w = x ∨ w = x+8 ∨ w = x+16 → load64 m' w = load64 m w) :
    Rep m' p q T := by
  induction T generalizing p q with
  | nil => exact h
  | node l x r ihl ihr =>
    obtain ⟨hq, hx, ql, qr, b, hb, hl, hr, hp, hL, hR⟩ := h
    have hword := hm x (by simp [NodeTree.inorder])
    refine ⟨hq, hx, ql, qr, b, hb, ?_, ?_, ?_, ?_, ?_⟩
    · rw [hword x (by simp), hl]
    · rw [hword (x+8) (by simp), hr]
    · rw [hword (x+16) (by simp), hp]
    · exact ihl x ql hL (fun y hy => hm y (by simp [NodeTree.inorder, hy]))
    · exact ihr x qr hR (fun y hy => hm y (by simp [NodeTree.inorder, hy]))

theorem rep_congr (T : NodeTree) (p q : ℕ) (h : Rep m p q T)
    (hm : ∀ x ∈ T.inorder, ∀ a, x ≤ a → a < x+24 → m' a = m a) : Rep m' p q T := by
  apply rep_words T p q h
  intro x hx w hw
  apply load64_congr
  · exact hm x hx w (by omega) (by omega)
  · exact hm x hx (w+4) (by omega) (by omega)

/-- A memory holds one tree at a root. -/
theorem rep_unique (T T' : NodeTree) (p p' q : ℕ) (h : Rep m p q T) (h' : Rep m p' q T') : T = T' := by
  induction T generalizing T' p p' q with
  | nil =>
    cases T' with
    | nil => rfl
    | node l x r =>
      have hq : q = 0 := h
      exact absurd (h'.1.symm.trans hq) h'.2.1
  | node l x r ihl ihr =>
    obtain ⟨hq, hx, ql, qr, b, -, hl, hr, -, hL, hR⟩ := h
    cases T' with
    | nil =>
      have hq' : q = 0 := h'
      exact absurd (hq.symm.trans hq') hx
    | node l' x' r' =>
      obtain ⟨hq', -, ql', qr', b', -, hl', hr', -, hL', hR'⟩ := h'
      have hxx : x = x' := hq.symm.trans hq'
      rw [← hxx] at hl' hr' hL' hR'
      rw [hl, Option.some.injEq] at hl'
      rw [hr, Option.some.injEq] at hr'
      rw [← hl'] at hL'
      rw [← hr'] at hR'
      rw [hxx, ihl l' x x ql hL hL', ihr r' x x qr hR hR']

/-- The walk in memory finds what the search of the tree finds. -/
theorem walk_eq {cmp : ℕ → Option ℤ} (T : NodeTree) (p q : ℕ) (pl : Place) (fuel : ℕ) (h : Rep m p q T)
    (hcmp : ∀ x ∈ T.inorder, cmp x = some (c x)) (hfuel : T.inorder.length < fuel) :
    walk cmp m fuel pl q = some (T.find c pl) := by
  induction T generalizing p q pl fuel with
  | nil =>
    obtain ⟨fuel, rfl⟩ : ∃ n, fuel = n+1 := ⟨fuel-1, by omega⟩
    have hq : q = 0 := h
    simp [walk, hq, NodeTree.find]
  | node l x r ihl ihr =>
    obtain ⟨hq, hx, ql, qr, b, -, hl, hr, -, hL, hR⟩ := h
    obtain ⟨fuel, rfl⟩ : ∃ n, fuel = n+1 := ⟨fuel-1, by omega⟩
    simp only [NodeTree.inorder, List.length_append, List.length_cons] at hfuel
    have hc : cmp x = some (c x) := hcmp x (by simp [NodeTree.inorder])
    have hgoL := ihl x ql (.left x) fuel hL (fun y hy => hcmp y (by simp [NodeTree.inorder, hy])) (by omega)
    have hgoR := ihr x qr (.right x) fuel hR (fun y hy => hcmp y (by simp [NodeTree.inorder, hy])) (by omega)
    rw [hq]
    simp only [walk, hx, if_false, hc, hl, hr, Option.bind_some, hgoL, hgoR, NodeTree.find]
    split_ifs <;> rfl

theorem find_mem (T : NodeTree) (pl : Place) {q : ℕ} (h : T.find c pl = .inl q) :
    q ∈ T.inorder ∧ c q = 0 := by
  induction T generalizing pl with
  | nil => simp [NodeTree.find] at h
  | node l x r ihl ihr =>
    simp only [NodeTree.find] at h
    split_ifs at h with h1 h2
    · exact ⟨by simp [NodeTree.inorder, (ihl _ h).1], (ihl _ h).2⟩
    · exact ⟨by simp [NodeTree.inorder, (ihr _ h).1], (ihr _ h).2⟩
    · simp only [Sum.inl.injEq] at h
      rw [← h]
      exact ⟨by simp [NodeTree.inorder], by omega⟩

theorem insert_perm (T : NodeTree) {pl pl' : Place} (y : ℕ) (h : T.find c pl = .inr pl') :
    (T.insert c y).inorder.Perm (y::T.inorder) := by
  induction T generalizing pl with
  | nil => exact List.Perm.refl _
  | node l z r ihl ihr =>
    simp only [NodeTree.find] at h
    simp only [NodeTree.insert]
    split_ifs at h ⊢ with h1 h2
    · simp only [NodeTree.inorder]
      exact (ihl h).append_right _
    · simp only [NodeTree.inorder]
      have hdown : (l.inorder++z::(r.insert c y).inorder).Perm (l.inorder++z::y::r.inorder) :=
        ((ihr h).cons z).append_left _
      have hswap : (l.inorder++z::y::r.inorder).Perm (l.inorder++y::z::r.inorder) :=
        (List.Perm.swap y z _).append_left _
      exact (hdown.trans hswap).trans List.perm_middle

theorem mem_insert (T : NodeTree) {pl pl' : Place} (y : ℕ) (h : T.find c pl = .inr pl') (x : ℕ) :
    x ∈ (T.insert c y).inorder ↔ x = y ∨ x ∈ T.inorder := by
  rw [(insert_perm T y h).mem_iff, List.mem_cons]

theorem insert_nodup (T : NodeTree) {pl pl' : Place} {y : ℕ} (h : T.find c pl = .inr pl')
    (hn : T.inorder.Nodup) (hy : y ∉ T.inorder) : (T.insert c y).inorder.Nodup := by
  rw [(insert_perm T y h).nodup_iff, List.nodup_cons]
  exact ⟨hy, hn⟩

/-- A search that ends at a vacant place splits the order there. -/
theorem insert_inorder (T : NodeTree) {pl pl' : Place} (y : ℕ) (h : T.find c pl = .inr pl')
    {R : ℕ → ℕ → Prop} (hR : T.inorder.Pairwise R)
    (htrans : ∀ x ∈ T.inorder, ∀ z ∈ T.inorder, c x < 0 → R x z → c z < 0)
    (htrans' : ∀ x ∈ T.inorder, ∀ z ∈ T.inorder, 0 < c x → R z x → 0 < c z) :
    ∃ before after, T.inorder = before++after ∧ (T.insert c y).inorder = before++y::after ∧
      (∀ x ∈ before, 0 < c x) ∧ ∀ x ∈ after, c x < 0 := by
  induction T generalizing pl with
  | nil => exact ⟨[], [], by simp [NodeTree.insert, NodeTree.inorder]⟩
  | node l z r ihl ihr =>
    simp only [NodeTree.inorder, List.pairwise_append, List.pairwise_cons] at hR
    obtain ⟨hl, ⟨hzr, hr⟩, hlzr⟩ := hR
    simp only [NodeTree.find] at h
    have hin : ∀ x, x ∈ (NodeTree.node l z r).inorder ↔ x ∈ l.inorder ∨ x = z ∨ x ∈ r.inorder := by
      simp [NodeTree.inorder]
    split_ifs at h with h1 h2
    · obtain ⟨bs, as, heq, hins, hb, ha⟩ := ihl h hl
        (fun x hx w hw => htrans x ((hin x).mpr (Or.inl hx)) w ((hin w).mpr (Or.inl hw)))
        (fun x hx w hw => htrans' x ((hin x).mpr (Or.inl hx)) w ((hin w).mpr (Or.inl hw)))
      refine ⟨bs, as++z::r.inorder, ?_, ?_, hb, ?_⟩
      · simp [NodeTree.inorder, heq]
      · simp [NodeTree.insert, h1, NodeTree.inorder, hins]
      · intro x hx
        simp only [List.mem_append, List.mem_cons] at hx
        rcases hx with hx | hx | hx
        · exact ha x hx
        · rw [hx]
          exact h1
        · exact htrans z ((hin z).mpr (by simp)) x ((hin x).mpr (by simp [hx])) h1 (hzr x hx)
    · obtain ⟨bs, as, heq, hins, hb, ha⟩ := ihr h hr
        (fun x hx w hw => htrans x ((hin x).mpr (by simp [hx])) w ((hin w).mpr (by simp [hw])))
        (fun x hx w hw => htrans' x ((hin x).mpr (by simp [hx])) w ((hin w).mpr (by simp [hw])))
      refine ⟨l.inorder++z::bs, as, ?_, ?_, ?_, ha⟩
      · simp [NodeTree.inorder, heq]
      · simp [NodeTree.insert, h1, h2, NodeTree.inorder, hins]
      · intro x hx
        simp only [List.mem_append, List.mem_cons] at hx
        rcases hx with hx | hx | hx
        · exact htrans' z ((hin z).mpr (by simp)) x ((hin x).mpr (by simp [hx])) h2
            (hlzr x hx z (by simp))
        · rw [hx]
          exact h2
        · exact hb x hx

end Trees

section Plain

/-- The first step of the balancing: the parent of the new node leans towards it, or no longer leans. -/
def settle (m : Cells) (x : ℕ) : Cells :=
  match load64 m (x+16) with
  | none => m
  | some w =>
    match load64 m (w/4*4), load64 m (w/4*4+16) with
    | some l, some b =>
      let b' := if l = x then b-1 else b+1
      if w/4*4 ≠ 0 ∧ b'/4 = b/4 ∧ b' % 4 ≤ 2 then store64 m (w/4*4+16) b' else m
    | _, _ => m

/-- The memory of a new node that has its place and no children. -/
def leaf (m : Cells) (root : ℕ) (pl : Place) (x : ℕ) : Cells :=
  store64 (store64 (link m root pl x).1 x 0) (x+8) 0

/-- The balancing where no height above the parent of the new node changes. -/
def plain : Avl where
  rebalance m root x := (settle (store64 (store64 m x 0) (x+8) 0) x, root)
  remove m root _ := (m, root)
  Kept _ _ _ := True

/-- The word of a pointer variable below the root. -/
def Place.word : Place → ℕ
  | .root => 0
  | .left q => q
  | .right q => q+8

variable {m m' : Cells} {c : ℕ → ℤ}

theorem or_one {q : ℕ} (h : q % 8 = 0) : q ||| 1 = q+1 := by
  have hq : q = 2^3*(q/8) := by omega
  rw [hq, ← Nat.two_pow_add_eq_or_of_lt (by decide)]

theorem find_inr (T : NodeTree) (pl0 : Place) {pl : Place} (h : T.find c pl0 = .inr pl) :
    (T = .nil ∧ pl = pl0) ∨ (T ≠ .nil ∧ pl.owner ∈ T.inorder ∧
      (pl = .left pl.owner ∨ pl = .right pl.owner)) := by
  induction T generalizing pl0 with
  | nil =>
    simp only [NodeTree.find, Sum.inr.injEq] at h
    exact Or.inl ⟨rfl, h.symm⟩
  | node l x r ihl ihr =>
    right
    refine ⟨by simp, ?_⟩
    simp only [NodeTree.find] at h
    split_ifs at h with h1 h2
    · rcases ihl _ h with ⟨-, hpl⟩ | ⟨-, hmem, hpl⟩
      · simp [hpl, Place.owner, NodeTree.inorder]
      · exact ⟨by simp [NodeTree.inorder, hmem], hpl⟩
    · rcases ihr _ h with ⟨-, hpl⟩ | ⟨-, hmem, hpl⟩
      · simp [hpl, Place.owner, NodeTree.inorder]
      · exact ⟨by simp [NodeTree.inorder, hmem], hpl⟩

/-- The word of the place that a search from `pl0` ends at. -/
theorem find_word (T : NodeTree) (pl0 : Place) {pl : Place} (h : T.find c pl0 = .inr pl) :
    (T = .nil ∧ pl.word = pl0.word) ∨
      (T ≠ .nil ∧ ∃ o ∈ T.inorder, pl.word = o ∨ pl.word = o+8) := by
  rcases find_inr T pl0 h with ⟨hnil, hpl⟩ | ⟨hne, hmem, hpl | hpl⟩
  · exact Or.inl ⟨hnil, by rw [hpl]⟩
  · exact Or.inr ⟨hne, _, hmem, Or.inl (by rw [hpl]; rfl)⟩
  · exact Or.inr ⟨hne, _, hmem, Or.inr (by rw [hpl]; rfl)⟩

/-- The order of apart nodes, as needed at a node and its two subtrees. -/
theorem Fit.node {l r : NodeTree} {x : ℕ} (h : Fit (NodeTree.node l x r).inorder) :
    Fit l.inorder ∧ Fit r.inorder ∧ (∀ z ∈ l.inorder, z+24 ≤ x ∨ x+24 ≤ z) ∧
      (∀ z ∈ r.inorder, z+24 ≤ x ∨ x+24 ≤ z) ∧
      ∀ z ∈ l.inorder, ∀ w ∈ r.inorder, z+24 ≤ w ∨ w+24 ≤ z := by
  obtain ⟨ha, hb, hp⟩ := h
  simp only [NodeTree.inorder, List.pairwise_append, List.pairwise_cons] at hp
  obtain ⟨hl, ⟨hxr, hr⟩, hlr⟩ := hp
  refine ⟨⟨?_, ?_, hl⟩, ⟨?_, ?_, hr⟩, ?_, ?_, ?_⟩
  · exact fun z hz => ha z (by simp [NodeTree.inorder, hz])
  · exact fun z hz => hb z (by simp [NodeTree.inorder, hz])
  · exact fun z hz => ha z (by simp [NodeTree.inorder, hz])
  · exact fun z hz => hb z (by simp [NodeTree.inorder, hz])
  · exact fun z hz => hlr z hz x (by simp)
  · exact fun z hz => (hxr z hz).symm
  · exact fun z hz w hw => hlr z hz w (by simp [hw])

/-- A memory that differs from one holding the tree in the vacant place and
the new node holds the tree with the new node. -/
theorem rep_insert {y : ℕ} {pl : Place} (T : NodeTree) (p q : ℕ) (pl0 : Place) (h : Rep m p q T)
    (hfit : Fit T.inorder) (hfind : T.find c pl0 = .inr pl) (hp : pl0.owner = p)
    (hleaf : Rep m' pl.owner y (.node .nil y .nil))
    (hword : T ≠ .nil → load64 m' pl.word = some y)
    (hsame : ∀ x ∈ T.inorder, ∀ w, w = x ∨ w = x+8 ∨ w = x+16 → w ≠ pl.word →
      load64 m' w = load64 m w) :
    Rep m' p (if T = .nil then y else q) (T.insert c y) := by
  induction T generalizing p q pl0 with
  | nil =>
    simp only [NodeTree.find, Sum.inr.injEq] at hfind
    rw [← hfind, hp] at hleaf
    simpa [NodeTree.insert] using hleaf
  | node l x r ihl ihr =>
    obtain ⟨hq, hx, ql, qr, b, hb, hl, hr, hpb, hL, hR⟩ := h
    obtain ⟨hfl, hfr, hlx, hrx, hlr⟩ := hfit.node
    have hw := hword (by simp)
    have hx' := hsame x (by simp [NodeTree.inorder])
    simp only [NodeTree.find] at hfind
    simp only [NodeTree.insert, reduceCtorEq, if_false]
    split_ifs at hfind with h1 h2
    · have hsub := ihl x ql (.left x) hL hfl hfind rfl (fun _ => hw)
        (fun z hz => hsame z (by simp [NodeTree.inorder, hz]))
      rw [if_pos h1]
      -- the word of the place is the left word of `x`, or one in the left subtree
      have hplace : (l = .nil ∧ pl.word = x) ∨
          (l ≠ .nil ∧ ∃ o ∈ l.inorder, pl.word = o ∨ pl.word = o+8) :=
        find_word l (.left x) hfind
      have hother : pl.word ≠ x+8 ∧ pl.word ≠ x+16 := by
        rcases hplace with ⟨-, hpl⟩ | ⟨-, o, ho, hpl⟩
        · omega
        · have := hlx o ho
          omega
      refine ⟨hq, hx, _, qr, b, hb, ?_, ?_, ?_, hsub, ?_⟩
      · rcases hplace with ⟨hnil, hpl⟩ | ⟨hne, o, ho, hpl⟩
        · rw [if_pos hnil, ← hpl, hw]
        · have := hlx o ho
          rw [if_neg hne, hx' x (by simp) (by omega), hl]
      · rw [hx' (x+8) (by simp) hother.1.symm, hr]
      · rw [hx' (x+16) (by simp) hother.2.symm, hpb]
      · apply rep_words r x qr hR
        intro z hz w hwz
        apply hsame z (by simp [NodeTree.inorder, hz]) w hwz
        rcases hplace with ⟨-, hpl⟩ | ⟨-, o, ho, hpl⟩
        · have := hrx z hz
          omega
        · have := hlr o ho z hz
          omega
    · have hsub := ihr x qr (.right x) hR hfr hfind rfl (fun _ => hw)
        (fun z hz => hsame z (by simp [NodeTree.inorder, hz]))
      rw [if_neg h1, if_pos h2]
      have hplace : (r = .nil ∧ pl.word = x+8) ∨
          (r ≠ .nil ∧ ∃ o ∈ r.inorder, pl.word = o ∨ pl.word = o+8) :=
        find_word r (.right x) hfind
      have hother : pl.word ≠ x ∧ pl.word ≠ x+16 := by
        rcases hplace with ⟨-, hpl⟩ | ⟨-, o, ho, hpl⟩
        · omega
        · have := hrx o ho
          omega
      refine ⟨hq, hx, ql, _, b, hb, ?_, ?_, ?_, ?_, hsub⟩
      · rw [hx' x (by simp) hother.1.symm, hl]
      · rcases hplace with ⟨hnil, hpl⟩ | ⟨hne, o, ho, hpl⟩
        · rw [if_pos hnil, ← hpl, hw]
        · have := hrx o ho
          rw [if_neg hne, hx' (x+8) (by simp) (by omega), hr]
      · rw [hx' (x+16) (by simp) hother.2.symm, hpb]
      · apply rep_words l x ql hL
        intro z hz w hwz
        apply hsame z (by simp [NodeTree.inorder, hz]) w hwz
        rcases hplace with ⟨-, hpl⟩ | ⟨-, o, ho, hpl⟩
        · have := hlx z hz
          omega
        · have := hlr z hz o ho
          omega

/-- A word of the linked memory away from the new node's words and the place. -/
theorem load64_link {root y w : ℕ} {pl : Place} (hw : w+8 ≤ y ∨ y+24 ≤ w) (ha : w % 8 = 0)
    (hpl : pl.word % 8 = 0) (hne : w ≠ pl.word) (hroot : pl ≠ .root) :
    load64 (leaf m root pl y) w = load64 m w := by
  simp only [leaf]
  rw [load64_store64_of_ne (by omega) (by omega) (by omega),
    load64_store64_of_ne (by omega) (by omega) (by omega)]
  cases pl with
  | root => exact absurd rfl hroot
  | left q =>
    simp only [Place.word] at hpl hne
    rw [link, load64_store64_of_ne (by omega) (by omega) (by omega),
      load64_store64_of_ne (by omega) (by omega) (by omega)]
  | right q =>
    simp only [Place.word] at hpl hne
    rw [link, load64_store64_of_ne (by omega) (by omega) (by omega),
      load64_store64_of_ne (by omega) (by omega) (by omega)]

theorem leaf_parent {root y : ℕ} {pl : Place} (ho : pl.owner % 8 = 0) (hb : pl.owner+24 ≤ 2^64) :
    load64 (leaf m root pl y) (y+16) = some (pl.owner+1) := by
  simp only [leaf]
  rw [load64_store64_of_ne (by omega) (by omega) (by omega),
    load64_store64_of_ne (by omega) (by omega) (by omega)]
  cases pl with
  | root => exact load64_store64 (by decide)
  | left q =>
    simp only [Place.owner] at ho hb ⊢
    rw [link, or_one ho, load64_store64 (by omega)]
  | right q =>
    simp only [Place.owner] at ho hb ⊢
    rw [link, or_one ho, load64_store64 (by omega)]

theorem rep_leaf {root y : ℕ} {pl : Place} (hy : y ≠ 0) (ho : pl.owner % 8 = 0)
    (hb : pl.owner+24 ≤ 2^64) : Rep (leaf m root pl y) pl.owner y (.node .nil y .nil) := by
  refine ⟨rfl, hy, 0, 0, 1, by decide, ?_, ?_, leaf_parent ho hb, rfl, rfl⟩
  · rw [leaf, load64_store64_of_ne (by omega) (by omega) (by omega), load64_store64 (by decide)]
  · rw [leaf, load64_store64 (by decide)]

theorem link_root {T : NodeTree} {root y : ℕ} {pl : Place} (h : T.find c .root = .inr pl) :
    (link m root pl y).2 = if T = .nil then y else root := by
  rcases find_inr T _ h with ⟨hnil, hpl⟩ | ⟨hne, -, hpl | hpl⟩
  · rw [if_pos hnil, hpl]
    rfl
  · rw [if_neg hne, hpl]
    rfl
  · rw [if_neg hne, hpl]
    rfl

/-- The new node in its place, before the balancing. -/
theorem rep_leaf_insert {T : NodeTree} {root y : ℕ} {pl : Place} (hrep : Rep m 0 root T) (hy : y ≠ 0)
    (hfit : Fit (y::T.inorder)) (hfind : T.find c .root = .inr pl) :
    Rep (leaf m root pl y) 0 (link m root pl y).2 (T.insert c y) := by
  have hap := List.pairwise_cons.mp hfit.apart
  have hby := hfit.bounded y (by simp)
  have hT : Fit T.inorder := ⟨fun x hx => hfit.aligned x (by simp [hx]),
    fun x hx => hfit.bounded x (by simp [hx]), hap.2⟩
  have howner : pl.owner % 8 = 0 ∧ pl.owner+24 ≤ 2^64 := by
    rcases find_inr T _ hfind with ⟨-, hpl⟩ | ⟨-, hmem, -⟩
    · simp [hpl, Place.owner]
    · exact ⟨hT.aligned _ hmem, hT.bounded _ hmem⟩
  rw [link_root hfind]
  apply rep_insert T 0 root .root hrep hT hfind rfl (rep_leaf hy howner.1 howner.2)
  · intro hne
    rcases find_inr T _ hfind with ⟨hnil, -⟩ | ⟨-, hmem, hpl⟩
    · exact absurd hnil hne
    · have hao := hap.1 _ hmem
      -- the place holds the new node, and none of the later stores reach it
      rcases hpl with hpl | hpl
      · rw [hpl] at hao ⊢
        simp only [Place.owner, Place.word, leaf, link] at hao ⊢
        rw [load64_store64_of_ne (by omega) (by omega) (by omega),
          load64_store64_of_ne (by omega) (by omega) (by omega),
          load64_store64_of_ne (by omega) (by omega) (by omega), load64_store64 (by omega)]
      · rw [hpl] at hao ⊢
        simp only [Place.owner, Place.word, leaf, link] at hao ⊢
        rw [load64_store64_of_ne (by omega) (by omega) (by omega),
          load64_store64_of_ne (by omega) (by omega) (by omega),
          load64_store64_of_ne (by omega) (by omega) (by omega), load64_store64 (by omega)]
  · intro x hx w hw hne
    have hax := hap.1 x hx
    have hal := hT.aligned x hx
    have hay := hfit.aligned y (by simp)
    rcases find_inr T _ hfind with ⟨hnil, -⟩ | ⟨-, hmem, hpl⟩
    · rw [hnil] at hx
      simp [NodeTree.inorder] at hx
    · have := hT.aligned _ hmem
      apply load64_link (by omega) (by omega) _ hne
      · rcases hpl with hpl | hpl
        · rw [hpl]
          simp
        · rw [hpl]
          simp
      · rcases hpl with hpl | hpl
        · rw [hpl]
          simpa [Place.word] using this
        · rw [hpl]
          simp only [Place.word]
          omega

theorem leaf_frame {T : NodeTree} {root y : ℕ} {pl : Place} (hfind : T.find c .root = .inr pl) {a : ℕ}
    (ha : ∀ x ∈ y::T.inorder, a < x ∨ x+24 ≤ a) : leaf m root pl y a = m a := by
  have hay := ha y (by simp)
  rw [leaf, store64_of_ne (by omega) (by omega), store64_of_ne (by omega) (by omega)]
  rcases find_inr T _ hfind with ⟨-, hpl⟩ | ⟨-, hmem, hpl⟩
  · rw [hpl]
    exact store64_of_ne (by omega) (by omega)
  · have hao := ha _ (List.mem_cons_of_mem _ hmem)
    rcases hpl with hpl | hpl
    · rw [hpl] at hao ⊢
      simp only [Place.owner, link] at hao ⊢
      rw [store64_of_ne (by omega) (by omega), store64_of_ne (by omega) (by omega)]
    · rw [hpl] at hao ⊢
      simp only [Place.owner, link] at hao ⊢
      rw [store64_of_ne (by omega) (by omega), store64_of_ne (by omega) (by omega)]

/-- A change of one balance factor changes no tree. -/
theorem rep_factor (T : NodeTree) (p q : ℕ) (h : Rep m p q T) (hp : p % 8 = 0) (hfit : Fit T.inorder)
    {x w w' : ℕ} (hx : x ∈ T.inorder) (hw : load64 m (x+16) = some w) (hq : w'/4 = w/4)
    (hb : w' % 4 ≤ 2) (hlt : w' < 2^64) : Rep (store64 m (x+16) w') p q T := by
  induction T generalizing p q with
  | nil => simp [NodeTree.inorder] at hx
  | node l z r ihl ihr =>
    obtain ⟨hqz, hz, ql, qr, b, hb', hl, hr, hpb, hL, hR⟩ := h
    obtain ⟨hfl, hfr, hlz, hrz, hlr⟩ := hfit.node
    have haz := hfit.aligned z (by simp [NodeTree.inorder])
    have hax := hfit.aligned x hx
    have hother : ∀ y, y+24 ≤ x ∨ x+24 ≤ y → ∀ a, a = y ∨ a = y+8 ∨ a = y+16 →
        load64 (store64 m (x+16) w') a = load64 m a := by
      intro y hy a ha
      exact load64_store64_of_ne (by omega) (by omega) (by omega)
    simp only [NodeTree.inorder, List.mem_append, List.mem_cons] at hx
    rcases hx with hx | hx | hx
    · have hapart := hlz x hx
      refine ⟨hqz, hz, ql, qr, b, hb', ?_, ?_, ?_, ihl z ql hL haz hfl hx, ?_⟩
      · rw [hother z (by omega) z (by simp), hl]
      · rw [hother z (by omega) (z+8) (by simp), hr]
      · rw [hother z (by omega) (z+16) (by simp), hpb]
      · exact rep_words r z qr hR (fun y hy => hother y (by have := hlr x hx y hy; omega))
    · rw [hx] at hw hother ⊢
      rw [hpb] at hw
      simp only [Option.some.injEq] at hw
      refine ⟨hqz, hz, ql, qr, w' % 4, hb, ?_, ?_, ?_, ?_, ?_⟩
      · rw [load64_store64_of_ne (by omega) (by omega) (by omega), hl]
      · rw [load64_store64_of_ne (by omega) (by omega) (by omega), hr]
      · rw [load64_store64 hlt]
        congr 1
        omega
      · exact rep_words l z ql hL (fun y hy => hother y (hlz y hy))
      · exact rep_words r z qr hR (fun y hy => hother y (hrz y hy))
    · have hapart := hrz x hx
      refine ⟨hqz, hz, ql, qr, b, hb', ?_, ?_, ?_, ?_, ihr z qr hR haz hfr hx⟩
      · rw [hother z (by omega) z (by simp), hl]
      · rw [hother z (by omega) (z+8) (by simp), hr]
      · rw [hother z (by omega) (z+16) (by simp), hpb]
      · exact rep_words l z ql hL (fun y hy => hother y (by have := hlr y hy x hx; omega))

/-- The word that `settle` may change is the balance factor of the parent. -/
theorem settle_cases {x o : ℕ} (ho : o % 8 = 0) (hw : load64 m (x+16) = some (o+1)) :
    settle m x = m ∨ (o ≠ 0 ∧ ∃ b b', load64 m (o+16) = some b ∧ b'/4 = b/4 ∧ b' % 4 ≤ 2 ∧
      settle m x = store64 m (o+16) b') := by
  have howner : (o+1)/4*4 = o := by omega
  simp only [settle, hw, howner]
  split
  · next l b hl hb =>
    generalize (if l = x then b-1 else b+1) = b'
    split
    · next hcond => exact Or.inr ⟨hcond.1, b, _, hb, hcond.2.1, hcond.2.2, rfl⟩
    · exact Or.inl rfl
  · exact Or.inl rfl

theorem rep_bounded (T : NodeTree) (p q : ℕ) (h : Rep m p q T) (hp : p+24 ≤ 2^64)
    (hfit : Fit T.inorder) {x w : ℕ} (hx : x ∈ T.inorder) (hw : load64 m (x+16) = some w) :
    w+8 ≤ 2^64 := by
  induction T generalizing p q with
  | nil => simp [NodeTree.inorder] at hx
  | node l z r ihl ihr =>
    obtain ⟨-, -, ql, qr, b, hb, -, -, hpb, hL, hR⟩ := h
    have hz := hfit.bounded z (by simp [NodeTree.inorder])
    simp only [NodeTree.inorder, List.mem_append, List.mem_cons] at hx
    rcases hx with hx | hx | hx
    · exact ihl z ql hL hz hfit.node.1 hx
    · rw [hx, hpb] at hw
      simp only [Option.some.injEq] at hw
      omega
    · exact ihr z qr hR hz hfit.node.2.1 hx

theorem plain_correct : plain.Correct where
  kept_nil _ := trivial
  kept_congr _ _ := trivial
  insert := by
    intro m root T c y pl hrep _ hy hfit hfind
    have hleaf := rep_leaf_insert hrep hy hfit hfind
    have hmem := mem_insert T y hfind
    have hperm := insert_perm T y hfind
    have hfit' : Fit (T.insert c y).inorder := by
      refine ⟨fun x hx => hfit.aligned x (hperm.mem_iff.mp hx),
        fun x hx => hfit.bounded x (hperm.mem_iff.mp hx), ?_⟩
      apply (hperm.pairwise_iff _).mpr hfit.apart
      intro x z hxz
      omega
    have howner : pl.owner % 8 = 0 ∧ pl.owner+24 ≤ 2^64 := by
      rcases find_inr T _ hfind with ⟨-, hpl⟩ | ⟨-, hm, -⟩
      · simp [hpl, Place.owner]
      · exact ⟨hfit.aligned _ (by simp [hm]), hfit.bounded _ (by simp [hm])⟩
    have hmem' : pl.owner ≠ 0 → pl.owner ∈ T.inorder := by
      intro hne
      rcases find_inr T _ hfind with ⟨-, hpl⟩ | ⟨-, hm, -⟩
      · exact absurd (by rw [hpl]; rfl) hne
      · exact hm
    refine ⟨T.insert c y, ?_, trivial, rfl, ?_⟩
    · rcases settle_cases howner.1 (leaf_parent howner.1 howner.2) with h | ⟨hne, b, b', hb, hq, h4, h⟩
      · show Rep (settle (leaf m root pl y) y) 0 _ _
        rw [h]
        exact hleaf
      · show Rep (settle (leaf m root pl y) y) 0 _ _
        rw [h]
        have hin : pl.owner ∈ (T.insert c y).inorder := (hmem _).mpr (Or.inr (hmem' hne))
        have hlt := rep_bounded _ 0 _ hleaf (by decide) hfit' hin hb
        exact rep_factor _ 0 _ hleaf rfl hfit' hin hb hq h4 (by omega)
    · intro a ha
      show settle (leaf m root pl y) y a = m a
      rcases settle_cases howner.1 (leaf_parent howner.1 howner.2) with h | ⟨hne, b, b', -, -, -, h⟩
      · rw [h, leaf_frame hfind ha]
      · have hao := ha _ (List.mem_cons_of_mem _ (hmem' hne))
        rw [h, store64_of_ne (by omega) (by omega), leaf_frame hfind ha]

end Plain

end BruhOS.PointerTree
