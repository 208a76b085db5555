import Mathlib.Data.List.Basic

/- A radix tree in a store of nodes: `h n i` is entry `i` of node `n`, and `kid` says which entries lead to a child. -/

namespace Radix
variable {N I E : Type} {kid : E → Option N} {h h' : N → I → E} {r a n : N} {i : I} {p q : List I} {d : Nat}

/-- The node that a path leads to. -/
def node (kid : E → Option N) (h : N → I → E) (r : N) : List I → Option N
  | [] => some r
  | i :: p => (kid (h r i)).bind (fun n => node kid h n p)

theorem node_append (p q : List I) :
    node kid h r (p ++ q) = (node kid h r p).bind (fun n => node kid h n q) := by
  induction p generalizing r with
  | nil => rfl
  | cons i p ih =>
    simp only [List.cons_append, node]
    cases kid (h r i) with
    | none => rfl
    | some n => exact ih

/-- A path goes to the same node if every entry on its way is the same. -/
theorem node_congr (hsame : ∀ p i t m, q = p ++ i :: t → node kid h r p = some m → h' m i = h m i) :
    node kid h' r q = node kid h r q := by
  induction q generalizing r with
  | nil => rfl
  | cons j q ih =>
    have hj : h' r j = h r j := hsame [] j q r rfl rfl
    simp only [node, hj]
    cases hk : kid (h r j) with
    | none => rfl
    | some m =>
      refine ih fun p i t m' hq hm => hsame (j :: p) i t m' (by rw [hq]; rfl) ?_
      rw [node, hk]
      exact hm

/-- No two paths of at most `d` steps lead to the same node. -/
def Proper (kid : E → Option N) (h : N → I → E) (r : N) (d : Nat) : Prop :=
  ∀ p q n, p.length ≤ d → q.length ≤ d → node kid h r p = some n → node kid h r q = some n → p = q

/-- The nodes of the tree. -/
def InTree (kid : E → Option N) (h : N → I → E) (r : N) (d : Nat) (n : N) : Prop :=
  ∃ p : List I, p.length ≤ d ∧ node kid h r p = some n

/-- What leaves the nodes alone leaves the tree as it is. -/
theorem node_of_same (hsame : ∀ m, InTree kid h r d m → h' m = h m) (hq : q.length ≤ d + 1) :
    node kid h' r q = node kid h r q := by
  refine node_congr fun p i t m he hm => ?_
  rw [hsame m ⟨p, ?_, hm⟩]
  simp only [he, List.length_append, List.length_cons] at hq
  omega

section
variable (hp : Proper kid h r d) (ha : node kid h r p = some a) (hlen : p.length ≤ d)
include hp ha hlen

/-- A new entry `i` of the node at `p` is seen only by the paths that go through it. -/
theorem node_other (hset : ∀ m j, InTree kid h r d m → ¬ (m = a ∧ j = i) → h' m j = h m j) (hq : q.length ≤ d + 1)
    (hnot : ¬ p ++ [i] <+: q) : node kid h' r q = node kid h r q := by
  refine node_congr fun p' j t m he hm => ?_
  have hlen' : p'.length ≤ d := by
    simp only [he, List.length_append, List.length_cons] at hq
    omega
  refine hset m j ⟨p', hlen', hm⟩ ?_
  rintro ⟨rfl, rfl⟩
  have hpp := hp p' p m hlen' hlen hm ha
  subst hpp
  exact hnot ⟨t, by simp [he]⟩

/-- An entry of the lowest level leads nowhere. -/
theorem node_leaf (hleaf : p.length = d) (hset : ∀ m j, InTree kid h r d m → ¬ (m = a ∧ j = i) → h' m j = h m j)
    (hq : q.length ≤ d) : node kid h' r q = node kid h r q := by
  refine node_other hp ha hlen hset (Nat.le_succ_of_le hq) fun hpre => ?_
  have := hpre.length_le
  simp only [List.length_append, List.length_singleton] at this
  omega

/-- A node `n` without children, put where there was none. -/
theorem node_grow (hkid : kid (h a i) = none) (hnew : kid (h' a i) = some n)
    (hset : ∀ m j, InTree kid h r d m → ¬ (m = a ∧ j = i) → h' m j = h m j) (hempty : ∀ j, kid (h' n j) = none)
    (hq : q.length ≤ d + 1) : (q = p ++ [i] ∧ node kid h' r q = some n) ∨
      (q ≠ p ++ [i] ∧ node kid h' r q = node kid h r q) := by
  by_cases hpre : p ++ [i] <+: q
  · obtain ⟨t, rfl⟩ := hpre
    have hpa : node kid h' r p = some a := by
      rw [node_other hp ha hlen hset (Nat.le_succ_of_le hlen), ha]
      intro hpp
      have := hpp.length_le
      simp only [List.length_append, List.length_singleton] at this
      omega
    have hi : node kid h' r (p ++ [i]) = some n := by
      rw [node_append, hpa]
      simp [node, hnew]
    cases t with
    | nil => exact .inl ⟨by simp, by simpa using hi⟩
    | cons j t =>
      refine .inr ⟨by simp, ?_⟩
      rw [node_append, hi, node_append, node_append, ha]
      simp [node, hempty, hkid]
  · refine .inr ⟨fun he => hpre (he ▸ List.prefix_refl _), ?_⟩
    exact node_other hp ha hlen hset hq hpre

theorem Proper.leaf (hleaf : p.length = d) (hset : ∀ m j, InTree kid h r d m → ¬ (m = a ∧ j = i) → h' m j = h m j) :
    Proper kid h' r d := by
  intro q q' n hq hq' hn hn'
  rw [node_leaf hp ha hlen hleaf hset hq] at hn
  rw [node_leaf hp ha hlen hleaf hset hq'] at hn'
  exact hp q q' n hq hq' hn hn'

theorem Proper.grow (hkid : kid (h a i) = none) (hnew : kid (h' a i) = some n) (hn : ¬ InTree kid h r d n)
    (hset : ∀ m j, InTree kid h r d m → ¬ (m = a ∧ j = i) → h' m j = h m j) (hempty : ∀ j, kid (h' n j) = none) :
    Proper kid h' r d := by
  intro q q' m hq hq' hm hm'
  rcases node_grow hp ha hlen hkid hnew hset hempty (Nat.le_succ_of_le hq) with ⟨he, hnode⟩ | ⟨-, hnode⟩ <;>
    rcases node_grow hp ha hlen hkid hnew hset hempty (Nat.le_succ_of_le hq') with ⟨he', hnode'⟩ | ⟨-, hnode'⟩ <;>
    rw [hnode] at hm <;> rw [hnode'] at hm'
  · rw [he, he']
  · cases hm
    exact absurd ⟨q', hq', hm'⟩ hn
  · cases hm'
    exact absurd ⟨q, hq, hm⟩ hn
  · exact hp q q' m hq hq' hm hm'

end

theorem Proper.of_same (hp : Proper kid h r d) (hsame : ∀ m, InTree kid h r d m → h' m = h m) :
    Proper kid h' r d := by
  intro q q' n hq hq' hn hn'
  rw [node_of_same hsame (Nat.le_succ_of_le hq)] at hn
  rw [node_of_same hsame (Nat.le_succ_of_le hq')] at hn'
  exact hp q q' n hq hq' hn hn'

/- The trees below a node. -/

section
variable {c c' : N} {j : I}

theorem inTree_zero : InTree kid h r 0 n ↔ n = r := by
  constructor
  · rintro ⟨p, hp, hn⟩
    cases List.eq_nil_of_length_eq_zero (Nat.le_zero.mp hp)
    exact (Option.some.inj hn).symm
  · rintro rfl
    exact ⟨[], Nat.le_refl 0, rfl⟩

theorem InTree.root : InTree kid h r d r := ⟨[], Nat.zero_le d, rfl⟩

theorem InTree.child (hc : kid (h r i) = some c) (hn : InTree kid h c d n) : InTree kid h r (d + 1) n := by
  obtain ⟨p, hp, hn⟩ := hn
  refine ⟨i :: p, Nat.succ_le_succ hp, ?_⟩
  rw [node, hc]
  exact hn

theorem inTree_succ : InTree kid h r (d + 1) n ↔ n = r ∨ ∃ i c, kid (h r i) = some c ∧ InTree kid h c d n := by
  constructor
  · rintro ⟨p, hp, hn⟩
    cases p with
    | nil => exact .inl (Option.some.inj hn).symm
    | cons i p =>
      rw [node, Option.bind_eq_some_iff] at hn
      obtain ⟨c, hc, hn⟩ := hn
      exact .inr ⟨i, c, hc, p, Nat.le_of_succ_le_succ hp, hn⟩
  · rintro (rfl | ⟨i, c, hc, hn⟩)
    · exact .root
    · exact .child hc hn

section
variable (hp : Proper kid h r (d + 1)) (hc : kid (h r i) = some c)
include hp hc

theorem Proper.child : Proper kid h c d := by
  intro p q n hlen hlen' hn hn'
  have hpq := hp (i :: p) (i :: q) n (Nat.succ_le_succ hlen) (Nat.succ_le_succ hlen') (by rw [node, hc]; exact hn)
    (by rw [node, hc]; exact hn')
  exact (List.cons.inj hpq).2

/-- The root is not below itself. -/
theorem Proper.not_below : ¬ InTree kid h c d r := by
  rintro ⟨p, hlen, hn⟩
  have hpq := hp (i :: p) [] r (Nat.succ_le_succ hlen) (Nat.zero_le _) (by rw [node, hc]; exact hn) rfl
  cases hpq

/-- Two children have no node in common. -/
theorem Proper.kids_disjoint (hc' : kid (h r j) = some c') (hij : i ≠ j) (hn : InTree kid h c d n) :
    ¬ InTree kid h c' d n := by
  rintro ⟨q, hlen', hn'⟩
  obtain ⟨p, hlen, hn⟩ := hn
  have hpq := hp (i :: p) (j :: q) n (Nat.succ_le_succ hlen) (Nat.succ_le_succ hlen') (by rw [node, hc]; exact hn)
    (by rw [node, hc']; exact hn')
  exact hij (List.cons.inj hpq).1

end
end

end Radix
