import Mathlib.Data.List.Nodup
import Xv6.Lib.Table

/-- The pointers of a circular doubly linked list; `none` is its head. -/
structure LinkRing (α : Type u) where
  next : Option α → Option α
  prev : Option α → Option α

namespace LinkRing
variable {α : Type u}

/-- The head points to itself. -/
def empty : LinkRing α := ⟨fun _ => none, fun _ => none⟩

/-- The list read backwards. -/
def flip (r : LinkRing α) : LinkRing α := ⟨r.prev, r.next⟩

section
variable [DecidableEq α]

def setNext (r : LinkRing α) (a b : Option α) : LinkRing α := { r with next := setAt r.next a b }
def setPrev (r : LinkRing α) (a b : Option α) : LinkRing α := { r with prev := setAt r.prev a b }

/-- `b` goes in between the head and the first node. -/
def pushFront (r : LinkRing α) (b : α) : LinkRing α :=
  let r := r.setNext (some b) (r.next none)
  let r := r.setPrev (some b) none
  let r := r.setPrev (r.next none) (some b)
  r.setNext none (some b)

/-- The neighbours of `b` point to each other. -/
def unlink (r : LinkRing α) (b : α) : LinkRing α :=
  let r := r.setPrev (r.next (some b)) (r.prev (some b))
  r.setNext (r.prev (some b)) (r.next (some b))

@[simp] theorem setNext_next (r : LinkRing α) (a b x : Option α) :
    (r.setNext a b).next x = if x = a then b else r.next x := rfl
@[simp] theorem setNext_prev (r : LinkRing α) (a b x : Option α) :
    (r.setNext a b).prev x = r.prev x := rfl
@[simp] theorem setPrev_next (r : LinkRing α) (a b x : Option α) :
    (r.setPrev a b).next x = r.next x := rfl
@[simp] theorem setPrev_prev (r : LinkRing α) (a b x : Option α) :
    (r.setPrev a b).prev x = if x = a then b else r.prev x := rfl

end

/-- From `a` the pointers lead through `l` to `z`, and back. -/
def Seg (r : LinkRing α) : Option α → List α → Option α → Prop
  | a, [], z => r.next a = z ∧ r.prev z = a
  | a, b :: l, z => r.next a = some b ∧ r.prev (some b) = a ∧ r.Seg (some b) l z

/-- The nodes of the ring, each once, in the order from the head on. -/
structure Is (r : LinkRing α) (l : List α) : Prop where
  seg : r.Seg none l none
  nodup : l.Nodup

/-- A segment depends on the pointers of its own nodes only. -/
theorem Seg.frame {r r' : LinkRing α} {a z : Option α} {l : List α} (h : r.Seg a l z)
    (hn : ∀ x ∈ a :: l.map some, r'.next x = r.next x)
    (hp : ∀ x ∈ l.map some ++ [z], r'.prev x = r.prev x) : r'.Seg a l z := by
  induction l generalizing a with
  | nil =>
    have h1 := hn a (by simp)
    have h2 := hp z (by simp)
    exact ⟨h1.trans h.1, h2.trans h.2⟩
  | cons b l ih =>
    obtain ⟨h1, h2, h3⟩ := h
    refine ⟨(hn a (by simp)).trans h1, (hp (some b) (by simp)).trans h2, ih h3 ?_ ?_⟩
    · intro x hx
      exact hn x (List.mem_cons_of_mem a hx)
    · intro x hx
      exact hp x (List.mem_cons_of_mem (some b) hx)

theorem seg_append {r : LinkRing α} {a z : Option α} {l k : List α} {b : α} :
    r.Seg a (l ++ b :: k) z ↔ r.Seg a l (some b) ∧ r.Seg (some b) k z := by
  induction l generalizing a with
  | nil => simp [Seg, and_assoc]
  | cons c l ih => simp [Seg, ih, and_assoc]

theorem Seg.flip {r : LinkRing α} {a z : Option α} {l : List α} (h : r.Seg a l z) :
    r.flip.Seg z l.reverse a := by
  induction l generalizing a with
  | nil => exact ⟨h.2, h.1⟩
  | cons b l ih =>
    obtain ⟨h1, h2, h3⟩ := h
    rw [List.reverse_cons]
    exact seg_append.mpr ⟨ih h3, h2, h1⟩

theorem Is.flip {r : LinkRing α} {l : List α} (h : r.Is l) : r.flip.Is l.reverse :=
  ⟨h.seg.flip, List.nodup_reverse.mpr h.nodup⟩

theorem Seg.next_mem {r : LinkRing α} {a z : Option α} {l : List α} (h : r.Seg a l z) :
    r.next a ∈ l.map some ++ [z] := by
  cases l with
  | nil => simp [h.1]
  | cons b l => simp [h.1]

theorem Seg.prev_mem {r : LinkRing α} {a z : Option α} {l : List α} (h : r.Seg a l z) :
    r.prev z ∈ a :: l.map some := by
  have := h.flip.next_mem
  simpa [LinkRing.flip, or_comm] using this

/-- Forth and back again. -/
theorem Seg.prev_next {r : LinkRing α} {a z : Option α} {l : List α} (h : r.Seg a l z) {x : Option α}
    (hx : x ∈ a :: l.map some) : r.prev (r.next x) = x := by
  induction l generalizing a with
  | nil =>
    obtain rfl : x = a := by simpa using hx
    rw [h.1, h.2]
  | cons b l ih =>
    obtain ⟨h1, h2, h3⟩ := h
    rcases List.mem_cons.mp hx with rfl | hx
    · rw [h1, h2]
    · exact ih h3 hx

theorem Is.prev_next {r : LinkRing α} {l : List α} (h : r.Is l) (hall : ∀ b, b ∈ l) (x : Option α) :
    r.prev (r.next x) = x := by
  refine h.seg.prev_next ?_
  cases x with
  | none => simp
  | some b => simpa using hall b

theorem Is.next_prev {r : LinkRing α} {l : List α} (h : r.Is l) (hall : ∀ b, b ∈ l) (x : Option α) :
    r.next (r.prev x) = x :=
  h.flip.prev_next (by simpa using hall) x

theorem is_empty : (empty : LinkRing α).Is [] := ⟨⟨rfl, rfl⟩, List.nodup_nil⟩

section
variable [DecidableEq α]

theorem Is.pushFront {r : LinkRing α} {l : List α} (h : r.Is l) {b : α} (hb : b ∉ l) :
    (r.pushFront b).Is (b :: l) := by
  refine ⟨?_, List.nodup_cons.mpr ⟨hb, h.nodup⟩⟩
  cases l with
  | nil =>
    have h1 : r.next none = none := h.seg.1
    simp [Seg, LinkRing.pushFront, h1]
  | cons c l =>
    obtain ⟨h1, h2, h3⟩ := h.seg
    have hbc : b ≠ c := fun he => hb (by simp [he])
    have hcb : c ≠ b := hbc.symm
    refine ⟨by simp [LinkRing.pushFront], by simp [LinkRing.pushFront, h1, hbc], ?_, ?_, ?_⟩
    · simp [LinkRing.pushFront, h1]
    · simp [LinkRing.pushFront, h1]
    · -- the rest is as it was
      refine h3.frame ?_ ?_
      · intro x hx
        cases x with
        | none => simp at hx
        | some d =>
          have hd : d ≠ b := by
            intro he
            subst he
            exact hb (by simpa using hx)
          simp [LinkRing.pushFront, hd]
      · intro x hx
        cases x with
        | none => simp [LinkRing.pushFront, h1]
        | some d =>
          have hdl : d ∈ l := by simpa using hx
          have hd : d ≠ b := fun he => hb (by simp [← he, hdl])
          have hdc : d ≠ c := fun he => (List.nodup_cons.mp h.nodup).1 (he ▸ hdl)
          simp [LinkRing.pushFront, h1, hd, hdc]

/-- Taking a node out of a segment with distinct nodes; the two ends may be one node. -/
theorem Seg.unlink {r : LinkRing α} {a z : Option α} {l k : List α} {b : α}
    (h : r.Seg a (l ++ b :: k) z) (hn : (a :: (l ++ b :: k).map some).Nodup)
    (hp : ((l ++ b :: k).map some ++ [z]).Nodup) : (r.unlink b).Seg a (l ++ k) z := by
  obtain ⟨hl, hk⟩ := seg_append.mp h
  induction l generalizing a with
  | nil =>
    obtain ⟨h1, h2⟩ := hl
    have hab : some b ≠ a := fun he => by simp [he] at hn
    have hz : r.next (some b) ≠ some b := by
      intro he
      have := hk.next_mem
      simp only [List.nil_append, List.map_cons, List.cons_append, List.nodup_cons] at hp
      exact hp.1 (he ▸ this)
    cases k with
    | nil =>
      obtain ⟨h3, h4⟩ := hk
      rw [h3] at hz
      exact ⟨by simp [LinkRing.unlink, h2, h3, hz.symm], by simp [LinkRing.unlink, h2, h3]⟩
    | cons c k =>
      obtain ⟨h3, h4, h5⟩ := hk
      rw [h3] at hz
      have hbc : b ≠ c := fun he => hz (by rw [he])
      refine ⟨by simp [LinkRing.unlink, h2, h3, hbc], by simp [LinkRing.unlink, h2, h3], ?_⟩
      refine h5.frame ?_ ?_
      · intro x hx
        have hxa : x ≠ a := by
          intro he
          subst he
          simp only [List.nil_append, List.map_cons, List.nodup_cons] at hn
          exact hn.1 (List.mem_cons_of_mem _ hx)
        simp [LinkRing.unlink, h2, h3, hbc, hxa]
      · intro x hx
        have hxc : x ≠ some c := by
          intro he
          subst he
          simp only [List.nil_append, List.map_cons, List.cons_append, List.nodup_cons] at hp
          exact hp.2.1 hx
        simp [LinkRing.unlink, h3, hxc]
  | cons x l ih =>
    obtain ⟨h1, h2, h3⟩ := hl
    have hn' := (List.nodup_cons.mp hn).2
    have hp' : ((l ++ b :: k).map some ++ [z]).Nodup := (List.nodup_cons.mp hp).2
    have hx : some x ∉ (l ++ b :: k).map some ++ [z] := (List.nodup_cons.mp hp).1
    have hrest := ih (seg_append.mpr ⟨h3, hk⟩) hn' hp' h3
    -- the nodes next to `b` are further on
    have hprev : r.prev (some b) ≠ a := by
      intro he
      have hm := he ▸ h3.prev_mem
      refine (List.nodup_cons.mp hn).1 ?_
      simp only [List.cons_append, List.map_cons, List.map_append]
      simp only [List.mem_cons, List.mem_append] at hm ⊢
      rcases hm with hm | hm
      · exact .inl hm
      · exact .inr (.inl hm)
    have hnext : r.next (some b) ≠ some x := by
      intro he
      have hm := he ▸ hk.next_mem
      refine hx ?_
      simp only [List.map_append, List.map_cons, List.append_assoc, List.cons_append,
        List.mem_append, List.mem_cons] at hm ⊢
      rcases hm with hm | hm
      · exact .inr (.inr (.inl hm))
      · exact .inr (.inr (.inr hm))
    have hself : r.next (some b) ≠ some b := by
      intro he
      have hm := he ▸ hk.next_mem
      have hb : ((b :: k).map some ++ [z]).Nodup := by
        rw [List.map_append, List.append_assoc] at hp'
        exact (List.nodup_append.mp hp').2.1
      exact (List.nodup_cons.mp hb).1 hm
    refine ⟨?_, ?_, hrest⟩
    · simp [LinkRing.unlink, hself.symm, hprev.symm, h1]
    · simp [LinkRing.unlink, hnext.symm, h2]

theorem Is.unlink {r : LinkRing α} {l : List α} (h : r.Is l) {b : α} (hb : b ∈ l) :
    (r.unlink b).Is (l.erase b) := by
  obtain ⟨l, k, rfl, hl⟩ := List.eq_append_cons_of_mem hb
  have herase : (l ++ b :: k).erase b = l ++ k := by
    rw [List.erase_append_right _ hl, List.erase_cons_head]
  have hmap : ((l ++ b :: k).map some).Nodup := h.nodup.map (fun _ _ he => Option.some.inj he)
  rw [herase]
  refine ⟨h.seg.unlink ?_ ?_, herase ▸ h.nodup.erase b⟩
  · exact List.nodup_cons.mpr ⟨by simp, hmap⟩
  · refine List.nodup_append.mpr ⟨hmap, by simp, ?_⟩
    intro x hx y hy
    obtain rfl : y = none := by simpa using hy
    rintro rfl
    simp at hx

theorem Is.pushAll {r : LinkRing α} {l : List α} (h : r.Is l) {k : List α} (hk : k.Nodup)
    (hd : ∀ b ∈ k, b ∉ l) : (k.foldl LinkRing.pushFront r).Is (k.reverse ++ l) := by
  induction k generalizing r l with
  | nil => exact h
  | cons b k ih =>
    obtain ⟨hb, hk⟩ := List.nodup_cons.mp hk
    have hr := ih (h.pushFront (hd b (by simp))) hk (by
      intro c hc
      have hcb : c ≠ b := fun he => hb (he ▸ hc)
      simp [hcb, hd c (by simp [hc])])
    simpa using hr

end

/-- The loop `for(b = f(head); b != head; b = f(b))` with a test, from the node `x` on; no answer
if it is not done after `n` rounds. -/
def find (f : Option α → Option α) (p : α → Bool) : Nat → Option α → Option (Option α)
  | 0, _ => none
  | _ + 1, none => some none
  | n + 1, some b => if p b then some (some b) else find f p n (f (some b))

theorem Seg.find {r : LinkRing α} {a : Option α} {l : List α} (h : r.Seg a l none) (p : α → Bool) {n : Nat}
    (hn : l.length < n) : LinkRing.find r.next p n (r.next a) = some (l.find? p) := by
  induction l generalizing a n with
  | nil =>
    cases n with
    | zero => simp at hn
    | succ n => simp [h.1, LinkRing.find]
  | cons b l ih =>
    obtain ⟨h1, -, h3⟩ := h
    cases n with
    | zero => simp at hn
    | succ n =>
      rw [h1]
      simp only [LinkRing.find, List.find?_cons]
      split
      · simp_all
      · rw [ih h3 (by simpa using hn)]
        simp_all

/-- The nodes met from `x` on until the head, at most `n` of them. -/
def follow (f : Option α → Option α) : Nat → Option α → List α
  | 0, _ => []
  | n + 1, x =>
    match f x with
    | none => []
    | some b => b :: follow f n (some b)

theorem Seg.follow {r : LinkRing α} {a : Option α} {l : List α} (h : r.Seg a l none) {n : Nat}
    (hn : l.length ≤ n) : LinkRing.follow r.next n a = l := by
  induction l generalizing a n with
  | nil =>
    cases n with
    | zero => rfl
    | succ n => simp [LinkRing.follow, h.1]
  | cons b l ih =>
    obtain ⟨h1, -, h3⟩ := h
    cases n with
    | zero => simp at hn
    | succ n => simp [LinkRing.follow, h1, ih h3 (by simpa using hn)]

end LinkRing
