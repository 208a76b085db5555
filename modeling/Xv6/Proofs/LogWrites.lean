import Xv6.Image
import Xv6.Proofs.Content
import Mathlib.Data.Finset.Card

namespace Xv6

/- The blocks that a call hands to log_write(). -/

def Cmd.written (β : Type) : Cmd β → Option Nat
  | .logWrite n => some n
  | _ => none

namespace Kern

/-- The arguments of log_write() in a run, in order. -/
def logWrites {α : Type} (p : ProcId) (m : KernM α) (fs : Fs) : List Nat := m.picks (Fs.run p) Cmd.written fs

/-- Only blocks in `L` are handed to log_write(). -/
def LogsIn {α : Type} (p : ProcId) (m : KernM α) (fs : Fs) (L : List Nat) : Prop :=
  ∀ n ∈ logWrites p m fs, n ∈ L

variable {p : ProcId} {fs : Fs} {L L' : List Nat} {α β : Type}

namespace LogsIn

theorem mono {m : KernM α} (h : LogsIn p m fs L) (hL : ∀ n ∈ L, n ∈ L') : LogsIn p m fs L' :=
  fun n hn => hL n (h n hn)

theorem bind {m : KernM α} {f : α → KernM β} (hm : LogsIn p m fs L)
    (hf : ∀ a fs', m.exec (Fs.run p) fs = .ok a fs' → LogsIn p (f a) fs' L) :
    LogsIn p (m >>= f) fs L := by
  intro n hn
  rw [logWrites, Free.picks_bind, List.mem_append] at hn
  rcases hn with hn | hn
  · exact hm n hn
  · cases he : m.exec (Fs.run p) fs with
    | ok a fs' =>
      rw [he] at hn
      exact hf a fs' he n hn
    | wait => rw [he] at hn; cases hn
    | fail e => rw [he] at hn; cases hn

theorem ite {c : Prop} [Decidable c] {m m' : KernM α} (ht : c → LogsIn p m fs L)
    (hf : ¬ c → LogsIn p m' fs L) : LogsIn p (if c then m else m') fs L := by
  split
  · exact ht ‹_›
  · exact hf ‹_›

theorem when {c : Prop} [Decidable c] {m : KernM Unit} (h : c → LogsIn p m fs L) :
    LogsIn p (when c m) fs L := .ite h (fun _ _ hn => nomatch hn)

end LogsIn

theorem logsIn_pure (a : α) : LogsIn p (pure a) fs L := fun _ hn => nomatch hn

/-- Every command but log_write(). -/
theorem logsIn_call {c : Cmd α} (h : c.written = none) : LogsIn p (Free.call c) fs L := by
  intro n hn
  rw [logWrites, Free.call, Free.picks, h] at hn
  cases hc : Fs.run p _ c fs with
  | ok a fs' => rw [hc] at hn; cases hn
  | wait => rw [hc] at hn; cases hn
  | fail e => rw [hc] at hn; cases hn

theorem logsIn_get (f : Mem → α) : LogsIn p (get f) fs L := logsIn_call rfl
theorem logsIn_update (f : Mem → Mem) : LogsIn p (update f) fs L := logsIn_call rfl
theorem logsIn_panic (e : Panic) : LogsIn p (panic e : KernM α) fs L := logsIn_call rfl
theorem logsIn_bdata (n : Nat) : LogsIn p (bdata n) fs L := logsIn_call rfl
theorem logsIn_bmodify (n : Nat) (d : Block) : LogsIn p (bmodify n d) fs L := logsIn_call rfl
theorem logsIn_brelse (n : Nat) : LogsIn p (brelse n) fs L := logsIn_call rfl
theorem logsIn_bread (n : Nat) : LogsIn p (bread n) fs L :=
  .bind (logsIn_call rfl) fun _ _ _ => logsIn_pure n

theorem logsIn_logWrite {n : Nat} (h : n ∈ L) : LogsIn p (logWrite n) fs L := by
  intro k hk
  rw [logWrites, logWrite, Free.call, Free.picks] at hk
  have hone : k ∈ [n] := by
    cases hc : Fs.run p _ (Cmd.logWrite n) fs with
    | ok a fs' => rw [hc] at hk; exact hk
    | wait => rw [hc] at hk; exact hk
    | fail e => rw [hc] at hk; exact hk
  rw [List.mem_singleton.mp hone]
  exact h

/-- Besides the blocks in `A` the run hands at most `k` blocks to log_write(); `Q` is about these
and about the end of the run. -/
def Spends (A : List Nat) (p : ProcId) (m : KernM α) (fs : Fs) (k : Nat) (Q : List Nat → α → Fs → Prop) : Prop :=
  ∃ L, L.length ≤ k ∧ LogsIn p m fs (A ++ L) ∧ ∀ a fs', m.exec (Fs.run p) fs = .ok a fs' → Q L a fs'

section Rules
variable {A : List Nat} {j k : Nat} {Q : List Nat → β → Fs → Prop}

theorem Spends.mono {m : KernM β} {Q' : List Nat → β → Fs → Prop} (h : Spends A p m fs k Q) (hk : k ≤ j)
    (hQ : ∀ L b fs', L.length ≤ k → Q L b fs' → Q' L b fs') : Spends A p m fs j Q' := by
  obtain ⟨L, hlen, hin, hq⟩ := h
  exact ⟨L, Nat.le_trans hlen hk, hin, fun b fs' he => hQ L b fs' hlen (hq b fs' he)⟩

theorem Spends.weaken {B : List Nat} {m : KernM β} (h : Spends A p m fs k Q) (hA : ∀ n ∈ A, n ∈ B) :
    Spends B p m fs k Q := by
  obtain ⟨L, hlen, hin, hq⟩ := h
  refine ⟨L, hlen, hin.mono fun n hn => ?_, hq⟩
  rcases List.mem_append.mp hn with hn | hn
  · exact List.mem_append_left _ (hA n hn)
  · exact List.mem_append_right _ hn

/-- A block that was left out is counted after all. -/
theorem Spends.count {a : Nat} {m : KernM β} (h : Spends [a] p m fs k (fun _ _ _ => True)) :
    Spends [] p m fs (k + 1) (fun _ _ _ => True) := by
  obtain ⟨L, hlen, hin, -⟩ := h
  exact ⟨a :: L, Nat.succ_le_succ hlen, hin, fun _ _ _ => trivial⟩

theorem spends_pure {b : β} (h : Q [] b fs) : Spends A p (pure b) fs k Q := by
  refine ⟨[], Nat.zero_le _, logsIn_pure b, fun b' fs' he => ?_⟩
  cases he
  exact h

/-- The second part may hand to log_write() what the first has left of `k` blocks. -/
theorem Spends.bind {m : KernM α} {f : α → KernM β} {P : List Nat → α → Fs → Prop} (hm : Spends A p m fs j P)
    (hk : j ≤ k) (hf : ∀ L a fs', L.length ≤ j → P L a fs' →
      Spends (A ++ L) p (f a) fs' (k - L.length) (fun L' b u => Q (L ++ L') b u)) :
    Spends A p (m >>= f) fs k Q := by
  obtain ⟨L, hlen, hin, hp⟩ := hm
  cases he : m.exec (Fs.run p) fs with
  | ok a fs' =>
    obtain ⟨L', hlen', hin', hq⟩ := hf L a fs' hlen (hp a fs' he)
    refine ⟨L ++ L', by rw [List.length_append]; omega, .bind (hin.mono ?_) fun a' fs'' he' => ?_, ?_⟩
    · intro n hn
      rw [← List.append_assoc]
      exact List.mem_append_left _ hn
    · cases he.symm.trans he'
      rw [← List.append_assoc]
      exact hin'
    · intro b u hb
      exact hq b u ((Free.exec_seq he).symm.trans hb)
  | wait =>
    refine ⟨L, by omega, .bind hin fun a' fs'' he' => (by cases he.symm.trans he'), fun b u hb => ?_⟩
    rw [Free.exec_bind, he] at hb
    cases hb
  | fail e =>
    refine ⟨L, by omega, .bind hin fun a' fs'' he' => (by cases he.symm.trans he'), fun b u hb => ?_⟩
    rw [Free.exec_bind, he] at hb
    cases hb

/-- A first part that logs nothing. -/
theorem Spends.after {m : KernM α} {f : α → KernM β} (hm : LogsIn p m fs [])
    (hf : ∀ a fs', m.exec (Fs.run p) fs = .ok a fs' → Spends A p (f a) fs' k Q) :
    Spends A p (m >>= f) fs k Q := by
  have h : Spends A p m fs 0 (fun L a fs' => L = [] ∧ m.exec (Fs.run p) fs = .ok a fs') :=
    ⟨[], Nat.zero_le _, hm.mono (by simp), fun a fs' he => ⟨rfl, he⟩⟩
  refine h.bind (Nat.zero_le k) fun L a fs' _ hL => ?_
  obtain ⟨rfl, he⟩ := hL
  rw [List.append_nil]
  exact hf a fs' he

theorem spends_ite {c : Prop} [Decidable c] {m m' : KernM β} (ht : c → Spends A p m fs k Q)
    (hf : ¬ c → Spends A p m' fs k Q) : Spends A p (if c then m else m') fs k Q := by
  split
  · exact ht ‹_›
  · exact hf ‹_›

theorem spends_get {g : Mem → α} {f : α → KernM β} (h : Spends A p (f (g fs.mem)) fs k Q) :
    Spends A p (get g >>= f) fs k Q := by
  refine .after (logsIn_get g) fun a fs' he => ?_
  cases he
  exact h

theorem spends_bread {n : Nat} {f : Nat → KernM β}
    (h : ∀ st, fs.st.Apart n st → Spends A p (f n) { fs with st := st } k Q) :
    Spends A p (bread n >>= f) fs k Q := by
  refine .after (logsIn_bread n) fun bp fs' he => ?_
  have hspec : (bread n).Ensures (Fs.run p) (fun _ => True)
      (fun bp fs' => bp = n ∧ ∃ st, fs.st.Apart n st ∧ fs' = { fs with st := st }) fs :=
    ensures_bread fun st hs => ⟨rfl, st, hs, rfl⟩
  obtain ⟨rfl, st, hs, rfl⟩ := hspec.ok_of_exec he
  exact h st hs

theorem spends_bread_calm {n : Nat} {f : Nat → KernM β} (hc : fs.st.cur n = fs.st.logged n)
    (h : ∀ st, fs.st.Same st → Spends A p (f n) { fs with st := st } k Q) :
    Spends A p (bread n >>= f) fs k Q := by
  refine .after (logsIn_bread n) fun bp fs' he => ?_
  have hspec : (bread n).Ensures (Fs.run p) (fun _ => True)
      (fun bp fs' => bp = n ∧ ∃ st, fs.st.Same st ∧ fs' = { fs with st := st }) fs :=
    ensures_bread_calm hc fun st hs => ⟨rfl, st, hs, rfl⟩
  obtain ⟨rfl, st, hs, rfl⟩ := hspec.ok_of_exec he
  exact h st hs

theorem spends_bdata {n : Nat} {f : Block → KernM β} (h : Spends A p (f (fs.st.cur n)) fs k Q) :
    Spends A p (bdata n >>= f) fs k Q := by
  refine .after (logsIn_bdata n) fun d fs' he => ?_
  cases he
  exact h

theorem spends_bmodify {n : Nat} {d : Block} {f : Unit → KernM β}
    (h : ∀ st, Spends A p (f ()) { fs with st := st } k Q) : Spends A p (bmodify n d >>= f) fs k Q := by
  refine .after (logsIn_bmodify n d) fun _ fs' he => ?_
  cases he
  exact h _

theorem spends_brelse {n : Nat} {f : Unit → KernM β}
    (h : ∀ st, Spends A p (f ()) { fs with st := st } k Q) : Spends A p (brelse n >>= f) fs k Q := by
  refine .after (logsIn_brelse n) fun _ fs' he => ?_
  cases he
  exact h _

theorem spends_brelse_last {n : Nat} {Q : List Nat → Unit → Fs → Prop}
    (h : ∀ st, Q [] () { fs with st := st }) : Spends A p (brelse n) fs k Q := by
  refine ⟨[], Nat.zero_le _, logsIn_brelse n, fun _ fs' he => ?_⟩
  cases he
  exact h _

theorem logWrite_ok {n : Nat} {fs' : Fs} {a : Unit} (he : (logWrite n).exec (Fs.run p) fs = .ok a fs') :
    ∃ st, fs' = { fs with st := st } := by
  have hspec : (logWrite n).Ensures (Fs.run p) (fun _ => True) (fun _ fs' => ∃ st, fs' = { fs with st := st }) fs :=
    ensures_logWrite (fun _ _ _ _ _ => trivial) fun st _ _ => ⟨st, rfl⟩
  exact hspec.ok_of_exec he

theorem spends_logWrite {n : Nat} {f : Unit → KernM β}
    (h : ∀ st, Spends (A ++ [n]) p (f ()) { fs with st := st } k (fun L b u => Q (n :: L) b u)) :
    Spends A p (logWrite n >>= f) fs (k + 1) Q := by
  have hone : Spends A p (logWrite n) fs 1 (fun L _ fs' => L = [n] ∧ ∃ st, fs' = { fs with st := st }) :=
    ⟨[n], Nat.le_refl _, logsIn_logWrite (by simp), fun _ fs' he => ⟨rfl, logWrite_ok he⟩⟩
  refine hone.bind (Nat.le_add_left 1 k) fun L _ fs' _ hL => ?_
  obtain ⟨rfl, st, rfl⟩ := hL
  exact h st

/-- A block that has been counted. -/
theorem spends_logWrite_again {n : Nat} {f : Unit → KernM β} (hn : n ∈ A)
    (h : ∀ st, Spends A p (f ()) { fs with st := st } k Q) : Spends A p (logWrite n >>= f) fs k Q := by
  have hone : Spends A p (logWrite n) fs 0 (fun L _ fs' => L = [] ∧ ∃ st, fs' = { fs with st := st }) :=
    ⟨[], Nat.zero_le _, logsIn_logWrite (by simpa using hn), fun _ fs' he => ⟨rfl, logWrite_ok he⟩⟩
  refine hone.bind (Nat.zero_le k) fun L _ fs' _ hL => ?_
  obtain ⟨rfl, st, rfl⟩ := hL
  rw [List.append_nil]
  exact h st

end Rules

/- The functions that writei() is made of. -/

section Functions
variable {A : List Nat} {ip : InodePtr}

theorem spends_bzero (b : Nat) :
    Spends A p (bzero b) fs 1 (fun L _ fs' => L = [b] ∧ fs'.mem = fs.mem) := by
  refine spends_bread fun st _ => spends_bmodify fun st => spends_logWrite fun st => ?_
  exact spends_brelse_last fun st => ⟨rfl, rfl⟩

/-- One bitmap block and the new block. -/
theorem spends_ballocFrom (sb : Superblock) (fuel b : Nat) :
    Spends A p (ballocFrom sb fuel b) fs 2 (fun L r fs' => fs'.mem = fs.mem ∧ (r ≠ 0 → r ∈ L)) := by
  induction fuel generalizing b fs with
  | zero => exact spends_pure ⟨rfl, fun h => absurd rfl h⟩
  | succ fuel ih =>
    refine spends_ite (fun _ => ?_) (fun _ => spends_pure ⟨rfl, fun h => absurd rfl h⟩)
    refine spends_bread fun st _ => spends_bdata ?_
    split
    · refine spends_bmodify fun st => spends_logWrite fun st => spends_brelse fun st => ?_
      refine (spends_bzero _).bind (Nat.le_refl 1) fun L _ fs' _ hL => spends_pure ?_
      exact ⟨hL.2, fun _ => by simp [hL.1]⟩
    · exact spends_brelse fun st => ih _

theorem spends_balloc :
    Spends A p balloc fs 2 (fun L r fs' => fs'.mem = fs.mem ∧ (r ≠ 0 → r ∈ L)) :=
  spends_get (spends_ballocFrom _ _ _)

/-- The blocks of a new entry of the indirect block `a`. -/
theorem spends_bmapIndirect {a : Nat} (ha : a ∈ A) (bn : Nat) :
    Spends A p (bmapIndirect a bn) fs 2 (fun L r fs' => fs'.mem = fs.mem ∧ (r ≠ 0 → L = [] ∨ r ∈ L)) := by
  refine spends_bread fun st _ => spends_bdata (spends_ite (fun _ => ?_) (fun _ => ?_))
  · refine spends_balloc.bind (Nat.le_refl 2) fun L r fs' _ hL => ?_
    refine Spends.bind (j := 0) (P := fun L' _ u => L' = [] ∧ u.mem = fs'.mem) ?_ (Nat.zero_le _)
      fun L' _ u _ hL' => ?_
    · refine spends_ite (fun _ => ?_) (fun _ => spends_pure ⟨rfl, rfl⟩)
      refine spends_bmodify fun st => ?_
      refine spends_logWrite_again (f := pure) (List.mem_append_left _ ha) fun st => ?_
      exact spends_pure ⟨rfl, rfl⟩
    · refine spends_brelse fun st => spends_pure ?_
      rw [hL'.1, List.append_nil, List.append_nil]
      exact ⟨hL'.2.trans hL.1, fun hr => .inr (hL.2 hr)⟩
  · exact spends_brelse fun st => spends_pure ⟨rfl, fun _ => .inl rfl⟩

def addrsOf (ip : InodePtr) (fs : Fs) : List Nat := (fs.mem.inode ip).copy.addrs

/-- The address of the indirect block in the in-memory inode. -/
def indirectOf (ip : InodePtr) (fs : Fs) : Nat := (addrsOf ip fs).getD NDIRECT 0

theorem addrsOf_setAddr {k b : Nat} {a : Unit} {fs' : Fs}
    (he : (setAddr ip k b).exec (Fs.run p) fs = .ok a fs') : addrsOf ip fs' = (addrsOf ip fs).set k b := by
  cases he
  simp only [addrsOf, setInode_same]

/-- A direct block: at most a bitmap block and the block itself. -/
theorem spends_bmap_direct {bn : Nat} (hbn : bn < NDIRECT) :
    Spends A p (bmap ip bn) fs 2 (fun L r fs' => indirectOf ip fs' = indirectOf ip fs ∧
      (addrsOf ip fs').length = (addrsOf ip fs).length ∧ (r ≠ 0 → L = [] ∨ r ∈ L)) := by
  unfold bmap
  rw [if_pos hbn]
  refine spends_get (spends_ite (fun _ => ?_) (fun _ => spends_pure ⟨rfl, rfl, fun _ => .inl rfl⟩))
  refine spends_balloc.bind (Nat.le_refl 2) fun L r fs' _ hL => ?_
  have hmem : addrsOf ip fs' = addrsOf ip fs := by rw [addrsOf, hL.1, addrsOf]
  refine .after (.when fun _ => logsIn_update _) fun _ fs'' he => spends_pure ?_
  rw [List.append_nil, indirectOf, indirectOf]
  unfold Kern.when at he
  split at he
  · rw [addrsOf_setAddr he, hmem, List.getD, List.getElem?_set_ne (Nat.ne_of_lt hbn), List.length_set]
    exact ⟨rfl, rfl, fun hr => .inr (hL.2 hr)⟩
  · cases he
    rw [hmem]
    exact ⟨rfl, rfl, fun hr => .inr (hL.2 hr)⟩

/-- A block of a file whose indirect block is there and counted. -/
theorem spends_bmap (ha : indirectOf ip fs ∈ A) (hne : indirectOf ip fs ≠ 0) (bn : Nat) :
    Spends A p (bmap ip bn) fs 2 (fun L r fs' => indirectOf ip fs' = indirectOf ip fs ∧
      (r ≠ 0 → L = [] ∨ r ∈ L)) := by
  by_cases hbn : bn < NDIRECT
  · exact (spends_bmap_direct hbn).mono (Nat.le_refl 2) fun L r fs' _ hL => ⟨hL.1, hL.2.2⟩
  · unfold bmap
    rw [if_neg hbn]
    refine spends_ite (fun _ => spends_get (spends_ite (fun hz => absurd hz hne) (fun _ => ?_))) (fun _ => ?_)
    · refine (spends_bmapIndirect ha _).mono (Nat.le_refl 2) fun L r fs' _ hL => ?_
      exact ⟨by rw [indirectOf, addrsOf, hL.1, indirectOf, addrsOf], hL.2⟩
    · exact ⟨[], Nat.zero_le _, logsIn_panic _, fun r fs' he => by cases he⟩

/-- A block of a file without indirect block, which may have to be allocated first. -/
theorem spends_bmap_first (hlen : (addrsOf ip fs).length = NDIRECT + 1) (hz : indirectOf ip fs = 0) (bn : Nat) :
    Spends A p (bmap ip bn) fs 4 (fun L r fs' => r ≠ 0 →
      (indirectOf ip fs' = 0 ∧ (addrsOf ip fs').length = NDIRECT + 1 ∧ (L = [] ∨ L.length ≤ 2 ∧ r ∈ L)) ∨
      (indirectOf ip fs' ≠ 0 ∧ indirectOf ip fs' ∈ L ∧ (L.length ≤ 2 ∨ r ∈ L))) := by
  by_cases hbn : bn < NDIRECT
  · refine (spends_bmap_direct hbn).mono (by omega) fun L r fs' hl hL hr => .inl ?_
    exact ⟨hL.1.trans hz, hL.2.1.trans hlen, (hL.2.2 hr).imp id (fun h => ⟨hl, h⟩)⟩
  · unfold bmap
    rw [if_neg hbn]
    refine spends_ite (fun _ => spends_get (spends_ite (fun _ => ?_) (fun hne => absurd hz hne))) (fun _ => ?_)
    · refine spends_balloc.bind (by omega) fun L a fs' hl hL => ?_
      refine spends_ite (fun _ => spends_pure fun h => absurd rfl h) (fun ha => ?_)
      refine .after (logsIn_update _) fun _ fs'' he => ?_
      have hin : a ∈ A ++ L := List.mem_append_right _ (hL.2 ha)
      have haddr : addrsOf ip fs'' = (addrsOf ip fs).set NDIRECT a := by
        rw [addrsOf_setAddr he, addrsOf, hL.1, addrsOf]
      refine (spends_bmapIndirect hin _).mono (by omega) fun L' r u _ hL' hr => .inr ?_
      have hind : indirectOf ip u = a := by
        rw [indirectOf, addrsOf, hL'.1, ← addrsOf, haddr, List.getD, List.getElem?_set_self (by omega)]
        rfl
      rw [hind]
      refine ⟨ha, List.mem_append_left _ (hL.2 ha), ?_⟩
      rcases hL'.2 hr with rfl | hr
      · exact .inl (by simpa using hl)
      · exact .inr (List.mem_append_right _ hr)
    · exact ⟨[], Nat.zero_le _, logsIn_panic _, fun r fs' he => by cases he⟩

/-- A block that is there. -/
theorem spends_bmap_there {bn : Nat} (hb : (fs.mem.inode ip).copy.block fs.st.cur bn ≠ 0)
    (hc : indirectOf ip fs ≠ 0 → fs.st.cur (indirectOf ip fs) = fs.st.logged (indirectOf ip fs)) :
    Spends A p (bmap ip bn) fs 0 (fun _ _ fs' => fs'.mem = fs.mem) := by
  unfold bmap
  refine spends_ite (fun hbn => spends_get (spends_ite (fun hz => ?_) (fun _ => spends_pure rfl)))
    (fun hbn => spends_ite (fun hj => spends_get (spends_ite (fun hz => ?_) (fun hne => ?_))) (fun _ => ?_))
  · rw [Dinode.block, posOf, if_pos hbn, Dinode.ptr, if_pos (Nat.le_of_lt hbn)] at hb
    exact absurd hz hb
  · rw [Dinode.block, posOf, if_neg hbn, Dinode.ptr, if_neg (by omega), if_neg (fun h => h.1 hz)] at hb
    exact absurd rfl hb
  · have hsub : bn + 1 - (NDIRECT + 1) = bn - NDIRECT := by omega
    rw [Dinode.block, posOf, if_neg hbn, Dinode.ptr, if_neg (by omega), hsub, if_pos ⟨hne, hj⟩] at hb
    refine spends_bread_calm (hc hne) fun st hs => spends_bdata (spends_ite (fun hw => ?_) (fun _ => ?_))
    · rw [hs.cur] at hw
      exact absurd hw hb
    · exact spends_brelse fun st => spends_pure rfl
  · exact ⟨[], Nat.zero_le _, logsIn_panic _, fun r fs' he => by cases he⟩

theorem spends_iupdate (ip : InodePtr) : Spends A p (iupdate ip) fs 1 (fun _ _ _ => True) := by
  refine spends_get (spends_get (spends_bread fun st _ => spends_bdata (spends_bmodify fun st => ?_)))
  exact spends_logWrite fun st => spends_brelse_last fun st => trivial

/-- The blocks that `n` bytes at `off` are in. -/
def turns (off n : Nat) : Nat := if n = 0 then 0 else (off % BSIZE + n - 1) / BSIZE + 1

theorem turns_step (off : Nat) {n : Nat} (hn : 0 < n) : turns off n =
    turns (off + min n (BSIZE - off % BSIZE)) (n - min n (BSIZE - off % BSIZE)) + 1 := by
  have hB : BSIZE = 1024 := rfl
  unfold turns
  rw [hB, if_neg (by omega)]
  by_cases hle : n ≤ 1024 - off % 1024
  · rw [if_pos (by omega)]
    omega
  · rw [if_neg (by omega)]
    omega

/-- The end of a turn of the loop of writei(), with block `addr`. -/
def fillBlock (src : Src) (addr tot off m : Nat) (rest : KernM (Nat × Nat)) : KernM (Nat × Nat) := do
  let bp ← bread addr
  let d ← bdata bp
  bmodify bp (d.put (off % BSIZE) (src.copyin tot m).1)
  if (src.copyin tot m).2 then
    logWrite bp
    brelse bp
    rest
  else
    brelse bp
    return (tot, off)

theorem writeiLoop_succ (src : Src) (n fuel tot off : Nat) : writeiLoop ip src n (fuel + 1) tot off =
    if tot < n then bmap ip (off / BSIZE) >>= fun addr =>
      if addr = 0 then return (tot, off)
      else
        fillBlock src addr tot off (min (n - tot) (BSIZE - off % BSIZE)) (writeiLoop ip src n fuel
          (tot + min (n - tot) (BSIZE - off % BSIZE)) (off + min (n - tot) (BSIZE - off % BSIZE)))
    else return (tot, off) := rfl

/-- A turn logs its data block, unless that has been counted. -/
theorem spends_fillBlock {src : Src} {addr tot off m : Nat} {rest : KernM (Nat × Nat)} {k : Nat}
    (hr : ∀ B st, (∀ n ∈ A, n ∈ B) → Spends B p rest { fs with st := st } k (fun _ _ _ => True))
    {l : Nat} (hl : addr ∈ A ∧ k ≤ l ∨ k + 1 ≤ l) :
    Spends A p (fillBlock src addr tot off m rest) fs l (fun _ _ _ => True) := by
  refine spends_bread fun st _ => spends_bdata (spends_bmodify fun st => spends_ite (fun _ => ?_) (fun _ => ?_))
  · rcases hl with ⟨hin, hl⟩ | hl
    · refine spends_logWrite_again hin fun st => spends_brelse fun st => ?_
      exact (hr A st (fun _ h => h)).mono hl (fun _ _ _ _ h => h)
    · refine Spends.mono (spends_logWrite fun st => spends_brelse fun st => ?_) hl (fun _ _ _ _ h => h)
      exact hr _ st (fun n hn => List.mem_append_left _ hn)
  · exact spends_brelse fun st => spends_pure trivial

/-- Two blocks for each turn, if the indirect block is there and counted. -/
theorem spends_writeiLoop {src : Src} {n : Nat} (fuel tot off : Nat) (ha : indirectOf ip fs ∈ A)
    (hne : indirectOf ip fs ≠ 0) :
    Spends A p (writeiLoop ip src n fuel tot off) fs (2 * turns off (n - tot)) (fun _ _ _ => True) := by
  induction fuel generalizing A fs tot off with
  | zero => exact spends_pure trivial
  | succ fuel ih =>
    rw [writeiLoop_succ]
    refine spends_ite (fun hlt => ?_) (fun _ => spends_pure trivial)
    rw [turns_step _ (show 0 < n - tot by omega)]
    refine (spends_bmap ha hne _).bind (by omega) fun L addr fs' hlen hL => ?_
    refine spends_ite (fun _ => spends_pure trivial) (fun haddr => ?_)
    refine spends_fillBlock (fun B st hB => ?_) (k := 2 * turns (off + min (n - tot) (BSIZE - off % BSIZE))
      (n - tot - min (n - tot) (BSIZE - off % BSIZE))) ?_
    · have hind : indirectOf ip { fs' with st := st } = indirectOf ip fs := hL.1
      rw [Nat.sub_sub]
      exact ih _ _ (by rw [hind]; exact hB _ (List.mem_append_left _ ha)) (by rw [hind]; exact hne)
    · rcases hL.2 haddr with rfl | hin
      · exact .inr (by rw [List.length_nil]; omega)
      · exact .inl ⟨List.mem_append_right _ hin, by omega⟩

/-- And two more if it may have to be allocated. -/
theorem spends_writeiLoop_first {src : Src} {n : Nat} (fuel tot off : Nat)
    (hlen : (addrsOf ip fs).length = NDIRECT + 1) (hz : indirectOf ip fs = 0) :
    Spends A p (writeiLoop ip src n fuel tot off) fs (2 * turns off (n - tot) + 2) (fun _ _ _ => True) := by
  induction fuel generalizing A fs tot off with
  | zero => exact spends_pure trivial
  | succ fuel ih =>
    rw [writeiLoop_succ]
    refine spends_ite (fun hlt => ?_) (fun _ => spends_pure trivial)
    rw [turns_step _ (show 0 < n - tot by omega)]
    refine (spends_bmap_first hlen hz _).bind (by omega) fun L addr fs' hl hL => ?_
    refine spends_ite (fun _ => spends_pure trivial) (fun haddr => ?_)
    rcases hL haddr with ⟨hz', hlen', hL⟩ | ⟨hne, hin, hL⟩
    · refine spends_fillBlock (fun B st _ => ?_) (k := 2 * turns (off + min (n - tot) (BSIZE - off % BSIZE))
        (n - tot - min (n - tot) (BSIZE - off % BSIZE)) + 2) ?_
      · rw [Nat.sub_sub]
        exact ih _ _ hlen' hz'
      · rcases hL with rfl | ⟨hl, hin⟩
        · exact .inr (by rw [List.length_nil]; omega)
        · exact .inl ⟨List.mem_append_right _ hin, by omega⟩
    · refine spends_fillBlock (fun B st hB => ?_) (k := 2 * turns (off + min (n - tot) (BSIZE - off % BSIZE))
        (n - tot - min (n - tot) (BSIZE - off % BSIZE))) ?_
      · rw [Nat.sub_sub]
        exact spends_writeiLoop _ _ _ (hB _ (List.mem_append_right _ hin)) hne
      · rcases hL with hl | hin
        · exact .inr (by omega)
        · exact .inl ⟨List.mem_append_right _ hin, by omega⟩

/-- The in-memory inode is one of a file without holes. -/
structure Solid (ip : InodePtr) (fs : Fs) : Prop where
  length : (addrsOf ip fs).length = NDIRECT + 1
  full : ∀ bn, bn * BSIZE < (fs.mem.inode ip).copy.size → (fs.mem.inode ip).copy.block fs.st.cur bn ≠ 0
  calm : indirectOf ip fs ≠ 0 → fs.st.cur (indirectOf ip fs) = fs.st.logged (indirectOf ip fs)

theorem spends_writeiLoop_any {src : Src} {n : Nat} (fuel tot off : Nat)
    (hlen : (addrsOf ip fs).length = NDIRECT + 1) :
    Spends [] p (writeiLoop ip src n fuel tot off) fs (2 * turns off (n - tot) + 2) (fun _ _ _ => True) := by
  by_cases hz : indirectOf ip fs = 0
  · exact spends_writeiLoop_first _ _ _ hlen hz
  · exact (spends_writeiLoop _ _ _ List.mem_cons_self hz).count.mono (by omega) (fun _ _ _ _ h => h)

/-- An offset inside a block is in a block that is there. -/
theorem Solid.spends_loop (h : Solid ip fs) (src : Src) {off n : Nat} (hoff : off ≤ (fs.mem.inode ip).copy.size)
    (hn : n ≤ 3072) : Spends [] p (writeiLoop ip src n n 0 off) fs 9 (fun _ _ _ => True) := by
  have hB : BSIZE = 1024 := rfl
  have hmod := Nat.mod_lt off (show BSIZE > 0 by decide)
  by_cases hpos : n = 0
  · subst hpos
    exact spends_pure trivial
  · by_cases haligned : off % BSIZE = 0
    · refine (spends_writeiLoop_any _ _ _ h.length).mono ?_ (fun _ _ _ _ h => h)
      rw [Nat.sub_zero, turns, if_neg hpos, haligned, hB]
      omega
    · obtain ⟨fuel, hfuel⟩ := Nat.exists_eq_succ_of_ne_zero hpos
      have hthere : (fs.mem.inode ip).copy.block fs.st.cur (off / BSIZE) ≠ 0 := by
        apply h.full
        have := Nat.div_add_mod off BSIZE
        rw [hB] at *
        omega
      have hT := turns_step off (Nat.pos_of_ne_zero hpos)
      have hle : turns off n ≤ 4 := by
        rw [turns, if_neg hpos, hB]
        rw [hB] at hmod
        omega
      have hone := congrArg (fun m => writeiLoop ip src n m 0 off) hfuel
      rw [show writeiLoop ip src n n 0 off = writeiLoop ip src n (fuel + 1) 0 off from hone, writeiLoop_succ, if_pos (Nat.pos_of_ne_zero hpos), Nat.sub_zero, Nat.zero_add]
      refine (spends_bmap_there hthere h.calm).bind (Nat.zero_le 9) fun L addr fs' hlen hm => ?_
      obtain rfl := List.eq_nil_of_length_eq_zero (Nat.le_zero.mp hlen)
      refine spends_ite (fun _ => spends_pure trivial) (fun _ => ?_)
      refine spends_fillBlock (fun B st _ => ?_) (.inr (Nat.le_refl 9))
      refine ((spends_writeiLoop_any _ _ _ ?_).mono ?_ (fun _ _ _ _ h => h)).weaken (by simp)
      · rw [addrsOf, hm]
        exact h.length
      · omega

/-- A call of writei() by filewrite() logs no more than begin_op() has reserved. -/
theorem Solid.spends_writei (h : Solid ip fs) (src : Src) (off : Nat) {n : Nat} (hn : n ≤ 3072) :
    Spends [] p (writei ip src off n) fs 10 (fun _ _ _ => True) := by
  refine spends_get (spends_ite (fun _ => spends_pure trivial) (fun hoff => spends_ite (fun _ => spends_pure trivial)
    (fun _ => ?_)))
  refine (h.spends_loop src (by omega) hn).bind (by omega) fun L r fs' hlen _ => ?_
  refine .after (logsIn_update _) fun _ fs'' _ => ?_
  refine (spends_iupdate ip).bind (by omega) fun L' _ u _ _ => spends_pure trivial

end Functions

/-- Whatever blocks balloc() finds, and wherever it finds none, a call of writei() by filewrite() for
a file without holes hands at most ten different blocks to log_write(). -/
theorem write_fits_reservation {ip : InodePtr} (h : Solid ip fs) (src : Src) (off : Nat) {n : Nat}
    (hn : (n : Int) ≤ maxWrite) : (logWrites p (writei ip src off n) fs).toFinset.card ≤ MAXOPBLOCKS := by
  have hle : n ≤ 3072 := by
    have : maxWrite = 3072 := rfl
    omega
  obtain ⟨L, hlen, hin, -⟩ := h.spends_writei (p := p) src off hle
  calc (logWrites p (writei ip src off n) fs).toFinset.card
      ≤ L.toFinset.card := Finset.card_le_card fun b hb => List.mem_toFinset.mpr (hin b (List.mem_toFinset.mp hb))
    _ ≤ L.length := List.toFinset_card_le L
    _ ≤ MAXOPBLOCKS := hlen

/-- The file system of one file, of eight bytes, whose inode has been read. -/
def eightBytes : Fs :=
  let fs := Fs.boot mkfsSb fileImage
  { fs with mem := fs.mem.setInode 0 (fun i =>
      { i with inum := 2, valid := true, copy := ⟨T_FILE, 0, 0, 1, 8, 47 :: List.replicate NDIRECT 0⟩ }) }

/-- A whole chunk from the middle of the first block on. -/
theorem write_fits_reservation_unaligned : (8 : Nat) ≤ (eightBytes.mem.inode 0).copy.size ∧
    (logWrites 0 (writei 0 (.kernel (List.replicate 3072 1)) 8 3072) eightBytes).toFinset.card ≤ MAXOPBLOCKS := by
  refine ⟨by decide, write_fits_reservation ⟨rfl, fun bn hbn => ?_, fun h => absurd rfl h⟩ _ 8 (by decide)⟩
  have hB : BSIZE = 1024 := rfl
  have hsize : (eightBytes.mem.inode 0).copy.size = 8 := rfl
  obtain rfl : bn = 0 := by
    rw [hsize, hB] at hbn
    omega
  decide

end Kern
end Xv6
