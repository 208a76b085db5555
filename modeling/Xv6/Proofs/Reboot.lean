import Xv6.Proofs.Accounts
import Xv6.Proofs.Balance
import Xv6.Proofs.InodeTable

namespace Xv6
variable {p : ProcId} {sb : Superblock} {disk cur logged : Disk} {N N' : Nat → Node} {t : Holders} {fs : Fs}

theorem BetweenCalls.step {e : Event} {fs' : Fs} (h : BetweenCalls fs) (he : fs.step e = some fs') : BetweenCalls fs' := by
  obtain ⟨-, r, hexec⟩ := Fs.step_some he
  exact h.exec hexec

/-- Whatever the disk holds, and whatever calls are made: between two calls no buffer is locked, no operation is under way, and
nothing waits in the log. -/
theorem calls_settle_accounts (hr : Reaches Fs.step (Fs.boot sb disk) fs) :
    fs.st.held = [] ∧ fs.st.outstanding = 0 ∧ fs.st.lh = [] := by
  have hbetween : BetweenCalls fs := hr.invariant (boot_betweenCalls sb disk) fun _ _ _ h he => h.step he
  exact ⟨hbetween.held, hbetween.outstanding, hbetween.lh⟩

set_option maxRecDepth 100000 in
/-- A chmod() of a file, and its removal. -/
theorem calls_settle_accounts_chmod : ∃ fs, Reaches Fs.step (Fs.boot mkfsSb fileImage) fs ∧ (fs.node 2).type = 0 ∧
    fs.st.held = [] ∧ fs.st.outstanding = 0 ∧ fs.st.lh = [] := by
  have hrun : (runAll Fs.step (Fs.boot mkfsSb fileImage) [⟨0, .chmod (.str [47, 102]) 0, []⟩,
      ⟨0, .unlink (.str [47, 102]), []⟩]).any (fun fs => decide ((fs.node 2).type = 0)) = true := by
    decide +kernel
  obtain ⟨fs, hr, ht⟩ := Reaches.of_any hrun
  exact ⟨fs, hr, of_decide_eq_true ht, calls_settle_accounts hr⟩

/- What is on the disk when the power goes off between two calls. -/

section Within
variable {ino : Nat → Dinode} (h : Within p sb N t ino [] [] [] fs) (hsb : sb.Ok)
include h

theorem Within.type_at {i : Nat} (ht : (dinodes sb fs.st.cur i).type ≠ 0) : dinodes sb fs.st.cur i = ino i :=
  h.dinode_at (Decidable.of_not_not fun hi => ht (by rw [dinodes, if_neg hi]; rfl))

include hsb in
theorem Within.dinodes_logged : dinodes sb fs.st.logged = dinodes sb fs.st.cur := by
  funext i
  by_cases hi : i < sb.ninodes
  · rw [dinodes, if_pos hi, dinodes, if_pos hi, h.disk.calm _ (.inl (hsb.iblock_lt_nmeta hi))]
  · rw [dinodes, if_neg hi, dinodes, if_neg hi]

include hsb in
theorem Within.ptrs_logged :
    ptrs (dinodes sb fs.st.logged) fs.st.logged = ptrs (dinodes sb fs.st.cur) fs.st.cur := by
  rw [h.dinodes_logged hsb]
  refine ptrs_congr fun i _ => ?_
  rw [h.ptrs_eq]
  exact (h.disk.calm _ (.inr ⟨i, NDIRECT, rfl, .inl rfl⟩)).symm

include hsb in
theorem Within.node_logged {i : Nat} (hd : (dinodes sb fs.st.cur i).type = T_DIR) :
    nodes sb fs.st.logged i = nodes sb fs.st.cur i := by
  have ht : (dinodes sb fs.st.cur i).type ≠ 0 := by rw [hd]; decide
  have heq := h.type_at ht
  rw [nodes, nodes, h.dinodes_logged hsb]
  refine node_congr (fun bn ht hbn => ?_) fun k _ => ?_
  · rw [heq] at ht hbn ⊢
    exact h.disk.full i bn ht hbn
  · rw [h.ptrs_eq]
    exact (h.disk.calm _ (.inr ⟨i, k, rfl, .inr (heq ▸ hd)⟩)).symm

include hsb in
theorem Within.wellFormed_logged (hroot : (dinodes sb fs.st.cur ROOTINO).type = T_DIR)
    (hlinked : ∀ i, (dinodes sb fs.st.cur i).type ≠ 0 → (dinodes sb fs.st.cur i).nlink ≠ 0) : WellFormed sb fs.st.logged := by
  have hdin := h.dinodes_logged hsb
  have hptrs := h.ptrs_logged hsb
  have hown := h.disk.owned
  rw [← h.ptrs_eq, ← hptrs] at hown
  refine ⟨hsb, ?_, hown.range, hown.inj, fun b hb => ?_, fun i ht => ?_, fun i bn ht hbn => ?_, fun i ht => ?_, by rw [hdin, hroot], ?_⟩
  · rw [hdin]
    refine Decidable.of_not_not fun ht => ?_
    have hin := h.disk.range 0 (h.type_at ht ▸ ht)
    exact absurd hin.1 (Nat.lt_irrefl 0)
  · have hused : used sb fs.st.logged b ↔ used sb fs.st.cur b := by
      rw [used, used, h.disk.calm _ (.inl (Superblock.Ok.bblock_lt hb))]
    have hexact := hown.exact b hb
    simp only [List.not_mem_nil, or_false] at hexact
    exact hused.trans hexact
  · rw [hdin] at ht ⊢
    have hat := h.type_at ht
    rw [hat] at ht ⊢
    exact h.disk.fits i ht
  · have hptr : (dinodes sb fs.st.logged i).block fs.st.logged bn = (dinodes sb fs.st.cur i).block fs.st.cur bn := by
      have := congrFun hptrs (i, posOf bn)
      rwa [ptrs_live ht, ptrs_live (hdin ▸ ht)] at this
    rw [hdin] at ht hbn
    have hat := h.type_at ht
    rw [hptr, hat]
    rw [hat] at ht hbn
    exact h.disk.full i bn ht hbn
  · rw [hdin] at ht ⊢
    exact hlinked i ht
  · intro i hd
    rw [nodes, node_type, hdin] at hd
    have hat := h.type_at (by rw [hd]; decide)
    have hnode : N i = nodes sb fs.st.cur i := by rw [h.node i, nodes, hat]
    rw [h.node_logged hsb hd, ← hnode]
    refine h.sane i ?_
    rw [hnode, nodes, node_type, hd]

end Within

/-- A path is followed through directories only. -/
theorem walk_congr (ht : ∀ i, (N' i).type = (N i).type) (hd : ∀ i, (N i).type = T_DIR → N' i = N i) {parent : Bool}
    (fuel i : Nat) (path name : List UInt8) : walk N' parent fuel i path name = walk N parent fuel i path name := by
  induction fuel generalizing i path name with
  | zero => rfl
  | succ fuel ih =>
    simp only [walk, ht, ih]
    split
    · rfl
    · split
      · rfl
      · rename_i hdir
        rw [hd i (Decidable.of_not_not hdir)]

end Xv6
