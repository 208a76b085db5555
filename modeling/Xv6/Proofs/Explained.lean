import Xv6.Proofs.LogSafety
import Xv6.System
import Xv6.Image

namespace Xv6
variable {m m' : Machine} {p : Pid}

/-- The cache holds nothing that the disk and the log do not account for, and what can
be recycled is on disk. -/
structure Explained (m : Machine) : Prop where
  known : ∀ i, (m.blk.bc.buf i).valid = true → (m.blk.bc.buf i).lock = none →
    (m.blk.bc.buf i).blockno ∈ m.blk.log.lh ∨
    (m.blk.bc.buf i).data = m.blk.disk (m.blk.bc.buf i).blockno
  recycled : ∀ i, (m.blk.bc.buf i).valid = true → (m.blk.bc.buf i).refcnt = 0 →
    (m.blk.bc.buf i).data = m.blk.disk (m.blk.bc.buf i).blockno

/-- An unlocked buffer of a block that is not torn holds what the disk has, unless the
block is pinned. -/
theorem Coherent.data_disk (h : Coherent m) {i : BufId} (hv : (m.blk.bc.buf i).valid = true)
    (hl : (m.blk.bc.buf i).lock = none) (ht : (m.blk.bc.buf i).blockno ∉ m.torn)
    (hp : (m.blk.bc.buf i).blockno ∉ m.core.pinned) :
    (m.blk.bc.buf i).data = m.blk.disk (m.blk.bc.buf i).blockno := by
  have hclean : i ∉ m.dirty := by
    intro hi
    obtain ⟨q, op, hq, _⟩ := h.dirty i hi
    cases hl.symm.trans hq
  rw [h.data i hv (h.cache.read i hv) hclean (Core.not_writes hl) ht]
  unfold Core.content
  split
  · rfl
  · rename_i hin
    exact (h.core.stale _ hin hp).symm

theorem Inv.explained (h : Inv m) (ht : m.torn = []) : Explained m := by
  have hcoh := h.coherent
  have hnot : ∀ n, n ∉ m.torn := by simp [ht]
  refine ⟨?_, ?_⟩
  · intro i hv hl
    by_cases hn : (m.blk.bc.buf i).blockno ∈ m.blk.log.lh
    · exact .inl hn
    · exact .inr (hcoh.data_disk hv hl (hnot _) (fun hp => hn (hcoh.core.pinned_mem hp)))
  · intro i hv hr
    have hl : (m.blk.bc.buf i).lock = none := by
      cases hl : (m.blk.bc.buf i).lock with
      | none => rfl
      | some q =>
        have := hcoh.cache.refcnt_pos (hcoh.cache.held i q hl)
        omega
    refine hcoh.data_disk hv hl (hnot _) (fun hp => ?_)
    obtain ⟨j, hj, he⟩ := List.mem_map.mp hp
    have hjd := (hcoh.pins j hj).2
    have hji := hcoh.cache.one j i (by rw [hjd]; decide) (hjd.trans (hcoh.cache.read i hv).symm) he
    have := hcoh.cache.pinned_pos hj
    rw [hji] at this
    omega

section Steps

theorem does_reaches {as : List Action} {u : Unit} (h : m.does as = .ok u m') :
    Reaches Machine.step m m' := by
  unfold Machine.does at h
  split at h
  · cases h
  · rename_i m₁ hr
    split at h
    · cases h
      exact .of_run hr
    · cases h

theorem onBuf_reaches {n : Nat} {as : BufId → List Action} {u : Unit}
    (h : m.onBuf n as = .ok u m') : Reaches Machine.step m m' := by
  unfold Machine.onBuf at h
  split at h
  · cases h
  · exact does_reaches h

theorem andThen_ok {o : Out Panic Machine Unit} {k : Machine → Out Panic Machine Unit} {u : Unit}
    (h : Machine.andThen o k = .ok u m') : ∃ m₁, o = .ok () m₁ ∧ k m₁ = .ok u m' := by
  cases o with
  | ok v m₁ => exact ⟨m₁, rfl, h⟩
  | wait => cases h
  | fail e => cases h

theorem finishThread_reaches {fuel : Nat} {u : Unit} (h : m.finishThread fuel = .ok u m') :
    Reaches Machine.step m m' := by
  induction fuel generalizing m with
  | zero => cases h
  | succ fuel ih =>
    rw [Machine.finishThread] at h
    split at h
    · cases h
      exact .start
    · split at h
      · rename_i hd
        exact (does_reaches hd).trans (ih h)
      · cases h
      · cases h

theorem bread_reaches {n : Nat} {u : Unit} (h : m.bread p n = .ok u m') :
    Reaches Machine.step m m' := by
  obtain ⟨m₁, h₁, h₂⟩ := andThen_ok h
  exact (does_reaches h₁).trans (onBuf_reaches h₂)

theorem endOp_reaches {u : Unit} (h : m.endOp p = .ok u m') : Reaches Machine.step m m' := by
  obtain ⟨m₁, h₁, h₂⟩ := andThen_ok h
  exact (does_reaches h₁).trans (finishThread_reaches h₂)

theorem after_reaches {s t : Sys} {o : Out Panic Machine Unit} {u : Unit} (h : s.after o = .ok u t)
    (ho : ∀ v m, o = .ok v m → Reaches Machine.step s.mach m) :
    Reaches Machine.step s.mach t.mach := by
  cases o with
  | ok v m =>
    cases h
    exact ho v m rfl
  | wait => cases h
  | fail e => cases h

/-- What the file system asks of the block layer are actions of the machine. -/
theorem run_reaches (q : ProcId) {β : Type} (c : Cmd β) {s t : Sys} {b : β}
    (h : Sys.run q β c s = .ok b t) : Reaches Machine.step s.mach t.mach := by
  cases c with
  | bread n => exact after_reaches h (fun _ _ ho => bread_reaches ho)
  | data n =>
    simp only [Sys.run] at h
    split at h
    · cases h
    · cases h
      exact .start
  | modify n d => exact after_reaches h (fun _ _ ho => onBuf_reaches ho)
  | logWrite n => exact after_reaches h (fun _ _ ho => onBuf_reaches ho)
  | brelse n => exact after_reaches h (fun _ _ ho => onBuf_reaches ho)
  | beginOp => exact after_reaches h (fun _ _ ho => does_reaches ho)
  | endOp => exact after_reaches h (fun _ _ ho => endOp_reaches ho)
  | mem f =>
    simp only [Sys.run] at h
    split at h
    · cases h
      exact .start
    · cases h
    · cases h

theorem exec_reaches (q : ProcId) {α : Type} {prog : KernM α} {s t : Sys} {a : α}
    (h : prog.exec (Sys.run q) s = .ok a t) : Reaches Machine.step s.mach t.mach :=
  Free.exec_keeps (P := fun u => Reaches Machine.step s.mach u.mach)
    (fun _ c _ _ _ hs hc => hs.trans (run_reaches q c hc)) .start h

theorem Sys.step_reaches {s t : Sys} {e : ProcId × Call} (h : s.step e = some t) :
    Reaches Machine.step s.mach t.mach := by
  unfold Sys.step at h
  split at h
  · split at h
    · rename_i he
      cases h
      exact exec_reaches e.1 he
    · cases h
  · cases h

end Steps

/-- A process that has its first user page only. -/
def onePage : UserMem := fun n => if n = 0 then some (fun _ => 65) else none

def bootMem (d : Disk) : Mem := (Fs.boot mkfsSb d).mem

end Xv6
