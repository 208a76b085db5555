import Mathlib.Logic.ExistsUnique
import Xv6.Proofs.ProcTable

namespace Xv6.Sched
open Machine

variable {m : Machine}

/-- A slot is freed only when no hart is on its process any more. -/
theorem Move.freed {t : Tid} {s u : Kern} (hm : Move t s u) (hi : Inv s) {q : ProcId}
    (hs : (s.proc q).state ≠ .unused) (hu : (u.proc q).state = .unused) (c : CpuId) :
    (s.cpu c).proc ≠ some q ∧ (s.cpu c).stack ≠ some q := by
  have hon := hi.placed.on
  have hst := hi.placed.stack
  cases hm <;> grind [Kern.freeproc, Poked]

/-- The process table protocol, for any number of harts and any interleaving: where a process
runs, who its parent is, when its slot is freed, and what wait() returns. -/
theorem process_table_protocol (h : Reaches step boot m) :
    (∀ q, m.kern.lock (.proc q) = none → (m.kern.proc q).state = .running →
      ∃! c, (m.kern.cpu c).proc = some q) ∧
    (∀ c d q, (m.kern.cpu c).stack = some q → (m.kern.cpu d).stack = some q → c = d) ∧
    (m.kern.lock .wait = none → ∀ q, q ≠ initproc →
      (m.kern.proc q).state ∈ [.runnable, .running, .sleeping, .zombie] →
        ∃ r, (m.kern.proc q).parent = some r ∧
          (m.kern.proc r).state ≠ .unused ∧ (m.kern.proc r).state ≠ .zombie) ∧
    (∀ a m' q c, m.step a = some m' → (m.kern.proc q).state ≠ .unused →
      (m'.kern.proc q).state = .unused →
        (m.kern.cpu c).proc ≠ some q ∧ (m.kern.cpu c).stack ≠ some q) ∧
    Orderly m.kern.events ∧ ∀ e, m.panicked = some e → e = .initExiting := by
  have hok := ok_of_reaches h
  have hp := hok.inv.placed
  refine ⟨fun q hl hs => ?_, fun c d q hc hd => ?_, fun _ q hi hs => ?_, fun a m' q c ha hs hu => ?_,
    hok.inv.chronicle.orderly, hok.panic⟩
  · obtain ⟨c, hc⟩ := hp.runs q hl hs
    exact ⟨c, hc, fun d hd => hp.alone d c q hd hc⟩
  · exact hp.alone c d q (hp.stack c q hc) (hp.stack d q hd)
  · have hpar := hok.inv.related.orphan q hi (by rintro h; simp [h] at hs)
      (by rintro h; simp [h] at hs)
    obtain ⟨r, hr⟩ := Option.ne_none_iff_exists'.mp hpar
    exact ⟨r, hr, hok.inv.related.parent q r hr⟩
  · rcases hok.moves ha with he | ⟨t, hm⟩
    · rw [he] at hu
      exact (hs hu).elim
    · exact hm.freed hok.inv hs hu c

/-- The first process forks a child on one hart and sleeps in wait(); the child runs on
another. -/
def forkAndWait : List Action :=
  List.replicate 4 (.run 0) ++ [.call 0 (.fork ⟨true, true, true⟩)] ++
    List.replicate 7 (.run 0) ++ List.replicate 5 (.run 1) ++ [.call 0 (.wait false)] ++
    List.replicate 71 (.run 0)

/-- Then the child exits with status 7, and the parent is scheduled again. -/
def exitAndReap : List Action :=
  [.call 1 (.exit 7 [])] ++ List.replicate 136 (.run 1) ++ List.replicate 73 (.run 0)

set_option maxRecDepth 100000 in
theorem process_table_protocol_reaped : ∃ m, Reaches step boot m ∧
    m.kern.events = [.waited 0 (some 0) 1 1 2 7, .exited 1 1 2 7, .forked 1 1 2, .forked 0 0 1] ∧
    Orderly m.kern.events ∧ ∃! c, (m.kern.cpu c).proc = some initproc := by
  have hrun : (runAll step boot (forkAndWait ++ exitAndReap)).any (fun m =>
      decide (m.kern.events =
          [.waited 0 (some 0) 1 1 2 7, .exited 1 1 2 7, .forked 1 1 2, .forked 0 0 1] ∧
        m.kern.lock (.proc initproc) = none ∧
        (m.kern.proc initproc).state = .running)) = true := by
    decide +kernel
  obtain ⟨m, hm, hp⟩ := Reaches.of_any hrun
  obtain ⟨he, hl, hs⟩ := of_decide_eq_true hp
  obtain ⟨h1, -, -, -, h5, -⟩ := process_table_protocol hm
  exact ⟨m, hm, he, h5, h1 initproc hl hs⟩

/-- While wait_lock is free, a process asleep in wait() has no exited child to collect. -/
theorem wait_misses_no_exit (h : Reaches step boot m) (hw : m.kern.lock .wait = none)
    (p q : ProcId) (hs : (m.kern.proc p).state = .sleeping)
    (hc : (m.kern.proc p).chan = some (.proc p)) (hq : (m.kern.proc q).parent = some p) :
    (m.kern.proc q).state ≠ .zombie :=
  (ok_of_reaches h).inv.related.rested hw p q ⟨hs, hc⟩ hq

set_option maxRecDepth 100000 in
theorem wait_misses_no_exit_asleep : ∃ m, Reaches step boot m ∧
    (m.kern.proc initproc).state = .sleeping ∧ (m.kern.proc 1).parent = some initproc ∧
    (m.kern.proc 1).state ≠ .zombie := by
  have hrun : (runAll step boot forkAndWait).any (fun m =>
      decide (m.kern.lock .wait = none ∧ (m.kern.proc initproc).state = .sleeping ∧
        (m.kern.proc initproc).chan = some (.proc initproc) ∧
        (m.kern.proc 1).parent = some initproc)) = true := by
    decide +kernel
  obtain ⟨m, hm, hp⟩ := Reaches.of_any hrun
  obtain ⟨hw, hs, hc, hq⟩ := of_decide_eq_true hp
  exact ⟨m, hm, hs, hq, wait_misses_no_exit hm hw initproc 1 hs hc hq⟩

end Xv6.Sched
