import Xv6.Ps
import Xv6.Proofs.UserSpace

namespace Xv6.UserCalls
open Sched (ProcState)
variable {k : Kernel} {w : World} {max : Int}

/-- The world after `bs` have gone to `addr`. -/
def World.put (w : World) (addr : Nat) (bs : List UInt8) : World :=
  { w with user := w.user.putBytes addr bs }

theorem run_bind (m : CallM α) (f : α → CallM β) (w : World) : (m >>= f) w =
    match m w with
    | .ok a w => f a w
    | .wait => .wait
    | .fail e => .fail e := rfl

theorem run_pure (a : α) (w : World) : (pure a : CallM α) w = .ok a w := rfl
theorem run_get (f : Kernel → α) (w : World) : get f w = .ok (f w.kernel) w := rfl

theorem run_uninit (l : Local) (n : Nat) (w : World) :
    uninit l n w = .ok ((List.range n).map (w.stack l)) w := rfl

theorem run_copyout (va : Nat) (src : List UInt8) (w : World) : copyout va src w =
    .ok (decide (w.user.stored (va % 2 ^ 64) src.length = src.length))
      (w.put (va % 2 ^ 64) (src.take (w.user.stored (va % 2 ^ 64) src.length))) := by
  rw [copyout, w.user.copyout_eq]
  rfl

/- What getprocs() collects. -/

/-- The used slots among `ps`. -/
def used (k : Kernel) (ps : List ProcId) : List ProcId :=
  ps.filter (fun p => decide ((k.row p).state ≠ .unused))

/-- The slots that getprocs() reports. -/
def reported (k : Kernel) (max : Int) : List ProcId := (used k (List.finRange NPROC)).take max.toNat

/-- local_stats for these slots, over what the stack held. -/
def records (k : Kernel) (stats : List UInt8) (rows : List ProcId) (n : Nat) : List UInt8 :=
  (rows.zipIdx n).flatMap (fun x =>
    procStat k.ticks (k.row x.1) ((stats.drop (32 * x.2)).take 32))

theorem getprocsLoop_eq (stats : List UInt8) (ps : List ProcId) (n : Nat) :
    getprocsLoop k stats max ps n =
      (records k stats ((used k ps).take (max - n).toNat) n,
        n + ((used k ps).take (max - n).toNat).length) := by
  induction ps generalizing n with
  | nil => simp [getprocsLoop, used, records]
  | cons p ps ih =>
    rw [getprocsLoop]
    by_cases hn : (n : Int) < max
    · rw [if_pos hn]
      by_cases hp : (k.row p).state = .unused
      · rw [if_pos hp, ih]
        have hused : used k (p :: ps) = used k ps := by simp [used, hp]
        rw [hused]
      · rw [if_neg hp, ih]
        have hused : used k (p :: ps) = p :: used k ps := by simp [used, hp]
        have hroom : (max - n).toNat = (max - (n + 1 : Nat)).toNat + 1 := by omega
        rw [hused, hroom, List.take_succ_cons]
        simp only [records, List.zipIdx_cons, List.flatMap_cons, List.length_cons]
        congr 1
        omega
    · rw [if_neg hn]
      have hroom : (max - n).toNat = 0 := by omega
      simp [hroom, records]

theorem length_safestrcpyBytes (n : Nat) (t : List UInt8) : (safestrcpyBytes n t).length ≤ n + 1 := by
  induction n generalizing t with
  | zero => simp [safestrcpyBytes]
  | succ n ih =>
    cases t with
    | nil => simp [safestrcpyBytes]
    | cons c t =>
      simp only [safestrcpyBytes]
      split
      · simp
      · simpa using ih t

/-- How many bytes of the name in a record safestrcpy() sets. -/
def nameSet (r : Row) : Nat := (safestrcpyBytes 15 (r.name.get 0 16)).length

theorem nameSet_le (r : Row) : nameSet r ≤ 16 := length_safestrcpyBytes 15 _

theorem length_procStat (ticks : UInt32) (r : Row) {old : List UInt8} (h : old.length = 32) :
    (procStat ticks r old).length = 32 := by
  have hset := nameSet_le r
  unfold nameSet at hset
  simp [procStat, safestrcpy, h]
  omega

theorem reported_length_le (k : Kernel) (max : Int) : (reported k max).length ≤ NPROC := by
  have hfilter : (used k (List.finRange NPROC)).length ≤ (List.finRange NPROC).length :=
    List.length_filter_le _ _
  rw [List.length_finRange] at hfilter
  rw [reported, List.length_take]
  omega

/-- Every record is made over 32 bytes of the stack. -/
theorem length_old {stats : List UInt8} {rows : List ProcId} (hs : stats.length = 32 * NPROC)
    (hr : rows.length ≤ NPROC) {x : ProcId × Nat} (hx : x ∈ rows.zipIdx) :
    ((stats.drop (32 * x.2)).take 32).length = 32 := by
  have hlt := List.snd_lt_of_mem_zipIdx hx
  rw [List.length_take, List.length_drop, hs]
  omega

section Records
variable {stats : List UInt8} {rows : List ProcId} (hs : stats.length = 32 * NPROC)
  (hr : rows.length ≤ NPROC)
include hs hr

theorem length_records : (records k stats rows 0).length = 32 * rows.length := by
  rw [records, Bytes.length_records (fun x hx => length_procStat k.ticks _ (length_old hs hr hx)),
    List.length_zipIdx]

theorem records_at {i : Nat} (hi : i < rows.length) :
    ((records k stats rows 0).drop (32 * i)).take 32 =
      procStat k.ticks (k.row rows[i]) ((stats.drop (32 * i)).take 32) := by
  rw [records, Bytes.records_at (fun x hx => length_procStat k.ticks _ (length_old hs hr hx)) i
    (by rwa [List.length_zipIdx])]
  simp

end Records

/-- local_stats as the stack has it. -/
def rawStats (s : Stack) : List UInt8 := (List.range (32 * NPROC)).map (s .localStats)

theorem length_rawStats (s : Stack) : (rawStats s).length = 32 * NPROC := by
  rw [rawStats, List.length_map, List.length_range]

/-- What sys_getprocs() copies after its test. -/
def reportBytes (w : World) (max : Int) : List UInt8 :=
  records w.kernel (rawStats w.stack) (reported w.kernel max) 0

theorem length_reportBytes (w : World) (max : Int) :
    (reportBytes w max).length = 32 * (reported w.kernel max).length :=
  length_records (length_rawStats _) (reported_length_le _ _)

theorem stored_one {us : UserSpace} {va : Nat} : us.stored va 1 = if us.accepts va then 1 else 0 := rfl

theorem sysGetprocs_refused {addr : Nat} (h : w.user.accepts (addr % 2 ^ 64) = false) :
    sysGetprocs addr max w = .ok (-1) w := by
  unfold sysGetprocs
  split
  · rfl
  · simp [-Nat.reducePow, run_bind, run_uninit, run_copyout, stored_one, h, World.put, UserSpace.putBytes_nil, run_pure]

theorem sysGetprocs_eq {addr : Nat} (hmax : 0 < max ∧ max ≤ NPROC)
    (h : w.user.accepts (addr % 2 ^ 64) = true) :
    sysGetprocs addr max w =
      let bytes := reportBytes w max
      let n := w.user.stored (addr % 2 ^ 64) bytes.length
      .ok (if n = bytes.length then ((reported w.kernel max).length : Int) else -1)
        ((w.put (addr % 2 ^ 64) [w.stack .test 0]).put (addr % 2 ^ 64) (bytes.take n)) := by
  have hin : ¬ (max ≤ 0 ∨ max > NPROC) := by omega
  have htest : copyout addr ((List.range 1).map (w.stack .test)) w =
      .ok true (w.put (addr % 2 ^ 64) [w.stack .test 0]) := by
    simp [-Nat.reducePow, run_copyout, stored_one, h]
  simp only [sysGetprocs, getprocs, if_neg hin, run_bind, run_uninit, htest, if_true, run_get,
    getprocsLoop_eq, run_copyout, run_pure]
  simp only [World.put, UserSpace.stored_putBytes, reportBytes, reported, rawStats, Int.natCast_zero,
    Int.sub_zero, Nat.zero_add, decide_eq_true_eq]
  rfl

theorem strOf_safestrcpyBytes (n : Nat) (t rest : List UInt8) :
    strOf (safestrcpyBytes n t ++ rest) = strOf (t.take n) := by
  induction n generalizing t with
  | zero => simp [safestrcpyBytes, strOf]
  | succ n ih =>
    cases t with
    | nil => simp [safestrcpyBytes, strOf]
    | cons c t =>
      simp only [safestrcpyBytes]
      split
      · rename_i hc
        simp [strOf, hc]
      · rename_i hc
        have hrest := ih t
        simp only [strOf] at hrest
        simp [strOf, hc, hrest]

theorem ofNat_toUInt32_toNat (x : Int32) : Int32.ofNat x.toUInt32.toNat = x := by
  apply Int32.toBitVec_inj.mp
  exact (BitVec.ofNat_toNat _ _).trans (by simp)

/-- ps reads in a record what the kernel put there. -/
theorem procStatOf_procStat (ticks : UInt32) (r : Row) (old : List UInt8) (h : old.length = 32) :
    (Ps.procStatOf (procStat ticks r old)).pid = r.pid ∧
    (Ps.procStatOf (procStat ticks r old)).state = Int32.ofNat (stateCode r.state) ∧
    (Ps.procStatOf (procStat ticks r old)).memory = r.sz.toUInt32 ∧
    strOf (Ps.procStatOf (procStat ticks r old)).name = strOf (r.name.get 0 15) := by
  have hlen := length_procStat ticks r h
  have hname : ((procStat ticks r old).drop 16).take 16 = safestrcpy (old.drop 16) (r.name.get 0 16) 16 := by
    rw [List.take_of_length_le (by simp [hlen])]
    simp [procStat, List.drop_append, List.drop_eq_nil_of_le]
  refine ⟨?_, ?_, ?_, ?_⟩
  · have hlt : r.pid.toUInt32.toNat < 256 ^ 4 := r.pid.toUInt32.toNat_lt
    have hpid : (procStat ticks r old).take 4 = Bytes.le 4 r.pid.toUInt32.toNat := by
      simp [procStat]
    rw [Ps.procStatOf, hpid, Bytes.ofLe_le_of_lt hlt, ofNat_toUInt32_toNat]
  · have hlt : stateCode r.state < 256 ^ 4 := by cases r.state <;> decide
    have hstate : ((procStat ticks r old).drop 4).take 4 = Bytes.le 4 (stateCode r.state) := by
      simp [procStat]
    rw [Ps.procStatOf, hstate, Bytes.ofLe_le_of_lt hlt]
  · have hlt : r.sz.toNat % 2 ^ 32 < 256 ^ 4 := Nat.mod_lt _ (by decide)
    have hmem : ((procStat ticks r old).drop 12).take 4 = Bytes.le 4 (r.sz.toNat % 2 ^ 32) := by
      simp [procStat, List.drop_append, List.drop_eq_nil_of_le]
    rw [Ps.procStatOf, hmem, Bytes.ofLe_le_of_lt hlt]
    exact UInt32.toNat_inj.mp (by simp)
  · rw [Ps.procStatOf, hname, safestrcpy, strOf_safestrcpyBytes]
    congr 1

/-- A slot that is reported is used. -/
theorem used_of_reported {q : ProcId} (h : q ∈ reported k max) : (k.row q).state ≠ .unused := by
  have hq := List.mem_of_mem_take h
  simp only [used, List.mem_filter, decide_eq_true_eq] at hq
  exact hq.2

theorem reported_ne_nil (hmax : 1 ≤ max) {q : ProcId} (h : (k.row q).state ≠ .unused) :
    0 < (reported k max).length := by
  have hq : q ∈ used k (List.finRange NPROC) := by simp [used, h]
  have hpos := List.length_pos_of_mem hq
  rw [reported, List.length_take]
  omega

theorem stateWord_eq_iff (s : ProcState) :
    Ps.stateWord (Int32.ofNat (stateCode s)) = Ps.column (Ps.stateName s) ↔ s = .unused := by
  cases s <;> decide

/-- Does a line of ps show a slot of the table, with the name of its state? -/
structure Shows (k : Kernel) (q : ProcId) (l : Ps.Line) : Prop where
  pid : l.pid = (k.row q).pid
  state : l.state = Ps.column (Ps.stateName (k.row q).state)
  size : l.kilobytes.toNat = (k.row q).sz.toNat / 1024
  name : l.name = strOf ((k.row q).name.get 0 15)

/-- For every process table and every buffer that can hold `max` records, getprocs() returns the
number of used slots, or `max` if there are more, and its records are those of the first used
slots, with nothing else changed. But the words that ps prints for their states are those of
the table only if there is no process. -/
theorem getprocs_reports_table (w : World) {buf : Nat} (hmax : 1 ≤ max ∧ max ≤ NPROC)
    (hbuf : ∀ i < 32 * max.toNat, w.user.accepts (buf + i) = true) :
    ∃ w', sysGetprocs buf max w = .ok ((reported w.kernel max).length : Int) w' ∧
      (reported w.kernel max).length = min max.toNat (used w.kernel (List.finRange NPROC)).length ∧
      w'.kernel = w.kernel ∧
      (∀ i (h : i < (reported w.kernel max).length),
        let r := w.kernel.row (reported w.kernel max)[i]
        let st := Ps.procStatOf (w'.user.bytes (buf + 32 * i) 32)
        st.pid = r.pid ∧ st.state = Int32.ofNat (stateCode r.state) ∧ st.memory = r.sz.toUInt32 ∧
          strOf st.name = strOf (r.name.get 0 15)) ∧
      ((∃ q, (w.kernel.row q).state ≠ .unused) →
        ∀ a, a < buf ∨ buf + 32 * (reported w.kernel max).length ≤ a → w'.user.byte a = w.user.byte a) ∧
      ((∀ i (h : i < (reported w.kernel max).length),
        ∃ l, (Ps.lines w'.user buf (reported w.kernel max).length)[i]? = some l ∧
          Shows w.kernel (reported w.kernel max)[i] l) ↔
        ∀ q, (w.kernel.row q).state = .unused) := by
  generalize hrows : reported w.kernel max = rows
  have hlen := length_reportBytes w max
  have hle : rows.length ≤ max.toNat := by
    rw [← hrows, reported, List.length_take]
    omega
  have hstart := hbuf 0 (by omega)
  rw [Nat.add_zero] at hstart
  have hlt := UserSpace.lt_maxva_of_accepts hstart
  have hmod : buf % 2 ^ 64 = buf := Nat.mod_eq_of_lt (Nat.lt_trans hlt (by decide))
  rw [hrows] at hlen
  have hfit : ∀ i < (reportBytes w max).length, w.user.accepts (buf + i) = true := fun i hi =>
    hbuf i (by omega)
  have hexec := sysGetprocs_eq (w := w) ⟨by omega, hmax.2⟩ (hmod.symm ▸ hstart)
  simp only [hmod, UserSpace.stored_eq hfit, if_true, hrows, List.take_length] at hexec
  -- each record, as it stands in the caller's memory
  have hread : ∀ i (h : i < rows.length),
      ((w.put buf [w.stack .test 0]).put buf (reportBytes w max)).user.bytes (buf + 32 * i) 32 =
        procStat w.kernel.ticks (w.kernel.row rows[i]) (((rawStats w.stack).drop (32 * i)).take 32) := by
    intro i hi
    have hat := records_at (k := w.kernel) (length_rawStats w.stack) (reported_length_le w.kernel max)
      (hrows.symm ▸ hi)
    refine (UserSpace.bytes_putBytes _ _ _ (by omega) fun i hi => ?_).trans ?_
    · exact (UserSpace.accepts_putBytes _ _).trans (hfit i hi)
    · simpa only [reportBytes, hrows] using hat
  have hold : ∀ i < rows.length, (((rawStats w.stack).drop (32 * i)).take 32).length = 32 := by
    intro i hi
    have := reported_length_le w.kernel max
    rw [hrows] at this
    rw [List.length_take, List.length_drop, length_rawStats]
    omega
  refine ⟨_, hexec, ?_, rfl, fun i h => ?_, ?_, ?_, ?_⟩
  · rw [← hrows, reported, List.length_take]
  · rw [hread i h]
    exact procStatOf_procStat _ _ _ (hold i h)
  · rintro ⟨q, hq⟩ a ha
    have hpos := reported_ne_nil hmax.1 hq
    rw [hrows] at hpos
    have hone : [w.stack .test 0].length ≤ (reportBytes w max).length := by
      rw [hlen, List.length_singleton]
      omega
    simp only [World.put, w.user.putBytes_over buf hone]
    exact UserSpace.byte_putBytes_outside (by omega)
  · intro h q
    by_cases hq : (w.kernel.row q).state = .unused
    · exact hq
    · have hpos := reported_ne_nil hmax.1 hq
      rw [hrows] at hpos
      obtain ⟨l, hl, hshow⟩ := h 0 hpos
      have hmem : rows[0] ∈ reported w.kernel max := by
        rw [hrows]
        exact List.getElem_mem hpos
      have hstate := hshow.state
      simp only [Ps.lines, List.getElem?_map, List.getElem?_range hpos, Option.map_some,
        Option.some.injEq, Nat.mul_zero, Nat.add_zero] at hl
      have hfirst := hread 0 hpos
      rw [Nat.mul_zero, Nat.add_zero] at hfirst
      rw [← hl, Ps.lineOf, hfirst, (procStatOf_procStat _ _ _ (hold 0 hpos)).2.1] at hstate
      exact absurd ((stateWord_eq_iff _).mp hstate) (used_of_reported hmem)
  · intro h i hi
    have hmem : rows[i] ∈ reported w.kernel max := by
      rw [hrows]
      exact List.getElem_mem hi
    exact absurd (h rows[i]) (used_of_reported hmem)

/-- init is running, alone, and all its memory is writable. -/
def lone : World where
  kernel :=
    { fs := Fs.boot ⟨0, 0, 0, 0, 0, 0, 0⟩ (fun _ => .zero)
      row := fun p =>
        { state := if p = 0 then .running else .unused
          pid := if p = 0 then 1 else 0
          parent := none
          killed := false
          xstate := 0
          sz := if p = 0 then 12288 else 0
          name := if p = 0 then ByteArr.zero.put 0 [105, 110, 105, 116] else .zero }
      ticks := 7
      pipeOf := fun _ => 0
      pipe := fun _ => Pipe.pipealloc (fun _ => 0)
      pages := 0
      junk := fun _ => 0
      cons := .init }
  user := fun _ => some ⟨true, true, .zero⟩
  stack := fun _ _ => 165
  others := []

theorem getprocs_reports_lone : ∃ w', sysGetprocs 4096 64 lone = .ok 1 w' ∧
    (Ps.procStatOf (w'.user.bytes 4096 32)).pid = 1 ∧ w'.user.byte 4128 = lone.user.byte 4128 := by
  have hacc : ∀ i < 32 * (64 : Int).toNat, lone.user.accepts (4096 + i) = true := by
    intro i hi
    have hlt : 4096 + i < MAXVA := by
      simp only [MAXVA]
      omega
    simp [UserSpace.accepts, UserSpace.mayWrite, lone, hlt]
  have hrows : reported lone.kernel 64 = [0] := by decide +kernel
  obtain ⟨w', hexec, -, -, hrec, hout, -⟩ := getprocs_reports_table lone (by decide) hacc
  rw [hrows] at hexec
  refine ⟨w', hexec, (hrec 0 (by rw [hrows]; decide)).1.trans ?_, hout ⟨0, by decide⟩ 4128 ?_⟩
  · simp only [hrows]
    rfl
  · rw [hrows]
    exact .inr (by decide)

/-- ps calls the running init a zombie. -/
theorem ps_misnames_running :
    (match sysGetprocs 4096 64 lone with
      | .ok n w' => Ps.lines w'.user 4096 n.toNat
      | _ => []) = [⟨1, "ZOMBIE  ", 12, [105, 110, 105, 116]⟩] ∧
    (lone.kernel.row 0).state = .running := by
  decide +kernel

end Xv6.UserCalls
