import Xv6.Pipe

namespace Xv6.Pipe

/-- The ring holds what was accepted and not yet taken; the counters are the lengths, modulo
2^32. -/
structure Fifo (d : Pipe) : Prop where
  nread : d.nread.toNat = d.taken.length % 2 ^ 32
  nwrite : d.nwrite.toNat = d.accepted.length % 2 ^ 32
  sub : d.taken <+: d.accepted
  room : d.accepted.length ≤ d.taken.length + PIPESIZE
  ring : ∀ k (h : k < d.accepted.length), d.taken.length ≤ k →
    d.data (k % PIPESIZE) = d.accepted[k]

namespace Fifo
variable {d : Pipe}

theorem empty_iff (h : Fifo d) : d.empty = true ↔ d.taken.length = d.accepted.length := by
  have h1 := h.nread
  have h2 := h.nwrite
  have h3 := h.sub.length_le
  have h4 := h.room
  simp only [PIPESIZE] at h4
  simp only [Pipe.empty, beq_iff_eq, ← UInt32.toNat_inj]
  omega

theorem full_iff (h : Fifo d) :
    d.full = true ↔ d.accepted.length = d.taken.length + PIPESIZE := by
  have h1 := h.nread
  have h2 := h.nwrite
  have h3 := h.sub.length_le
  have h4 := h.room
  have h5 : (UInt32.ofNat PIPESIZE).toNat = 512 := rfl
  simp only [Pipe.full, beq_iff_eq, ← UInt32.toNat_inj, UInt32.toNat_add, h5]
  simp only [PIPESIZE] at h4 ⊢
  omega

/-- nwrite - nread, as the code computes it. -/
theorem count (h : Fifo d) :
    (d.nwrite - d.nread).toNat = d.accepted.length - d.taken.length := by
  have h1 := h.nread
  have h2 := h.nwrite
  have h3 := h.sub.length_le
  have h4 := h.room
  simp only [PIPESIZE] at h4
  rw [UInt32.toNat_sub]
  omega

theorem alloc (junk : Nat → UInt8) : Fifo (pipealloc junk) :=
  ⟨rfl, rfl, List.prefix_rfl, by simp [pipealloc], fun k h => by simp [pipealloc] at h⟩

theorem put (h : Fifo d) (hf : d.full = false) (ch : UInt8) : Fifo (d.put ch) := by
  have hroom : d.accepted.length < d.taken.length + PIPESIZE := by
    have := h.room
    have hne : d.accepted.length ≠ d.taken.length + PIPESIZE := fun he => by
      rw [h.full_iff.mpr he] at hf
      cases hf
    omega
  have hw := h.nwrite
  refine ⟨h.nread, ?_, h.sub.trans (List.prefix_append _ _), ?_, ?_⟩
  · simp only [Pipe.put, UInt32.toNat_add, List.length_append, List.length_singleton]
    have : (1 : UInt32).toNat = 1 := rfl
    omega
  · simp only [Pipe.put, List.length_append, List.length_singleton]
    omega
  · intro k hk hle
    simp only [Pipe.put, List.length_append, List.length_singleton] at hk hle ⊢
    have hslot : d.nwrite.toNat % PIPESIZE = d.accepted.length % PIPESIZE := by
      simp only [PIPESIZE]
      omega
    rw [setAt_apply, hslot, List.getElem_append]
    by_cases hlast : k < d.accepted.length
    · -- an older byte: its slot is another one, because the ring was not full
      have hother : k % PIPESIZE ≠ d.accepted.length % PIPESIZE := by
        simp only [PIPESIZE] at hroom ⊢
        omega
      rw [if_neg hother, dif_pos hlast]
      exact h.ring k hlast hle
    · obtain rfl : k = d.accepted.length := by omega
      simp

theorem take (h : Fifo d) (he : d.empty = false) (ok : Bool) : Fifo (d.take ok) := by
  have hlt : d.taken.length < d.accepted.length := by
    have := h.sub.length_le
    have hne : d.taken.length ≠ d.accepted.length := fun hl => by
      rw [h.empty_iff.mpr hl] at he
      cases he
    omega
  have hr := h.nread
  have hslot : d.nread.toNat % PIPESIZE = d.taken.length % PIPESIZE := by
    simp only [PIPESIZE]
    omega
  have hch : d.data (d.nread.toNat % PIPESIZE) = d.accepted[d.taken.length] := by
    rw [hslot]
    exact h.ring _ hlt (Nat.le_refl _)
  refine ⟨?_, h.nwrite, ?_, ?_, ?_⟩
  · simp only [Pipe.take, UInt32.toNat_add, List.length_append, List.length_singleton]
    have : (1 : UInt32).toNat = 1 := rfl
    omega
  · show d.taken ++ [d.data (d.nread.toNat % PIPESIZE)] <+: d.accepted
    rw [hch]
    obtain ⟨rest, hrest⟩ := h.sub
    rw [List.prefix_iff_eq_take]
    simp only [List.length_append, List.length_singleton]
    rw [List.take_add_one, ← List.prefix_iff_eq_take.mp h.sub, List.getElem?_eq_getElem hlt]
    rfl
  · have := h.room
    simp only [Pipe.take, List.length_append, List.length_singleton]
    omega
  · intro k hk hle
    simp only [Pipe.take, List.length_append, List.length_singleton] at hk hle ⊢
    exact h.ring k hk (by omega)

end Fifo

/-- The sleepers of a pipe in the middle of a call: `loud` says that readers sleep only on an
empty pipe, and `tight` that writers sleep only on a full one. -/
def Sleepers (loud tight : Bool) (a : Pid → Option Chan) (d : Pipe) : Prop :=
  d.missed = false →
    (∀ j, a j = some .nread → d.writeopen = true ∧ (loud = true → d.empty = true)) ∧
    ∀ j, a j = some .nwrite → d.readopen = true ∧ (tight = true → d.full = true)

/-- Fewer processes are asleep. -/
def Fewer (a' a : Pid → Option Chan) : Prop := ∀ j ch, a' j = some ch → a j = some ch

theorem fewer_setAt (a : Pid → Option Chan) (j : Pid) : Fewer (setAt a j none) a := by
  intro k ch h
  rw [setAt_apply] at h
  split at h
  · cases h
  · exact h

theorem fewer_wake (a : Pid → Option Chan) (ch : Chan) : Fewer (wake ch a) a := by
  intro k c h
  simp only [wake] at h
  split at h
  · cases h
  · exact h

theorem not_wake (a : Pid → Option Chan) (ch : Chan) (j : Pid) : wake ch a j ≠ some ch := by
  simp only [wake]
  split
  · simp
  · rename_i h
    exact h

theorem Sleepers.fewer {loud tight : Bool} {a a' : Pid → Option Chan} {d : Pipe}
    (h : Sleepers loud tight a d) (hf : Fewer a' a) : Sleepers loud tight a' d := by
  intro hm
  obtain ⟨h1, h2⟩ := h hm
  exact ⟨fun j hj => h1 j (hf j _ hj), fun j hj => h2 j (hf j _ hj)⟩

/-- While the lock is free, nobody sleeps in vain. `v` says that all addresses are valid; then
what was taken has been delivered. -/
def rules (v : Bool) : Rules Pid Chan Pipe where
  always d := Fifo d ∧ (v = true → d.delivered = d.taken)
  free := Sleepers true true
  guar _ _ _ := True
  env _ _ _ := False
  wakes h := h.fewer (fewer_setAt _ _)
  env_always _ h := h.elim
  env_free _ _ h := h.elim

def conduct (v : Bool) : Conduct Panic State Pid := (rules v).conduct (fun _ => False)

variable {v : Bool} {pr : Pid} {s : State}

theorem firm {p : (Pid → Option Chan) → Pipe → Prop}
    (h : ∀ {a a' d}, Fewer a' a → p a d → p a' d) : (rules v).Firm pr p where
  kill j hp := h (fewer_setAt _ j) hp
  env _ _ _ he := he.elim

theorem firm_sleepers (loud tight : Bool) (q : Pipe → Prop) :
    (rules v).Firm pr (fun a d => Sleepers loud tight a d ∧ q d) :=
  firm fun hf h => ⟨h.1.fewer hf, h.2⟩

abbrev Inside (pr : Pid) (loud tight : Bool) (q : Pipe → Prop) : State → Prop :=
  Rules.Inside pr (fun a d => Sleepers loud tight a d ∧ q d)

abbrev Outside (pr : Pid) : State → Prop := Rules.Outside pr (fun _ => True)

/-- copyout() of `n` bytes succeeds. -/
def Writable (dst : Nat → Bool) (n : Int) : Prop := ∀ i : Nat, (i : Int) < n → dst i = true

/-- What a process knows between two programs. -/
def Knows (v : Bool) (pr : Pid) : Next → State → Prop
  | .user _, s => Outside pr s
  | .writing _ _ _ unsaid, s => Inside pr (!unsaid) true (fun _ => True) s
  | .waiting dst n, s => (v = true → Writable dst n) ∧ Inside pr true true (fun _ => True) s
  | .reading dst n _, s => (v = true → Writable dst n) ∧ Inside pr true false (fun _ => True) s

theorem stable_and {r : Prop} {p : State → Prop} (h : (conduct v).team.Stable pr p) :
    (conduct v).team.Stable pr (fun s => r ∧ p s) :=
  Conduct.stable fun _ _ _ hi hj hm hp => ⟨hp.1, h.move hi hj hm hp.2⟩

theorem knows_stable (pr : Pid) (a : Next) : (conduct v).team.Stable pr (Knows v pr a) := by
  cases a with
  | user r => exact Rules.Outside.stable Rules.lasting_true
  | writing src n i unsaid => exact Rules.Inside.stable (firm_sleepers _ _ _)
  | waiting dst n => exact stable_and (Rules.Inside.stable (firm_sleepers _ _ _))
  | reading dst n i => exact stable_and (Rules.Inside.stable (firm_sleepers _ _ _))

theorem safe_acquire (h : Outside pr s) :
    (conduct v).team.Safe pr (acquire pr) (fun _ => Inside pr true true (fun _ => True)) s :=
  Rules.safe_acquire Rules.lasting_true h

theorem safe_release {q : Pipe → Prop} (h : Inside pr true true q s) :
    (conduct v).team.Safe pr (release pr) (fun _ => Outside pr) s :=
  Rules.safe_release (firm_sleepers _ _ _) h fun _ _ _ hp => ⟨hp.1, trivial⟩

/-- Reading the data keeps what was known and adds the answer. -/
theorem safe_read {loud tight : Bool} {q : Pipe → Prop} {f : Pipe → β}
    (h : Inside pr loud tight q s) : (conduct v).team.Safe pr (Monitor.read f)
      (fun b => Inside pr loud tight (fun d => q d ∧ f d = b)) s :=
  (Rules.safe_read (firm_sleepers _ _ _) h).mono fun _ _ hu =>
    ⟨hu.lock, hu.awake, hu.holds.1.1, hu.holds.1.2, hu.holds.2⟩

/-- wakeup(&pi->nread): no reader is asleep after it. -/
theorem safe_wake_readers {loud tight : Bool} {q : Pipe → Prop} (h : Inside pr loud tight q s) :
    (conduct v).team.Safe pr (Monitor.wakeup .nread) (fun _ => Inside pr true tight q) s := by
  refine Rules.safe_wakeup (firm_sleepers _ _ _) h ?_
  intro a d _ hp
  refine ⟨fun hm => ⟨fun j hj => (not_wake _ _ _ hj).elim, ?_⟩, hp.2⟩
  exact fun j hj => (hp.1 hm).2 j (fewer_wake _ _ _ _ hj)

/-- wakeup(&pi->nwrite): no writer is asleep after it. -/
theorem safe_wake_writers {loud tight : Bool} {q : Pipe → Prop} (h : Inside pr loud tight q s) :
    (conduct v).team.Safe pr (Monitor.wakeup .nwrite) (fun _ => Inside pr loud true q) s := by
  refine Rules.safe_wakeup (firm_sleepers _ _ _) h ?_
  intro a d _ hp
  refine ⟨fun hm => ⟨?_, fun j hj => (not_wake _ _ _ hj).elim⟩, hp.2⟩
  exact fun j hj => (hp.1 hm).1 j (fewer_wake _ _ _ _ hj)

theorem safe_writeEnd {loud : Bool} {q : Pipe → Prop} (h : Inside pr loud true q s) (i : Nat) :
    (conduct v).team.Safe pr (writeEnd pr i) (Knows v pr) s :=
  (safe_wake_readers h).seq fun _ _ hu => (safe_release hu).seq fun _ _ hv => hv

theorem safe_readEnd {tight : Bool} {q : Pipe → Prop} (h : Inside pr true tight q s) (i : Nat) :
    (conduct v).team.Safe pr (readEnd pr i) (Knows v pr) s :=
  (safe_wake_writers h).seq fun _ _ hu => (safe_release hu).seq fun _ _ hv => hv

/-- Giving up with unannounced bytes is remembered. -/
theorem safe_writeFail {unsaid : Bool} {q : Pipe → Prop} (h : Inside pr (!unsaid) true q s) :
    (conduct v).team.Safe pr (writeFail pr unsaid) (Knows v pr) s := by
  have hrel : (conduct v).team.Safe pr
      (Monitor.releaseWith .release pr (fun d => { d with missed := d.missed || unsaid }))
      (fun _ => Outside pr) s := by
    refine Rules.safe_releaseWith (firm_sleepers _ _ _) h ?_
    intro a d hd hp
    refine ⟨fun hm => ?_, ⟨⟨hd.1.1, hd.1.2, hd.1.3, hd.1.4, hd.1.5⟩, hd.2⟩, .inr trivial, trivial⟩
    simp only [Bool.or_eq_false_iff] at hm
    obtain ⟨hm, rfl⟩ := hm
    exact hp.1 hm
  exact hrel.seq fun _ _ hu => hu

/-- The test at the head of pipewrite()'s loop: when it is passed, the read end is open. -/
theorem safe_writeStops {loud : Bool} (h : Inside pr loud true (fun _ => True) s) :
    (conduct v).team.Safe pr (writeStops pr) (fun b => Inside pr loud true
      (fun d => b = false → d.readopen = true)) s := by
  refine (safe_read h).seq fun b u hu => ?_
  cases b with
  | false =>
    show Inside pr loud true _ u
    exact ⟨hu.lock, hu.awake, hu.holds.1, fun hb => by cases hb⟩
  | true =>
    refine (Rules.safe_killedOf (firm_sleepers _ _ _) hu).mono fun b v hv => ?_
    exact ⟨hv.lock, hv.awake, hv.holds.1, fun _ => hv.holds.2.2⟩

/-- One more sleeper, for a good reason. -/
theorem Sleepers.join {a : Pid → Option Chan} {d : Pipe} (h : Sleepers true true a d) (ch : Chan)
    (hr : ch = .nread → d.empty = true ∧ d.writeopen = true)
    (hw : ch = .nwrite → d.full = true ∧ d.readopen = true) :
    Sleepers true true (setAt a pr (some ch)) d := by
  intro hm
  obtain ⟨h1, h2⟩ := h hm
  refine ⟨fun j hj => ?_, fun j hj => ?_⟩
  · rw [setAt_apply] at hj
    split at hj
    · obtain ⟨he, ho⟩ := hr (Option.some.inj hj)
      exact ⟨ho, fun _ => he⟩
    · exact h1 j hj
  · rw [setAt_apply] at hj
    split at hj
    · obtain ⟨he, ho⟩ := hw (Option.some.inj hj)
      exact ⟨ho, fun _ => he⟩
    · exact h2 j hj

theorem safe_sleep {q : Pipe → Prop} (ch : Chan) (h : Inside pr true true q s)
    (hr : ∀ d, q d → ch = .nread → d.empty = true ∧ d.writeopen = true)
    (hw : ∀ d, q d → ch = .nwrite → d.full = true ∧ d.readopen = true) :
    (conduct v).team.Safe pr (sleep pr ch) (fun _ => Inside pr true true (fun _ => True)) s :=
  Rules.safe_sleep (firm_sleepers _ _ _) Rules.lasting_true h fun _ d _ hp =>
    ⟨hp.1.join ch (hr d hp.2) (hw d hp.2), trivial⟩

/-- A byte goes in while there is room: no writer is asleep, and the readers are still to be
told. -/
theorem safe_put {loud : Bool} {q : Pipe → Prop} (h : Inside pr loud true q s)
    (hq : ∀ d, q d → d.full = false) (ch : UInt8) :
    (conduct v).team.Safe pr (Monitor.write (Pipe.put ch))
      (fun _ => Inside pr false true (fun _ => True)) s := by
  refine Rules.safe_write (firm_sleepers _ _ _) h ?_
  intro a d hd hp
  have hf := hq d hp.2
  refine ⟨⟨hd.1.put hf ch, hd.2⟩, .inr trivial, fun hm => ⟨fun j hj => ?_, fun j hj => ?_⟩, trivial⟩
  · exact ⟨((hp.1 hm).1 j hj).1, fun hl => by cases hl⟩
  · have := ((hp.1 hm).2 j hj).2 rfl
    rw [hf] at this
    cases this

/-- A byte comes out: no reader is asleep, and the writers are still to be told. -/
theorem safe_take {tight : Bool} {q : Pipe → Prop} (h : Inside pr true tight q s)
    (hq : ∀ d, q d → d.empty = false) {ok : Bool} (hok : v = true → ok = true) :
    (conduct v).team.Safe pr (Monitor.write (Pipe.take ok))
      (fun _ => Inside pr true false (fun _ => True)) s := by
  refine Rules.safe_write (firm_sleepers _ _ _) h ?_
  intro a d hd hp
  have he := hq d hp.2
  refine ⟨⟨hd.1.take he ok, fun hv => ?_⟩, .inr trivial, 
    fun hm => ⟨fun j hj => ?_, fun j hj => ?_⟩, trivial⟩
  · simp [Pipe.take, hok hv, hd.2 hv]
  · have := ((hp.1 hm).1 j hj).2 rfl
    rw [he] at this
    cases this
  · exact ⟨((hp.1 hm).2 j hj).1, fun hl => by cases hl⟩

theorem safe_writeRound {src : Nat → Option UInt8} {n : Int} {i : Nat} {unsaid : Bool}
    (h : Inside pr (!unsaid) true (fun _ => True) s) :
    (conduct v).team.Safe pr (writeRound pr src n i unsaid) (Knows v pr) s := by
  unfold writeRound
  split
  · refine (safe_writeStops h).seq fun b u hu => ?_
    cases b with
    | true => exact safe_writeFail hu
    | false =>
      refine (safe_read hu).seq fun b v hv => ?_
      cases b with
      | true =>
        refine (safe_wake_readers hv).seq fun _ x hx => ?_
        refine (safe_sleep .nwrite hx (fun d _ hc => by cases hc) ?_).seq fun _ _ hy => hy
        exact fun d hd _ => ⟨hd.2, hd.1 rfl⟩
      | false =>
        cases hsrc : src i with
        | none =>
          dsimp only
          exact safe_writeEnd hv i
        | some ch =>
          dsimp only
          exact (safe_put hv (fun d hd => hd.2) ch).seq fun _ _ hx => hx
  · exact safe_writeEnd h i

theorem safe_waitRound {dst : Nat → Bool} {n : Int} (hdst : v = true → Writable dst n)
    (h : Inside pr true true (fun _ => True) s) :
    (conduct v).team.Safe pr (waitRound pr dst n) (Knows v pr) s := by
  unfold waitRound
  refine (safe_read h).seq fun b u hu => ?_
  cases b with
  | true =>
    refine (Rules.safe_killedOf (firm_sleepers _ _ _) hu).seq fun b v hv => ?_
    cases b with
    | true => exact (safe_release hv).seq fun _ _ hx => hx
    | false =>
      refine (safe_sleep .nread hv ?_ (fun d _ hc => by cases hc)).seq fun _ _ hx => ⟨hdst, hx⟩
      exact fun d hd _ => by simpa using hd.2
  | false =>
    refine ⟨hdst, hu.lock, hu.awake, fun hm => ⟨(hu.holds.1 hm).1, fun j hj => ?_⟩, trivial⟩
    exact ⟨((hu.holds.1 hm).2 j hj).1, fun hl => by cases hl⟩

theorem safe_readRound {dst : Nat → Bool} {n : Int} {i : Nat} (hdst : v = true → Writable dst n)
    (h : Inside pr true false (fun _ => True) s) :
    (conduct v).team.Safe pr (readRound pr dst n i) (Knows v pr) s := by
  unfold readRound
  split
  · rename_i hi
    refine (safe_read h).seq fun b u hu => ?_
    cases b with
    | true => exact safe_readEnd hu i
    | false =>
      refine (safe_take hu (fun d hd => hd.2) (fun hv => hdst hv i hi)).seq fun _ x hx => ?_
      cases dst i with
      | true => exact ⟨hdst, hx⟩
      | false => exact safe_readEnd hx i
  · exact safe_readEnd h i

/-- Closing an end wakes the sleepers at the other one. -/
theorem safe_pipeclose {writable : Bool} (h : Outside pr s) :
    (conduct v).team.Safe pr (pipeclose pr writable) (Knows v pr) s := by
  refine (safe_acquire h).seq fun _ u hu => ?_
  let p' : (Pid → Option Chan) → Pipe → Prop := fun a d => d.missed = false →
    (∀ j, a j = some .nread → d.empty = true ∧ (writable = false → d.writeopen = true)) ∧
    ∀ j, a j = some .nwrite → d.full = true ∧ (writable = true → d.readopen = true)
  have hfirm : (rules v).Firm pr p' := firm fun hf h hm =>
    ⟨fun j hj => (h hm).1 j (hf j _ hj), fun j hj => (h hm).2 j (hf j _ hj)⟩
  have hclose : (conduct v).team.Safe pr (Monitor.write (Pipe.close writable))
      (fun _ => Rules.Inside pr p') u := by
    refine Rules.safe_write (firm_sleepers _ _ _) hu ?_
    intro a d hd hp
    cases writable with
    | true =>
      refine ⟨⟨⟨hd.1.1, hd.1.2, hd.1.3, hd.1.4, hd.1.5⟩, hd.2⟩, .inr trivial, fun hm => ?_⟩
      obtain ⟨h1, h2⟩ := hp.1 hm
      exact ⟨fun j hj => ⟨(h1 j hj).2 rfl, fun hw => by cases hw⟩,
        fun j hj => ⟨(h2 j hj).2 rfl, fun _ => (h2 j hj).1⟩⟩
    | false =>
      refine ⟨⟨⟨hd.1.1, hd.1.2, hd.1.3, hd.1.4, hd.1.5⟩, hd.2⟩, .inr trivial, fun hm => ?_⟩
      obtain ⟨h1, h2⟩ := hp.1 hm
      exact ⟨fun j hj => ⟨(h1 j hj).2 rfl, fun _ => (h1 j hj).1⟩,
        fun j hj => ⟨(h2 j hj).2 rfl, fun hw => by cases hw⟩⟩
  refine hclose.seq fun _ x hx => ?_
  have hwake : (conduct v).team.Safe pr (Monitor.wakeup (if writable then .nread else .nwrite))
      (fun _ => Inside pr true true (fun _ => True)) x := by
    refine Rules.safe_wakeup hfirm hx ?_
    intro a d _ hp
    refine ⟨fun hm => ?_, trivial⟩
    obtain ⟨h1, h2⟩ := hp hm
    cases writable with
    | true =>
      refine ⟨fun j hj => (not_wake _ _ _ hj).elim, fun j hj => ?_⟩
      have := h2 j (fewer_wake _ _ _ _ hj)
      exact ⟨this.2 rfl, fun _ => this.1⟩
    | false =>
      refine ⟨fun j hj => ?_, fun j hj => (not_wake _ _ _ hj).elim⟩
      have := h1 j (fewer_wake _ _ _ _ hj)
      exact ⟨this.2 rfl, fun _ => this.1⟩
  exact hwake.seq fun _ _ hy => (safe_release hy).seq fun _ _ hz => hz

/-- The call's addresses are valid. -/
def Call.Valid : Call → Prop
  | .write src n => ∀ i : Nat, (i : Int) < n → (src i).isSome
  | .read dst n => Writable dst n
  | _ => True

theorem obey : Pool.Obey (conduct v) calls (Knows v) (fun c => v = true → c.Valid) where
  stable := knows_stable
  onward pr a r s hr _ h := by
    cases a with
    | user x => cases hr
    | writing src n i unsaid =>
      cases hr
      exact safe_writeRound h
    | waiting dst n =>
      cases hr
      exact safe_waitRound h.1 h.2
    | reading dst n i =>
      cases hr
      exact safe_readRound h.1 h.2
  call pr a c s hc ha _ h _ := by
    cases a with
    | user x =>
      cases c with
      | write src n => exact (safe_acquire h).seq fun _ _ hu => hu
      | read dst n => exact (safe_acquire h).seq fun _ _ hu => ⟨hc, hu⟩
      | close writable => exact safe_pipeclose h
      | kill j => exact (Rules.safe_kill j h Rules.lasting_true).seq fun _ _ hu => hu
    | writing src n i unsaid => cases ha
    | waiting dst n => cases ha
    | reading dst n i => cases ha

theorem boot_inv (junk : Nat → UInt8) : (conduct v).inv (boot junk).state :=
  ⟨⟨Fifo.alloc junk, fun _ => rfl⟩, fun _ _ => ⟨fun _ hj => (by cases hj), fun _ hj => (by cases hj)⟩⟩

theorem boot_knows (junk : Nat → UInt8) (pr : Pid) : Knows v pr (.user 0) (boot junk).state :=
  ⟨by simp [boot, Pool.start, Monitor.start], rfl, trivial⟩

/-- The bytes in the ring, from nread on. -/
def Pipe.content (d : Pipe) : List UInt8 :=
  (List.range (d.nwrite - d.nread).toNat).map
    (fun k => d.data ((d.nread.toNat + k) % PIPESIZE))

theorem Fifo.content {d : Pipe} (h : Fifo d) : d.accepted = d.taken ++ d.content := by
  obtain ⟨rest, hrest⟩ := h.sub
  have hlen : (d.nwrite - d.nread).toNat = rest.length := by
    rw [h.count, ← hrest]
    simp
  suffices hc : d.content = rest by rw [hc, hrest]
  refine List.ext_getElem (by simp [Pipe.content, hlen]) fun k hk hk' => ?_
  have hr := h.nread
  have hslot : (d.nread.toNat + k) % PIPESIZE = (d.taken.length + k) % PIPESIZE := by
    simp only [PIPESIZE]
    omega
  have hlt : d.taken.length + k < d.accepted.length := by
    rw [← hrest]
    simpa using hk'
  have hring := h.ring _ hlt (Nat.le_add_right _ _)
  simp only [Pipe.content, List.getElem_map, List.getElem_range, hslot, hring]
  simp [← hrest]

/-- For any processes, calls and interleaving with valid addresses: what readers got is a prefix
of what writers put in, the ring holds the rest, and nwrite - nread is between 0 and PIPESIZE. -/
theorem pipe_is_fifo {junk : Nat → UInt8} {as : List Action} {m : Machine}
    (h : runAll step (boot junk) as = some m) (hv : ∀ a ∈ as, a.All Call.Valid) :
    m.state.data.delivered <+: m.state.data.accepted ∧
    m.state.data.accepted = m.state.data.delivered ++ m.state.data.content ∧
    (m.state.data.nwrite - m.state.data.nread).toNat ≤ PIPESIZE := by
  have hall : ∀ a ∈ as, a.All (fun c => true = true → c.Valid) := by
    intro a ha
    have := hv a ha
    cases a with
    | run i => trivial
    | call i c => exact fun _ => this
  have hok := Pool.Ok.of_run obey (boot_inv junk) (boot_knows junk) hall h
  obtain ⟨hfifo, hdel⟩ := hok.inv.always
  rw [hdel rfl]
  refine ⟨hfifo.sub, hfifo.content, ?_⟩
  rw [hfifo.count]
  have := hfifo.room
  omega

/-- Process 1 sends three bytes, and process 2 asks for two. -/
def sendThree : List Action :=
  [.call 1 (.write (fun i => some (10 + i.toUInt8)) 3)] ++ List.replicate 19 (.run 1) ++
    [.call 2 (.read (fun _ => true) 2)] ++ List.replicate 12 (.run 2)

theorem pipe_is_fifo_sent : ∃ m, runAll step (boot fun _ => 0) sendThree = some m ∧
    m.state.data.delivered = [10, 11] ∧ m.state.data.accepted = [10, 11, 12] ∧
    m.state.data.delivered <+: m.state.data.accepted := by
  have hrun : (runAll step (boot fun _ => 0) sendThree).any (fun m =>
      decide (m.state.data.delivered = [10, 11] ∧ m.state.data.accepted = [10, 11, 12])) = true := by
    decide +kernel
  obtain ⟨m, hm, hp⟩ := (Option.any_eq_true _ _).mp hrun
  obtain ⟨h1, h2⟩ := of_decide_eq_true hp
  have hv : ∀ a ∈ sendThree, a.All Call.Valid := by
    simp [sendThree, PoolAction.All, Call.Valid, Writable]
  exact ⟨m, hm, h1, h2, (pipe_is_fifo hm hv).1⟩

/-- As long as no pipewrite() has given up with bytes it had not announced: while the lock is
free, a reader sleeps only on an empty pipe that can still be written, and a writer only on a full
one that can still be read. -/
theorem pipe_sleepers_wait {junk : Nat → UInt8} {m : Machine} (h : Reaches step (boot junk) m)
    (hm : m.state.data.missed = false) (hl : m.state.lock = none) (pr : Pid) :
    (m.state.asleep pr = some .nread →
      m.state.data.nread = m.state.data.nwrite ∧ m.state.data.writeopen = true) ∧
    (m.state.asleep pr = some .nwrite →
      m.state.data.nwrite = m.state.data.nread + UInt32.ofNat PIPESIZE ∧
        m.state.data.readopen = true) := by
  have hok : Pool.Ok (conduct false) (Knows false) m :=
    .of_reaches ⟨obey.stable, obey.onward, fun i a c s _ => obey.call i a c s (by simp)⟩
      (boot_inv junk) (boot_knows junk) h
  obtain ⟨h1, h2⟩ := hok.inv.free hl hm
  refine ⟨fun hr => ?_, fun hw => ?_⟩
  · obtain ⟨ho, he⟩ := h1 pr hr
    exact ⟨by simpa [Pipe.empty] using he rfl, ho⟩
  · obtain ⟨ho, hf⟩ := h2 pr hw
    exact ⟨by simpa [Pipe.full] using hf rfl, ho⟩

/-- Process 1 waits for a byte. -/
def readAndSleep : List Action :=
  [.call 1 (.read (fun _ => true) 1)] ++ List.replicate 5 (.run 1)

theorem pipe_sleepers_wait_reader : ∃ m, Reaches step (boot fun _ => 0) m ∧
    m.state.asleep 1 = some .nread ∧ m.state.data.nread = m.state.data.nwrite := by
  have hrun : (runAll step (boot fun _ => 0) readAndSleep).any (fun m =>
      decide (m.state.data.missed = false ∧ m.state.lock = none ∧
        m.state.asleep 1 = some .nread)) = true := by
    decide +kernel
  obtain ⟨m, hm, hp⟩ := Reaches.of_any hrun
  obtain ⟨h1, h2, h3⟩ := of_decide_eq_true hp
  exact ⟨m, hm, h3, ((pipe_sleepers_wait hm h1 h2 1).1 h3).1⟩

/-- Process 2 puts a byte, is killed by process 3 before the next one, and returns -1. -/
def killBetweenBytes : List Action :=
  readAndSleep ++ [.call 2 (.write (fun _ => some 65) 2)] ++ List.replicate 6 (.run 2) ++
    [.call 3 (.kill 2), .run 3] ++ List.replicate 4 (.run 2)

/-- The reader sleeps on while the byte is in the pipe. -/
theorem pipe_reader_forgotten : ∃ m, Reaches step (boot fun _ => 0) m ∧ m.state.lock = none ∧
    m.state.asleep 1 = some .nread ∧ m.state.data.content = [65] ∧
    m.state.data.readopen = true ∧ m.state.data.writeopen = true := by
  have hrun : (runAll step (boot fun _ => 0) (killBetweenBytes)).any (fun m =>
      decide (m.state.lock = none ∧ m.state.asleep 1 = some .nread ∧
        m.state.data.content = [65] ∧ m.state.data.readopen = true ∧
        m.state.data.writeopen = true)) = true := by
    decide +kernel
  obtain ⟨m, hm, hp⟩ := Reaches.of_any hrun
  exact ⟨m, hm, of_decide_eq_true hp⟩

end Xv6.Pipe
