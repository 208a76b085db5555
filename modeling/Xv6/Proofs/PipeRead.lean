import Xv6.Proofs.ProcStat

namespace Xv6

namespace Pipe.Pipe
variable {d : Pipe}

/-- The bytes in the ring, oldest first. -/
def queue (d : Pipe) : List UInt8 :=
  (List.range (d.nwrite - d.nread).toNat).map (fun k => d.data ((d.nread + UInt32.ofNat k).toNat % PIPESIZE))

theorem queue_empty (h : d.empty = true) : d.queue = [] := by
  rw [empty, beq_iff_eq] at h
  simp [queue, h]

/-- The oldest byte and, after it, what a turn of the loop leaves. -/
theorem queue_take (h : d.empty = false) (ok : Bool) :
    d.queue = d.data (d.nread.toNat % PIPESIZE) :: (d.take ok).queue := by
  have hne : d.nread ≠ d.nwrite := by simpa [empty] using h
  have hlen : (d.nwrite - d.nread).toNat = (d.nwrite - (d.nread + 1)).toNat + 1 := by
    have hne' : d.nread.toNat ≠ d.nwrite.toNat := fun h0 => hne (UInt32.toNat_inj.mp h0)
    have hr := d.nread.toNat_lt
    have hw := d.nwrite.toNat_lt
    rw [UInt32.toNat_sub, UInt32.toNat_sub, UInt32.toNat_add, UInt32.toNat_one]
    omega
  have hat : ∀ k : Nat, d.nread + UInt32.ofNat (k + 1) = d.nread + 1 + UInt32.ofNat k := fun k => by
    rw [UInt32.ofNat_add]
    grind
  simp only [queue, take, hlen, List.range_succ_eq_map, List.map_cons, List.map_map]
  congr 1
  · simp
  · apply List.map_congr_left
    intro k _
    simp only [Function.comp, Nat.succ_eq_add_one, hat]

/-- The ring after `k` bytes have been delivered. -/
def delivers (d : Pipe) : Nat → Pipe
  | 0 => d
  | k + 1 => (d.take true).delivers k

theorem nread_delivers (k : Nat) : (d.delivers k).nread = d.nread + UInt32.ofNat k := by
  induction k generalizing d with
  | zero => simp [delivers]
  | succ k ih =>
    rw [delivers, ih, UInt32.ofNat_add]
    simp only [take]
    grind

theorem queue_delivers {k : Nat} (h : k ≤ d.queue.length) : (d.delivers k).queue = d.queue.drop k := by
  induction k generalizing d with
  | zero => rfl
  | succ k ih =>
    have he : d.empty = false := by
      cases he : d.empty with
      | false => rfl
      | true => simp [queue_empty he] at h
    rw [queue_take he true] at h ⊢
    exact ih (Nat.le_of_succ_le_succ h)

end Pipe.Pipe

namespace UserCalls
variable {p : ProcId} {pi addr : Nat} {w : World}

def World.pipe (w : World) (pi : Nat) : Pipe.Pipe := w.kernel.pipe pi

def World.setPipe (w : World) (pi : Nat) (d : Pipe.Pipe) : World :=
  { w with kernel := { w.kernel with pipe := setAt w.kernel.pipe pi d } }

@[simp] theorem World.pipe_setPipe (d : Pipe.Pipe) : (w.setPipe pi d).pipe pi = d := setAt_same _ _ _

theorem World.setPipe_setPipe (d e : Pipe.Pipe) : (w.setPipe pi d).setPipe pi e = w.setPipe pi e := by
  simp [World.setPipe]

theorem World.setPipe_self : w.setPipe pi (w.pipe pi) = w := by
  simp [World.setPipe, World.pipe]

theorem World.put_nil (a : Nat) : w.put a [] = w := by
  rw [World.put, UserSpace.putBytes_nil]

theorem World.put_append (a : Nat) (as bs : List UInt8) :
    w.put a (as ++ bs) = (w.put a as).put (a + as.length) bs := by
  rw [World.put, UserSpace.putBytes_append]
  rfl

/-- An address that copyout() accepts is not the last before 0. -/
theorem wrap_succ {us : UserSpace} {a : Nat} (h : us.accepts (a % 2 ^ 64) = true) :
    (a + 1) % 2 ^ 64 = a % 2 ^ 64 + 1 := by
  have hlt := UserSpace.lt_maxva_of_accepts h
  rw [MAXVA] at hlt
  omega

theorem wrap_add {us : UserSpace} {a k : Nat} (h : ∀ j < k, us.accepts ((a + j) % 2 ^ 64) = true) {j : Nat}
    (hj : j ≤ k) : (a + j) % 2 ^ 64 = a % 2 ^ 64 + j := by
  induction j with
  | zero => rfl
  | succ j ih =>
    rw [← Nat.add_assoc, wrap_succ (h j hj), ih (Nat.le_of_succ_le hj), Nat.add_assoc]

/-- copyout() of one byte. -/
theorem copyout_byte (va : Nat) (c : UInt8) (w : World) : copyout va [c] w =
    if w.user.accepts (va % 2 ^ 64) then .ok true (w.put (va % 2 ^ 64) [c]) else .ok false w := by
  rw [run_copyout, List.length_singleton, stored_one]
  split
  · rfl
  · rw [List.take_zero, World.put_nil]
    rfl

/- One turn of piperead()'s second loop. -/

theorem pipeCopy_empty {fuel i : Nat} (h : (w.pipe pi).empty = true) :
    pipeCopy pi addr (fuel + 1) i w = .ok (i : Int) w := by
  rw [World.pipe] at h
  rw [pipeCopy, run_bind, run_get]
  simp only [h, if_pos]
  rfl

theorem pipeCopy_turn {fuel i : Nat} (h : (w.pipe pi).empty = false) :
    pipeCopy pi addr (fuel + 1) i w =
      if w.user.accepts ((addr + i) % 2 ^ 64) then
        pipeCopy pi addr fuel (i + 1)
          ((w.put ((addr + i) % 2 ^ 64) [(w.pipe pi).data ((w.pipe pi).nread.toNat % Pipe.PIPESIZE)]).setPipe pi
            ((w.pipe pi).take true))
      else .ok (i : Int) (w.setPipe pi ((w.pipe pi).take false)) := by
  rw [World.pipe] at h ⊢
  rw [pipeCopy, run_bind, run_get]
  simp only [h, Bool.false_eq_true, if_false, run_bind, run_get, copyout_byte]
  cases w.user.accepts ((addr + i) % 2 ^ 64) with
  | true => rfl
  | false => rfl

theorem put_turn (a : Nat) (c : UInt8) (bs : List UInt8) (d e : Pipe.Pipe) :
    (((w.put a [c]).setPipe pi d).put (a + 1) bs).setPipe pi e = (w.put a (c :: bs)).setPipe pi e := by
  rw [show c :: bs = [c] ++ bs from rfl, World.put_append]
  exact World.setPipe_setPipe (w := (w.put a [c]).put (a + 1) bs) d e

/-- How the loop ends: after `k` bytes there are no more to be had or none is wanted, or the next one has left the ring
and cannot be stored. -/
inductive CopyEnd (pi a fuel : Nat) (w : World) (k : Nat) : World → Prop where
  | done (h : k = fuel ∨ k = (w.pipe pi).queue.length) :
      CopyEnd pi a fuel w k ((w.put (a % 2 ^ 64) ((w.pipe pi).queue.take k)).setPipe pi ((w.pipe pi).delivers k))
  | lost (hf : k < fuel) (hq : k < (w.pipe pi).queue.length) (h : w.user.accepts ((a + k) % 2 ^ 64) = false) :
      CopyEnd pi a fuel w k
        ((w.put (a % 2 ^ 64) ((w.pipe pi).queue.take k)).setPipe pi (((w.pipe pi).delivers k).take false))

theorem pipeCopy_ends (pi addr fuel i : Nat) (w : World) : ∃ k w', pipeCopy pi addr fuel i w = .ok ((i + k : Nat) : Int) w' ∧
    k ≤ fuel ∧ k ≤ (w.pipe pi).queue.length ∧ (∀ j < k, w.user.accepts ((addr + i + j) % 2 ^ 64) = true) ∧
    CopyEnd pi (addr + i) fuel w k w' := by
  induction fuel generalizing i w with
  | zero =>
    refine ⟨0, w, rfl, Nat.le_refl 0, Nat.zero_le _, nofun, ?_⟩
    have hend := @CopyEnd.done pi (addr + i) 0 w 0 (.inl rfl)
    rwa [List.take_zero, World.put_nil, Pipe.Pipe.delivers, World.setPipe_self] at hend
  | succ fuel ih =>
    cases he : (w.pipe pi).empty with
    | true =>
      refine ⟨0, w, pipeCopy_empty he, Nat.zero_le _, Nat.zero_le _, nofun, ?_⟩
      have hend := @CopyEnd.done pi (addr + i) (fuel + 1) w 0
        (.inr (by rw [Pipe.Pipe.queue_empty he]; rfl))
      rwa [List.take_zero, World.put_nil, Pipe.Pipe.delivers, World.setPipe_self] at hend
    | false =>
      have hq := Pipe.Pipe.queue_take he
      rw [pipeCopy_turn he]
      cases hacc : w.user.accepts ((addr + i) % 2 ^ 64) with
      | false =>
        refine ⟨0, _, rfl, Nat.zero_le _, Nat.zero_le _, nofun, ?_⟩
        have hend := @CopyEnd.lost pi (addr + i) (fuel + 1) w 0 (Nat.succ_pos fuel)
          (by rw [hq true]; exact Nat.succ_pos _) hacc
        rwa [List.take_zero, World.put_nil, Pipe.Pipe.delivers] at hend
      | true =>
        have hnext := wrap_succ hacc
        generalize hc : (w.pipe pi).data ((w.pipe pi).nread.toNat % Pipe.PIPESIZE) = c at hq ⊢
        obtain ⟨k, w', hrun, hkf, hkq, hin, hend⟩ :=
          ih (i + 1) ((w.put ((addr + i) % 2 ^ 64) [c]).setPipe pi ((w.pipe pi).take true))
        rw [World.pipe_setPipe] at hkq
        have hin' : ∀ j < k, w.user.accepts ((addr + (i + 1) + j) % 2 ^ 64) = true := fun j hj => by
          simpa only [World.setPipe, World.put, UserSpace.accepts_putBytes] using hin j hj
        have hlen := congrArg List.length (hq true)
        rw [List.length_cons] at hlen
        refine ⟨k + 1, w', ?_, Nat.succ_le_succ hkf, by omega, fun j hj => ?_, ?_⟩
        · rw [if_pos rfl, hrun, Nat.add_right_comm i 1 k, Nat.add_assoc]
        · cases j with
          | zero => exact hacc
          | succ j =>
            rw [show addr + i + (j + 1) = addr + (i + 1) + j by omega]
            exact hin' j (by omega)
        · cases hend with
          | done h =>
            rw [World.pipe_setPipe] at h
            have hend := @CopyEnd.done pi (addr + i) (fuel + 1) w (k + 1) (by omega)
            rw [hq true] at hend
            rwa [World.pipe_setPipe, ← Nat.add_assoc, hnext, put_turn]
          | lost hf hql h =>
            rw [World.pipe_setPipe] at hql
            have h' : w.user.accepts ((addr + i + (k + 1)) % 2 ^ 64) = false := by
              rw [show addr + i + (k + 1) = addr + (i + 1) + k by omega]
              simpa only [World.setPipe, World.put, UserSpace.accepts_putBytes] using h
            have hend := @CopyEnd.lost pi (addr + i) (fuel + 1) w (k + 1) (by omega) (by omega) h'
            rw [hq true] at hend
            rwa [World.pipe_setPipe, ← Nat.add_assoc, hnext, put_turn]

/-- A read from ring `d` that left `d'` and answered `r` moved nread by what it delivered, and the bytes in the caller's
memory and those still in the ring are the bytes that were there. -/
structure LosesNothing (d d' : Pipe.Pipe) (us : UserSpace) (addr : Nat) (r : Int) : Prop where
  moved : d'.nread = d.nread + UInt32.ofNat r.toNat
  kept : us.bytes (addr % 2 ^ 64) r.toNat ++ d'.queue = d.queue

theorem CopyEnd.losesNothing_iff {fuel k : Nat} {w' : World} (h : CopyEnd pi addr fuel w k w')
    (hkq : k ≤ (w.pipe pi).queue.length) (hin : ∀ j < k, w.user.accepts ((addr + j) % 2 ^ 64) = true) :
    LosesNothing (w.pipe pi) (w'.pipe pi) w'.user addr (k : Int) ↔
      ∀ j < fuel, j < (w.pipe pi).queue.length → w.user.accepts ((addr + j) % 2 ^ 64) = true := by
  cases h with
  | done h =>
    have hlen : ((w.pipe pi).queue.take k).length = k := List.length_take_of_le hkq
    have hbytes : (w.user.putBytes (addr % 2 ^ 64) ((w.pipe pi).queue.take k)).bytes (addr % 2 ^ 64) k =
        (w.pipe pi).queue.take k := by
      have hb := @UserSpace.bytes_putBytes w.user (addr % 2 ^ 64) ((w.pipe pi).queue.take k) 0 k
        (by omega) (fun i hi => by
          rw [hlen] at hi
          rw [← wrap_add hin (Nat.le_of_lt hi)]
          exact hin i hi)
      rwa [Nat.add_zero, List.drop_zero, List.take_of_length_le (Nat.le_of_eq hlen)] at hb
    refine iff_of_true ⟨?_, ?_⟩ (fun j hj hq => hin j (by omega))
    · rw [World.pipe_setPipe, Pipe.Pipe.nread_delivers, Int.toNat_natCast]
    · rw [World.pipe_setPipe, Pipe.Pipe.queue_delivers hkq, Int.toNat_natCast]
      exact (congrArg (· ++ _) hbytes).trans (List.take_append_drop k _)
  | lost hf hq h =>
    refine iff_of_false (fun hl => ?_) (fun hall => ?_)
    · have hmoved := hl.moved
      rw [World.pipe_setPipe, Int.toNat_natCast, ← Pipe.Pipe.nread_delivers] at hmoved
      have hone : ((w.pipe pi).delivers k).nread + 1 = ((w.pipe pi).delivers k).nread := hmoved
      simp at hone
    · rw [hall k hf hq] at h
      cases h

/-- piperead() loses nothing if and only if the caller's memory can take every byte that it gets to. -/
theorem piperead_loses_nothing_iff {n : Int} {b : Bool} {w₁ : World} (h : pipeWait p pi w = .ok b w₁) :
    ∃ r w', piperead p pi addr n w = .ok r w' ∧ (LosesNothing (w₁.pipe pi) (w'.pipe pi) w'.user addr r ↔
      (b = true → ∀ j : Nat, (j : Int) < n → j < (w₁.pipe pi).queue.length →
        w₁.user.accepts ((addr + j) % 2 ^ 64) = true)) := by
  rw [piperead, run_bind, h]
  cases b with
  | false =>
    refine ⟨-1, w₁, rfl, iff_of_true ⟨?_, rfl⟩ nofun⟩
    exact (UInt32.add_zero _).symm
  | true =>
    obtain ⟨k, w', hrun, -, hkq, hin, hend⟩ := pipeCopy_ends pi addr n.toNat 0 w₁
    rw [Nat.zero_add] at hrun
    refine ⟨k, w', hrun, (hend.losesNothing_iff hkq hin).trans ?_⟩
    simp only [true_implies, Int.lt_toNat, Nat.add_zero]

/-- A process with one byte in a pipe, and no memory but page 1. -/
def oneByte : World :=
  { lone with
    kernel := { lone.kernel with pipe := fun _ => (Pipe.pipealloc (fun _ => 0)).put 97 }
    user := fun pg => if pg = 1 then some ⟨true, true, .zero⟩ else none }

theorem piperead_one_byte : ∃ r w', piperead 0 0 4096 512 oneByte = .ok r w' ∧
    LosesNothing (oneByte.pipe 0) (w'.pipe 0) w'.user 4096 r := by
  obtain ⟨r, w', hrun, hiff⟩ := @piperead_loses_nothing_iff 0 0 4096 oneByte 512 true oneByte rfl
  refine ⟨r, w', hrun, hiff.mpr fun _ j _ hj => ?_⟩
  obtain rfl : j = 0 := Nat.lt_one_iff.mp hj
  decide

/-- The byte is gone, though the read that met with the unmapped page reports that there was none. -/
theorem piperead_loses_byte : ∃ w', piperead 0 0 0 1 oneByte = .ok 0 w' ∧
    (oneByte.pipe 0).queue = [97] ∧ (w'.pipe 0).nread = 1 ∧ (w'.pipe 0).queue = [] :=
  ⟨_, rfl, by decide, rfl, by decide⟩

end UserCalls
end Xv6
