import Xv6.Proofs.Mkfs

namespace Xv6
variable {p : ProcId} {ok : Panic → Prop} {sb : Superblock} {disk : Disk} {N : Nat → Node}
  {t : Holders} {fs fs' : Fs}

/- chmod(). -/

theorem ensures_iupdate_mem (hok : Benign ok) {ip : InodePtr} {m : Mem} (hm : fs.mem = m) :
    (Kern.iupdate ip).Ensures (Fs.run p) ok (fun _ fs' => fs'.mem = m) fs := by
  unfold Kern.iupdate Kern.getSb Kern.inodeOf
  rw [Free.ensures_bind, ensures_get, Free.ensures_bind, ensures_get, Free.ensures_bind]
  apply ensures_bread
  intro st _
  rw [Free.ensures_bind, ensures_bdata]
  refine ensures_put_brelse hok (m := pure ()) ?_
  intro st' _ _
  exact hm

/-- The part of sys_chmod() that changes the inode drops no reference. -/
theorem chmodFound_spec (hok : Benign ok) {ip : InodePtr} {c : Int}
    (hr : (fs.mem.inode ip).ref = c) (f : Dinode → Dinode) :
    (do
      Kern.setCopy ip f
      Kern.iupdate ip
      Kern.iunlock ip
      Kern.finish 0 : KernM Int).Ensures (Fs.run p) ok
        (fun r fs' => r = 0 ∧ (fs'.mem.inode ip).ref = c) fs := by
  unfold Kern.setCopy Kern.setInode
  rw [Free.ensures_bind, ensures_update]
  refine Free.Ensures.seq (ensures_iupdate_mem hok rfl) ?_
  intro _ fs₁ h₁
  unfold Kern.iunlock
  rw [Free.ensures_bind, ensures_mem, h₁]
  split
  · exact hok _ (by decide) (by decide) (by decide) (by decide)
  · unfold Kern.finish
    rw [Out.sat_ok, Free.ensures_bind]
    apply ensures_endOp
    intro st _
    refine ⟨rfl, ?_⟩
    rw [setInode_same, setInode_same]
    exact hr

/-- A call that finds the file keeps the reference that namei() took. -/
theorem sysChmod_spec (hok : Benign ok) (hsb : sb.Ok) (hs : ok .ilockNoType ∨ Sound N) (hi : t.Idle)
    (h : Inside p sb N t fs) (path : StrArg) (mode : Int) :
    (Kern.sysChmod path mode).Ensures (Fs.run p) ok (fun r fs' => (r = -1 ∧ Inside p sb N t fs') ∨
      (r = 0 ∧ ∃ ip, (fs'.mem.inode ip).ref = (t.count ip : Int) + 1)) fs := by
  unfold Kern.sysChmod
  dsimp only
  split
  · exact .inl ⟨rfl, h⟩
  · rw [Free.ensures_bind]
    apply ensures_beginOp
    intro st₀ hs₀
    apply Free.Ensures.seq (namei_spec hok hsb hs (h.same hs₀) hi.toCalm _)
    rintro (_ | ip) fs₁ h₁
    · exact (finish_spec h₁.2 (-1)).mono (fun _ _ h' => .inl h')
    · obtain ⟨i, -, ht, h₁⟩ := h₁
      have hn : (t.take ip i).Names ip i := t.names_take.mpr (.inl ⟨rfl, rfl⟩)
      apply Free.Ensures.seq (ilock_spec hok hsb h₁ hn ht)
      rintro - fs₂ ⟨⟨ino, h₂⟩, -⟩
      have href : (fs₂.mem.inode ip).ref = (t.count ip : Int) + 1 := by
        rw [(h₂.mem.slot ip).ref]
        exact_mod_cast t.count_take ip i
      refine (chmodFound_spec hok href _).mono ?_
      rintro r fs' ⟨rfl, hr⟩
      exact .inr ⟨rfl, ip, hr⟩

/-- What chmod() is not to change. -/
structure SameButMode (fs fs' : Fs) : Prop where
  type : ∀ i, (fs'.node i).type = (fs.node i).type
  entry : ∀ i, (fs'.node i).entry = (fs.node i).entry
  nlink : ∀ i, (fs'.node i).nlink = (fs.node i).nlink
  size : ∀ i, (fs'.node i).size = (fs.node i).size
  ref : ∀ ip, (fs'.mem.inode ip).ref = (fs.mem.inode ip).ref

/-- A system call that is no chmod(), or a chmod() that fails. -/
def Fs.stepChmodFails (fs : Fs) (e : Event) : Option Fs :=
  if fs.mem.alive e.p then
    match fs.exec e with
    | .ok r fs' => if e.call.isChmod ∧ r ≠ -1 then none else some fs'
    | _ => none
  else none

theorem Fs.stepChmodFails_some {e : Event} (h : fs.stepChmodFails e = some fs') :
    fs.stepNoChmod e = some fs' ∨ ∃ path mode, e.call = .chmod path mode ∧ fs.exec e = .ok (-1) fs' := by
  unfold Fs.stepChmodFails at h
  split at h
  · rename_i ha
    split at h
    · rename_i r fs₁ hr
      split at h
      · cases h
      · rename_i hc
        cases h
        cases hcall : e.call with
        | chmod path mode =>
          rw [hcall] at hc
          have : r = -1 := by simpa [Call.isChmod] using hc
          exact .inr ⟨path, mode, rfl, this ▸ hr⟩
        | _ =>
          refine .inl ?_
          unfold Fs.stepNoChmod Fs.step
          simp [hcall, Call.isChmod, ha, hr]
    · cases h
  · cases h

theorem Healthy.chmod (h : Healthy sb fs) (hsb : sb.Ok) {evict : List Bool} {path : StrArg}
    {mode r : Int} (he : fs.exec ⟨p, .chmod path mode, evict⟩ = .ok r fs') :
    (r = -1 ∧ Healthy sb fs' ∧ SameButMode fs fs') ∨ (r = 0 ∧ ¬ SameButMode fs fs') := by
  obtain ⟨t, hi, hin⟩ := h
  have hin₀ : Inside p sb fs.node t { fs with st := { fs.st with evict := evict } } :=
    (hin p).same ⟨rfl, rfl⟩
  have href : ∀ {fs₁ : Fs} ip, Inside p sb fs.node t fs₁ →
      (fs₁.mem.inode ip).ref = (t.count ip : Int) := by
    rintro fs₁ ip ⟨ino, hw⟩
    exact (hw.mem.slot ip).ref
  have hspec : (Kern.sysChmod path mode).Ensures (Fs.run p) (fun _ => True) _ _ :=
    sysChmod_spec (fun _ _ _ _ _ => trivial) hsb (.inl trivial) hi hin₀ path mode
  rcases hspec.ok_of_exec he with ⟨hr, h'⟩ | ⟨hr, ip, hip⟩
  · have hN := h'.eq_node
    exact .inl ⟨hr, h'.healthy hi, fun i => by rw [← hN], fun i => by rw [← hN],
      fun i => by rw [← hN], fun i => by rw [← hN], fun ip => (href ip h').trans (href ip (hin p)).symm⟩
  · refine .inr ⟨hr, fun hs => ?_⟩
    have h₁ := hs.ref ip
    have h₂ := href ip (hin p)
    omega

theorem healthy_of_chmodFails (h : WellFormed sb disk)
    (hr : Reaches Fs.stepChmodFails (Fs.boot sb disk) fs) : Healthy sb fs := by
  refine hr.invariant h.healthy (fun fs e fs' hh he => ?_)
  rcases Fs.stepChmodFails_some he with he | ⟨path, mode, hc, he⟩
  · exact (hh.step h.super he).1
  · obtain ⟨p, call, evict⟩ := e
    subst hc
    rcases hh.chmod h.super he with ⟨-, hh', -⟩ | ⟨hr, -⟩
    · exact hh'
    · exact absurd hr (by decide)

/-- What a call answers, with the state it leaves. -/
def Fs.answer (fs : Fs) (e : Event) : Option (Int × Fs) :=
  match fs.exec e with
  | .ok r fs' => some (r, fs')
  | _ => none

theorem Fs.answer_some {e : Event} {r : Int} (h : fs.answer e = some (r, fs')) :
    fs.exec e = .ok r fs' := by
  unfold Fs.answer at h
  split at h
  · rename_i he
    cases h
    exact he
  · cases h

end Xv6
